import Mathlib.Data.Finset.Erase
import Mathlib.Data.Finset.Insert
import Mathlib.Logic.Function.Basic

/-! An array whose entries know their index. It grows by a chunk when the count of entries is
a multiple of the chunk, and shrinks by moving its last entry into the gap. -/
namespace SlotTable
open Function

structure Table (τ : Type*) where
  arr : ℕ → τ
  count : ℕ
  cap : ℕ
  slot : τ → ℕ

variable {τ : Type*} {k : ℕ} {t : τ} {T : Table τ} {live : Finset τ}

/-- The capacity at the time of an insertion. -/
def Table.grown (k : ℕ) (T : Table τ) : ℕ := if T.count % k = 0 then T.count + k else T.cap

def Table.push [DecidableEq τ] (k : ℕ) (t : τ) (T : Table τ) : Table τ where
  arr := update T.arr T.count t
  count := T.count + 1
  cap := T.grown k
  slot := update T.slot t T.count

def Table.remove [DecidableEq τ] (t : τ) (T : Table τ) : Table τ where
  arr := update T.arr (T.slot t) (T.arr (T.count - 1))
  count := T.count - 1
  cap := T.cap
  slot := update T.slot (T.arr (T.count - 1)) (T.slot t)

/-- The table holds the elements of `live`, each at its slot, within its capacity. -/
structure Holds (k : ℕ) (live : Finset τ) (T : Table τ) : Prop where
  indexed : ∀ i < T.count, T.slot (T.arr i) = i
  mem : ∀ t, t ∈ live ↔ ∃ i < T.count, T.arr i = t
  room : T.count ≤ T.cap
  chunks : k ∣ T.cap

namespace Holds

theorem slot_lt (h : Holds k live T) (ht : t ∈ live) : T.slot t < T.count := by
  obtain ⟨i, hi, hit⟩ := (h.mem t).mp ht
  have hs := h.indexed i hi
  rw [hit] at hs
  omega

theorem arr_slot (h : Holds k live T) (ht : t ∈ live) : T.arr (T.slot t) = t := by
  obtain ⟨i, hi, hit⟩ := (h.mem t).mp ht
  have hs := h.indexed i hi
  rw [hit] at hs
  rw [hs, hit]

/-- Different entries are at different indices. -/
theorem injective (h : Holds k live T) {i j : ℕ} (hi : i < T.count) (hj : j < T.count)
    (hij : T.arr i = T.arr j) : i = j := by
  have hs := h.indexed i hi
  rw [hij, h.indexed j hj] at hs
  exact hs.symm

/-- There is room for the entry that is inserted. -/
theorem count_lt_grown (h : Holds k live T) (hk : 0 < k) : T.count < T.grown k := by
  unfold Table.grown
  split
  · omega
  · rename_i hmod
    have hne : T.count ≠ T.cap := by
      intro heq
      apply hmod
      rw [heq]
      exact Nat.mod_eq_zero_of_dvd h.chunks
    have hroom := h.room
    omega

theorem chunks_grown (h : Holds k live T) : k ∣ T.grown k := by
  unfold Table.grown
  split
  · rename_i hmod
    exact Nat.dvd_add (Nat.dvd_of_mod_eq_zero hmod) (Nat.dvd_refl k)
  · exact h.chunks

theorem push [DecidableEq τ] (h : Holds k live T) (hk : 0 < k) (ht : t ∉ live) :
    Holds k (insert t live) (T.push k t) := by
  have hold : ∀ i < T.count, T.arr i ≠ t := by
    intro i hi hit
    exact ht ((h.mem t).mpr ⟨i, hi, hit⟩)
  have harr : ∀ i < T.count, (T.push k t).arr i = T.arr i := by
    intro i hi
    exact update_of_ne (by omega) _ _
  have hlast : (T.push k t).arr T.count = t := update_self _ _ _
  constructor
  case indexed =>
    intro i hi
    have hcases : i < T.count ∨ i = T.count := by
      have hi' : i < T.count + 1 := hi
      omega
    rcases hcases with hi | rfl
    · rw [harr i hi]
      have hslot : (T.push k t).slot (T.arr i) = T.slot (T.arr i) := update_of_ne (hold i hi) _ _
      rw [hslot, h.indexed i hi]
    · rw [hlast]
      exact update_self _ _ _
  case mem =>
    intro u
    rw [Finset.mem_insert, h.mem u]
    constructor
    · intro hu
      rcases hu with rfl | ⟨i, hi, hiu⟩
      · exact ⟨T.count, Nat.lt_succ_self _, hlast⟩
      · exact ⟨i, Nat.lt_succ_of_lt hi, (harr i hi).trans hiu⟩
    · intro hu
      obtain ⟨i, hi, hiu⟩ := hu
      have hcases : i < T.count ∨ i = T.count := by
        have hi' : i < T.count + 1 := hi
        omega
      rcases hcases with hi | rfl
      · exact .inr ⟨i, hi, (harr i hi).symm.trans hiu⟩
      · exact .inl (hiu.symm.trans hlast)
  case room => exact h.count_lt_grown hk
  case chunks => exact h.chunks_grown

theorem remove [DecidableEq τ] (h : Holds k live T) (ht : t ∈ live) :
    Holds k (live.erase t) (T.remove t) := by
  have hslot := h.slot_lt ht
  have hlast : T.count - 1 < T.count := by omega
  have hpred : (T.remove t).count = T.count - 1 := rfl
  -- what entry `i` is afterwards, and where it was
  have harr : ∀ i < T.count - 1, (T.remove t).arr i =
      T.arr (if i = T.slot t then T.count - 1 else i) := by
    intro i hi
    by_cases his : i = T.slot t
    · rw [if_pos his, his]
      exact update_self _ _ _
    · rw [if_neg his]
      exact update_of_ne his _ _
  constructor
  case indexed =>
    intro i hi
    rw [hpred] at hi
    rw [harr i hi]
    by_cases his : i = T.slot t
    · rw [if_pos his, his]
      exact update_self _ _ _
    · rw [if_neg his]
      have hne : T.arr i ≠ T.arr (T.count - 1) := by
        intro heq
        have hi' := h.injective (by omega) hlast heq
        omega
      have hs : (T.remove t).slot (T.arr i) = T.slot (T.arr i) := update_of_ne hne _ _
      rw [hs, h.indexed i (by omega)]
  case mem =>
    intro u
    rw [Finset.mem_erase, h.mem u, hpred]
    constructor
    · intro ⟨hut, i, hi, hiu⟩
      have his : i ≠ T.slot t := by
        intro his
        apply hut
        rw [← hiu, his, h.arr_slot ht]
      by_cases hil : i = T.count - 1
      · refine ⟨T.slot t, by omega, ?_⟩
        rw [harr _ (by omega), if_pos rfl, ← hil, hiu]
      · refine ⟨i, by omega, ?_⟩
        rw [harr _ (by omega), if_neg his, hiu]
    · intro ⟨i, hi, hiu⟩
      rw [harr i hi] at hiu
      have hj : (if i = T.slot t then T.count - 1 else i) < T.count := by
        split <;> omega
      have hjs : (if i = T.slot t then T.count - 1 else i) ≠ T.slot t := by
        split <;> omega
      refine ⟨?_, _, hj, hiu⟩
      intro hut
      rw [hut] at hiu
      have hs := h.indexed _ hj
      rw [hiu] at hs
      exact hjs hs.symm
  case room =>
    have hroom := h.room
    show T.count - 1 ≤ T.cap
    omega
  case chunks => exact h.chunks

end Holds

theorem holds_empty {T : Table τ} (hn : T.count = 0) (hc : k ∣ T.cap) : Holds k ∅ T where
  indexed i hi := by omega
  mem t := by simp [hn]
  room := by omega
  chunks := hc

end SlotTable
