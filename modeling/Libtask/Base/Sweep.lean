import Libtask.Base.SwapRemove
import Mathlib.Data.List.Range
import Mathlib.Logic.Function.Basic

/-! A scan over an unordered table that takes out the entries of a kind while it goes on. The
last entry moves into the place of one taken out, and is looked at there next. -/
namespace Sweep
open Function

structure Table (α : Type*) where
  arr : ℕ → α
  count : ℕ

variable {α : Type*} {p : α → Bool} {i fuel : ℕ} {T T' T'' : Table α} {xs ys : List α}

def Table.entries (T : Table α) : List α := (List.range T.count).map T.arr

def Table.remove (i : ℕ) (T : Table α) : Table α where
  arr := update T.arr i (T.arr (T.count - 1))
  count := T.count - 1

def Table.push (x : α) (T : Table α) : Table α where
  arr := update T.arr T.count x
  count := T.count + 1

/-- Take out entries at index `i` until the one there is to stay. The entries taken out come
with the table that is left. -/
def slot (p : α → Bool) (i : ℕ) : (fuel : ℕ) → Table α → List α × Table α
  | 0, T => ([], T)
  | fuel + 1, T =>
    if i < T.count ∧ p (T.arr i) then
      let r := slot p i fuel (T.remove i)
      (T.arr i :: r.1, r.2)
    else ([], T)

/-- The scan from index `i` on. -/
def sweep (p : α → Bool) : (fuel : ℕ) → (i : ℕ) → Table α → List α × Table α
  | 0, _, T => ([], T)
  | fuel + 1, i, T =>
    if i < T.count then
      let r := slot p i T.count T
      let r' := sweep p fuel (i + 1) r.2
      (r.1 ++ r'.1, r'.2)
    else ([], T)

/-- `xs` was taken out of `T`, and `T'` is left. -/
structure Swept (p : α → Bool) (T : Table α) (xs : List α) (T' : Table α) : Prop where
  perm : (xs ++ T'.entries).Perm T.entries
  removed : ∀ x ∈ xs, p x
  outside : ∀ j, T.count ≤ j → T'.arr j = T.arr j

theorem Table.forall_entries {q : α → Prop} : (∀ x ∈ T.entries, q x) ↔
    ∀ j < T.count, q (T.arr j) := by
  simp [Table.entries]

theorem Table.length_entries (T : Table α) : T.entries.length = T.count := by
  simp [Table.entries]

theorem Table.entries_push (x : α) (T : Table α) : (T.push x).entries = T.entries ++ [x] := by
  have hold : (List.range T.count).map (update T.arr T.count x) =
      (List.range T.count).map T.arr := by
    apply List.map_congr_left
    intro j hj
    exact update_of_ne (List.mem_range.mp hj).ne _ _
  simp only [Table.entries, Table.push, List.range_succ, List.map_append, List.map_singleton, hold,
    update_self]

namespace Swept

theorem refl (p : α → Bool) (T : Table α) : Swept p T [] T where
  perm := .refl _
  removed := by simp
  outside _ _ := rfl

theorem count_add (h : Swept p T xs T') : xs.length + T'.count = T.count := by
  have hlen := h.perm.length_eq
  simpa [Table.length_entries] using hlen

theorem trans (h : Swept p T xs T') (h' : Swept p T' ys T'') : Swept p T (xs ++ ys) T'' where
  perm := by
    rw [List.append_assoc]
    exact (h'.perm.append_left xs).trans h.perm
  removed x hx := (List.mem_append.mp hx).elim (h.removed x) (h'.removed x)
  outside j hj := by
    have hcount := h.count_add
    rw [h'.outside j (by omega), h.outside j hj]

theorem entries_remove (i : ℕ) (T : Table α) :
    (T.remove i).entries = (T.entries.set i (T.arr (T.count - 1))).dropLast := by
  apply List.ext_getElem
  · simp [Table.entries, Table.remove]
  · intro j h₁ h₂
    simp [Table.entries, Table.remove, List.getElem_set, update_apply, eq_comm]

theorem remove (hi : i < T.count) (hp : p (T.arr i)) : Swept p T [T.arr i] (T.remove i) where
  perm := by
    have hlast : T.entries.getLast? = some (T.arr (T.count - 1)) := by
      rw [List.getLast?_eq_getElem?, Table.length_entries]
      simp [Table.entries, show T.count - 1 < T.count by omega]
    have hlen : i < T.entries.length := by
      rw [Table.length_entries]
      exact hi
    have hget : T.entries[i] = T.arr i := by simp [Table.entries]
    have hperm := SwapRemove.cons_perm hlast hlen
    rw [hget, ← entries_remove] at hperm
    exact hperm
  removed x hx := by
    rw [List.mem_singleton.mp hx]
    exact hp
  outside j hj := update_of_ne (by omega) _ _

/-- What was taken out are the entries of the kind, if none of them is left. -/
theorem perm_filter (h : Swept p T xs T') (hdone : ∀ x ∈ T'.entries, ¬p x) :
    xs.Perm (T.entries.filter p) ∧ T'.entries.Perm (T.entries.filter fun x => !p x) := by
  have hxs : xs.filter p = xs := List.filter_eq_self.mpr h.removed
  have hleft : T'.entries.filter p = [] := List.filter_eq_nil_iff.mpr hdone
  have hxs' : xs.filter (fun x => !p x) = [] := by
    apply List.filter_eq_nil_iff.mpr
    intro x hx
    simp [h.removed x hx]
  have hleft' : T'.entries.filter (fun x => !p x) = T'.entries := by
    apply List.filter_eq_self.mpr
    intro x hx
    simpa using hdone x hx
  constructor
  · have hp := h.perm.filter p
    rwa [List.filter_append, hxs, hleft, List.append_nil] at hp
  · have hp := h.perm.filter fun x => !p x
    rwa [List.filter_append, hxs', hleft', List.nil_append] at hp

end Swept

theorem slot_pos (h : i < T.count ∧ p (T.arr i)) : slot p i (fuel + 1) T =
    (T.arr i :: (slot p i fuel (T.remove i)).1, (slot p i fuel (T.remove i)).2) := by
  rw [slot, if_pos h]

theorem slot_neg (h : ¬(i < T.count ∧ p (T.arr i))) : slot p i fuel T = ([], T) := by
  cases fuel with
  | zero => rfl
  | succ fuel => rw [slot, if_neg h]

theorem sweep_pos (h : i < T.count) : sweep p (fuel + 1) i T =
    ((slot p i T.count T).1 ++ (sweep p fuel (i + 1) (slot p i T.count T).2).1,
      (sweep p fuel (i + 1) (slot p i T.count T).2).2) := by
  rw [sweep, if_pos h]

theorem sweep_neg (h : T.count ≤ i) : sweep p fuel i T = ([], T) := by
  cases fuel with
  | zero => rfl
  | succ fuel => rw [sweep, if_neg (by omega)]

theorem slot_swept (p : α → Bool) (i fuel : ℕ) (T : Table α) :
    Swept p T (slot p i fuel T).1 (slot p i fuel T).2 := by
  induction fuel generalizing T with
  | zero => exact .refl p T
  | succ fuel ih =>
    by_cases h : i < T.count ∧ p (T.arr i)
    · rw [slot_pos h]
      exact (Swept.remove h.1 h.2).trans (ih _)
    · rw [slot_neg h]
      exact .refl p T

theorem slot_before (fuel : ℕ) (hi : i ≤ T.count) : i ≤ (slot p i fuel T).2.count ∧
    ∀ j < i, (slot p i fuel T).2.arr j = T.arr j := by
  induction fuel generalizing T with
  | zero => exact ⟨hi, fun _ _ => rfl⟩
  | succ fuel ih =>
    by_cases h : i < T.count ∧ p (T.arr i)
    · rw [slot_pos h]
      have hrem : i ≤ (T.remove i).count := by
        show i ≤ T.count - 1
        omega
      obtain ⟨hle, harr⟩ := ih hrem
      refine ⟨hle, fun j hj => ?_⟩
      rw [harr j hj]
      exact update_of_ne (by omega) _ _
    · rw [slot_neg h]
      exact ⟨hi, fun _ _ => rfl⟩

/-- With a turn for each entry the loop ends because the entry at the index is to stay. -/
theorem slot_done (hf : T.count ≤ fuel + i) :
    ¬(i < (slot p i fuel T).2.count ∧ p ((slot p i fuel T).2.arr i)) := by
  induction fuel generalizing T with
  | zero =>
    intro h
    have hlt : i < T.count := h.1
    omega
  | succ fuel ih =>
    by_cases h : i < T.count ∧ p (T.arr i)
    · rw [slot_pos h]
      apply ih
      show T.count - 1 ≤ fuel + i
      omega
    · rw [slot_neg h]
      exact h

theorem sweep_swept (p : α → Bool) (fuel i : ℕ) (T : Table α) :
    Swept p T (sweep p fuel i T).1 (sweep p fuel i T).2 := by
  induction fuel generalizing i T with
  | zero => exact .refl p T
  | succ fuel ih =>
    by_cases h : i < T.count
    · rw [sweep_pos h]
      exact (slot_swept p i T.count T).trans (ih _ _)
    · rw [sweep_neg (by omega)]
      exact .refl p T

/-- With a turn for each index no entry of the kind is left. -/
theorem sweep_done (hf : T.count ≤ fuel + i) (hbefore : ∀ j < i, ¬p (T.arr j)) :
    ∀ x ∈ (sweep p fuel i T).2.entries, ¬p x := by
  induction fuel generalizing i T with
  | zero =>
    have hle : T.count ≤ i := by omega
    rw [sweep_neg hle, Table.forall_entries]
    exact fun j hj => hbefore j (Nat.lt_of_lt_of_le hj hle)
  | succ fuel ih =>
    by_cases h : i < T.count
    · rw [sweep_pos h]
      have hcount := (slot_swept p i T.count T).count_add
      obtain ⟨hle, harr⟩ := slot_before (p := p) T.count (Nat.le_of_lt h)
      have hdone : ¬(i < (slot p i T.count T).2.count ∧ p ((slot p i T.count T).2.arr i)) :=
        slot_done (by omega)
      have hold : ∀ j < i, ¬p ((slot p i T.count T).2.arr j) := by
        intro j hj
        rw [harr j hj]
        exact hbefore j hj
      by_cases hmore : i < (slot p i T.count T).2.count
      · apply ih (by omega)
        intro j hj
        by_cases hji : j = i
        · subst hji
          exact fun hp => hdone ⟨hmore, hp⟩
        · exact hold j (by omega)
      · -- the loop took out all that was left
        rw [sweep_neg (by omega), Table.forall_entries]
        exact fun j hj => hold j (Nat.lt_of_lt_of_le hj (not_lt.mp hmore))
    · rw [sweep_neg (by omega), Table.forall_entries]
      exact fun j hj => hbefore j (Nat.lt_of_lt_of_le hj (not_lt.mp h))

end Sweep
