import Mathlib.Data.List.Basic
import Mathlib.Data.Nat.ModEq

/-! A ring of `size` slots of `w` cells each, laid out in one array: the elements it holds,
and what taking the first or adding a last one does to them. -/
namespace Ring

variable {α : Type*}

/-- The cells of slot `i`. -/
def slot (buf : ℕ → α) (w i : ℕ) : List α := (List.range w).map fun j => buf (i * w + j)

/-- The `n` elements held from slot `off` on, oldest first. -/
def contents (buf : ℕ → α) (w size off n : ℕ) : List (List α) :=
  (List.range n).map fun i => slot buf w ((off + i) % size)

variable {buf buf' : ℕ → α} {w size off n i : ℕ} {bytes : List α}

@[simp] theorem contents_zero : contents buf w size off 0 = [] := rfl

@[simp] theorem length_contents : (contents buf w size off n).length = n := by
  simp [contents]

/-- Two slots of an array share no cell. -/
theorem cell_ne {i' j : ℕ} (hi : i' ≠ i) (hj : j < w) :
    i' * w + j < i * w ∨ i * w + w ≤ i' * w + j := by
  rcases lt_or_gt_of_ne hi with h | h
  · have hm := Nat.mul_le_mul_right w (Nat.succ_le_of_lt h)
    rw [Nat.succ_mul] at hm
    omega
  · have hm := Nat.mul_le_mul_right w (Nat.succ_le_of_lt h)
    rw [Nat.succ_mul] at hm
    omega

theorem slot_eq (hlen : bytes.length = w) (hin : ∀ j (h : j < bytes.length),
    buf' (i * w + j) = bytes[j]) : slot buf' w i = bytes := by
  refine List.ext_getElem (by simp [slot, hlen]) fun j hj hj' => ?_
  simp [slot, hin j hj']

theorem slot_congr {i' : ℕ} (hi : i' ≠ i)
    (hout : ∀ x, x < i * w ∨ i * w + w ≤ x → buf' x = buf x) : slot buf' w i' = slot buf w i' :=
  List.map_congr_left fun _ hj => hout _ (cell_ne hi (List.mem_range.mp hj))

/-- Slots at different distances from `off` are different, up to one full turn. -/
theorem index_ne {k : ℕ} (hk : k < n) (hn : n < size) : (off + k) % size ≠ (off + n) % size := by
  intro h
  have hm : k % size = n % size := Nat.ModEq.add_left_cancel' off h
  rw [Nat.mod_eq_of_lt (hk.trans hn), Nat.mod_eq_of_lt hn] at hm
  omega

/-- Writing the slot after the last element adds an element at the end. -/
theorem contents_push (hn : n < size) (hlen : bytes.length = w)
    (hin : ∀ j (h : j < bytes.length), buf' ((off + n) % size * w + j) = bytes[j])
    (hout : ∀ x, x < (off + n) % size * w ∨ (off + n) % size * w + w ≤ x → buf' x = buf x) :
    contents buf' w size off (n + 1) = contents buf w size off n ++ [bytes] := by
  rw [contents, List.range_succ, List.map_append, List.map_singleton, slot_eq hlen hin]
  congr 1
  exact List.map_congr_left fun k hk => slot_congr (index_ne (List.mem_range.mp hk) hn) hout

/-- Stepping `off` past the first slot takes the first element away. -/
theorem contents_pop (hoff : off < size) :
    contents buf w size off (n + 1) =
      slot buf w off :: contents buf w size (if off + 1 = size then 0 else off + 1) n := by
  rw [contents, List.range_succ_eq_map, List.map_cons, List.map_map, Nat.add_zero,
    Nat.mod_eq_of_lt hoff]
  congr 1
  refine List.map_congr_left fun k _ => ?_
  have hidx : (off + (k + 1)) % size = ((if off + 1 = size then 0 else off + 1) + k) % size := by
    split
    · rename_i h
      rw [show off + (k + 1) = size + k by omega, Nat.add_mod_left, Nat.zero_add]
    · congr 1
      omega
  simp only [Function.comp_apply, Nat.succ_eq_add_one, hidx]

end Ring
