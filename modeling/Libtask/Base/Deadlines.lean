import Mathlib.Data.List.Sort
import Mathlib.Order.Defs.LinearOrder

/-! Queues in the order of a key: where an element is inserted, and how those whose key has
been reached are taken off at the front. -/
namespace Deadlines

variable {α β : Type*} [LinearOrder β] {key : α → β} {x : α} {xs ys : List α}

/-- No element is before one with a smaller key. -/
def Ordered (key : α → β) (xs : List α) : Prop := xs.Pairwise fun x y => key x ≤ key y

/-- Put `x` before the first element whose key is not below `d`. -/
def insertAt (key : α → β) (d : β) (x : α) (xs : List α) : List α :=
  xs.takeWhile (fun y => key y < d) ++ x :: xs.dropWhile fun y => key y < d

theorem ordered_nil (key : α → β) : Ordered key [] := List.Pairwise.nil

theorem Ordered.congr {key' : α → β} (h : Ordered key xs) (hk : ∀ x ∈ xs, key' x = key x) :
    Ordered key' xs := by
  apply List.Pairwise.imp_of_mem _ h
  intro x y hx hy hle
  rwa [hk x hx, hk y hy]

theorem Ordered.head_le (h : Ordered key (x :: xs)) : ∀ y ∈ x :: xs, key x ≤ key y := by
  intro y hy
  rcases List.mem_cons.mp hy with heq | hy
  · rw [heq]
  · exact (List.pairwise_cons.mp h).1 y hy

theorem Ordered.tail (h : Ordered key (x :: xs)) : Ordered key xs := (List.pairwise_cons.mp h).2

/-- Insertion by the element's own key keeps the order. -/
theorem Ordered.insertAt (h : Ordered key xs) (x : α) :
    Ordered key (insertAt key (key x) x xs) := by
  have htotal : Std.Total fun x y : α => key x ≤ key y := ⟨fun x y => le_total (key x) (key y)⟩
  have htrans : IsTrans α fun x y => key x ≤ key y := ⟨fun x y z => le_trans⟩
  have hins := List.Pairwise.orderedInsert x xs h
  simp only [List.orderedInsert_eq_take_drop, not_le] at hins
  exact hins

theorem insertAt_cons {d : β} {y : α} : insertAt key d x (y :: ys) =
    if key y < d then y :: insertAt key d x ys else x :: y :: ys := by
  by_cases hy : key y < d <;> simp [Deadlines.insertAt, hy]

theorem insertAt_congr {key' : α → β} {d : β} (hk : ∀ y ∈ xs, key' y = key y) :
    insertAt key' d x xs = insertAt key d x xs := by
  induction xs with
  | nil => rfl
  | cons y xs ih =>
    rw [insertAt_cons, insertAt_cons, hk y (by simp), ih fun z hz => hk z (by simp [hz])]

theorem mem_insertAt {d : β} {y : α} : y ∈ insertAt key d x xs ↔ y = x ∨ y ∈ xs := by
  induction xs with
  | nil => simp [Deadlines.insertAt]
  | cons z xs ih =>
    rw [insertAt_cons]
    split
    · rw [List.mem_cons, ih, List.mem_cons, or_left_comm]
    · rw [List.mem_cons]

end Deadlines
