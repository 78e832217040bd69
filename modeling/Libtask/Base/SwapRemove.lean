import Mathlib.Data.List.Perm.Basic
import Mathlib.Data.List.Count

/-! Removal from an unordered array by moving the last entry into the gap. -/
namespace SwapRemove

variable {α : Type*} {a : List α} {x : α} {i : ℕ}

theorem set_perm (hi : i < a.length) : (a[i] :: a.set i x).Perm (x :: a) := by
  have hs : a.set i x = a.take i ++ x :: a.drop (i + 1) := List.set_eq_take_append_cons_drop.trans
    (by simp [hi])
  have ha : a = a.take i ++ a[i] :: a.drop (i + 1) := by simp
  calc (a[i] :: a.set i x).Perm (a[i] :: x :: (a.take i ++ a.drop (i + 1))) := by
        rw [hs]
        exact List.perm_middle.cons _
    _ |>.Perm (x :: a[i] :: (a.take i ++ a.drop (i + 1))) := .swap _ _ _
    _ |>.Perm (x :: a) := by
        conv_rhs => rw [ha]
        exact List.perm_middle.symm.cons _

/-- What is taken out and what stays are together what was there. -/
theorem cons_perm (hx : a.getLast? = some x) (hi : i < a.length) :
    (a[i] :: (a.set i x).dropLast).Perm a := by
  obtain ⟨ys, rfl⟩ := List.getLast?_eq_some_iff.mp hx
  by_cases hlt : i < ys.length
  · rw [List.set_append_left _ _ hlt, List.dropLast_concat, List.getElem_append_left hlt]
    exact (set_perm hlt).trans (List.perm_append_singleton x ys).symm
  · obtain rfl : i = ys.length := by simp at hi; omega
    simpa using (List.perm_append_singleton x ys).symm

end SwapRemove
