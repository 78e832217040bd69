import Mathlib.Data.List.Basic
import Mathlib.Algebra.GroupWithZero.Nat
import Mathlib.Algebra.Order.Group.Nat
import Mathlib.Algebra.BigOperators.Group.List.Basic
import Mathlib.Tactic.Cases

/-! Texts laid out one after another in a room that may be too small: each has a width of its
own and is put left or right in it. -/
namespace Layout

/-- A text, the least width it is given, and whether the blanks go behind it. -/
structure Field (α : Type*) where
  text : List α
  width : ℕ
  left : Bool

variable {α : Type*} (b : α) {f : Field α} {fs gs : List (Field α)} {r n m : ℕ}

namespace Field

def size (f : Field α) : ℕ := max f.width f.text.length

/-- The blanks that fill the text up to its width. -/
def blanks (f : Field α) : List α := List.replicate (f.width - f.text.length) b

/-- The field with all the room it asks for. -/
def full (f : Field α) : List α :=
  if f.left then f.text ++ f.blanks b else f.blanks b ++ f.text

/-- The field in a room of `r`: both its width and its text are cut to the room. -/
def fit (r : ℕ) (f : Field α) : List α := full b ⟨f.text.take r, min f.width r, f.left⟩

/-- Blanks stand before the text of the field. -/
def Padded (f : Field α) : Prop := f.left = false ∧ f.text.length < f.width

instance : Decidable f.Padded := by unfold Padded; infer_instance

/-- A text that is given no width. -/
def plain (t : List α) : Field α := ⟨t, 0, false⟩

@[simp] theorem length_full : (full b f).length = f.size := by
  unfold full size blanks
  split <;> simp only [List.length_append, List.length_replicate] <;> omega

@[simp] theorem length_fit : (f.fit b r).length = min f.size r := by
  unfold fit
  rw [length_full]
  simp only [size, List.length_take]
  omega

@[simp] theorem size_plain (t : List α) : (plain t).size = t.length := by simp [plain, size]

@[simp] theorem full_plain (t : List α) : (plain t).full b = t := by simp [plain, full, blanks]

@[simp] theorem fit_plain (t : List α) : (plain t).fit b r = t.take r := by
  simp [plain, fit, full, blanks]

@[simp] theorem fit_zero : f.fit b 0 = [] := by
  apply List.eq_nil_of_length_eq_zero
  simp

/-- A field that does not reach the end of the room is laid out in full. -/
theorem fit_of_le (h : f.size ≤ r) : f.fit b r = f.full b := by
  unfold size at h
  unfold fit
  rw [List.take_of_length_le (by omega), Nat.min_eq_left (by omega)]

/-- Unless blanks stand before the text, too small a room cuts the field at its end. -/
theorem fit_of_not_padded (h : ¬ f.Padded) : f.fit b r = (f.full b).take r := by
  unfold Padded at h
  cases hl : f.left with
  | true =>
    simp only [fit, full, blanks, hl, if_true, List.take_append, List.take_replicate,
      List.length_take]
    congr 2
    omega
  | false =>
    have hw : f.width ≤ f.text.length := by simp only [hl, true_and] at h; omega
    simp only [fit, full, blanks, hl, Bool.false_eq_true, if_false, List.length_take]
    rw [show min f.width r - min r f.text.length = 0 by omega,
      show f.width - f.text.length = 0 by omega]
    simp

/-- Where blanks stand before the text they are given up first. -/
theorem fit_of_padded (h : f.Padded) (hr : r ≤ f.size) :
    f.fit b r = List.replicate (r - f.text.length) b ++ f.text.take r := by
  obtain ⟨hl, hw⟩ := h
  unfold size at hr
  simp only [fit, full, blanks, hl, Bool.false_eq_true, if_false, List.length_take]
  congr 2
  omega

end Field

/-- The room that all the fields ask for. -/
def size (fs : List (Field α)) : ℕ := (fs.map Field.size).sum

def full (fs : List (Field α)) : List α := (fs.map (Field.full b)).flatten

/-- The fields in a room of `r`, each in what is left by those before it. -/
def fit : ℕ → List (Field α) → List α
  | _, [] => []
  | r, f :: fs => f.fit b r ++ fit (r - f.size) fs

/-- The `r`-th place of the fields is not inside one that has blanks before its text. -/
def Clean (r : ℕ) : List (Field α) → Prop
  | [] => True
  | f :: fs => (f.Padded → f.size ≤ r ∨ r = 0) ∧ Clean (r - f.size) fs

@[simp] theorem size_nil : size ([] : List (Field α)) = 0 := rfl

@[simp] theorem size_cons : size (f :: fs) = f.size + size fs := by simp [size]

@[simp] theorem fit_nil : fit b r ([] : List (Field α)) = [] := by simp [fit]

@[simp] theorem full_nil : full b ([] : List (Field α)) = [] := rfl

@[simp] theorem full_cons : full b (f :: fs) = f.full b ++ full b fs := by simp [full]

@[simp] theorem length_full : (full b fs).length = size fs := by
  induction fs with
  | nil => rfl
  | cons f fs ih => simp [ih]

@[simp] theorem length_fit : (fit b r fs).length = min (size fs) r := by
  induction fs generalizing r with
  | nil => simp
  | cons f fs ih =>
    simp only [fit, List.length_append, Field.length_fit, ih, size_cons]
    omega

@[simp] theorem fit_zero : fit b 0 fs = [] := by
  apply List.eq_nil_of_length_eq_zero
  simp

theorem fit_append : fit b r (fs ++ gs) = fit b r fs ++ fit b (r - size fs) gs := by
  induction fs generalizing r with
  | nil => simp
  | cons f fs ih =>
    simp only [List.cons_append, fit, ih, size_cons, List.append_assoc]
    rw [Nat.sub_add_eq]

theorem fit_of_le (h : size fs ≤ r) : fit b r fs = full b fs := by
  induction fs generalizing r with
  | nil => simp
  | cons f fs ih =>
    rw [size_cons] at h
    rw [fit, full_cons, Field.fit_of_le b (by omega), ih (by omega)]

/-- A smaller room that ends nowhere inside padding shows the start of what a larger one shows,
wherever the larger one ends. -/
theorem fit_take (h : Clean n fs) (hle : n ≤ m) : fit b n fs = (fit b m fs).take n := by
  induction fs generalizing n m with
  | nil => simp
  | cons f fs ih =>
    obtain ⟨hf, hfs⟩ := h
    have hhead : f.fit b n = (f.fit b m).take n := by
      by_cases hp : f.Padded
      · rcases hf hp with hn | rfl
        · rw [Field.fit_of_le b hn, Field.fit_of_le b (by omega), List.take_of_length_le]
          simpa using hn
        · simp
      · rw [Field.fit_of_not_padded b hp, Field.fit_of_not_padded b hp, List.take_take,
          Nat.min_eq_left hle]
    rw [fit, fit, List.take_append, hhead, Field.length_fit]
    congr 1
    by_cases hm : f.size ≤ m
    · rw [Nat.min_eq_left hm]
      exact ih hfs (by omega)
    · rw [Nat.sub_eq_zero_of_le (show n ≤ f.size by omega),
        Nat.sub_eq_zero_of_le (show n ≤ min f.size m by omega)]
      simp

/-- Where the room ends inside padding, what is before that field is shown in full and the field
gives up its blanks first. -/
theorem fit_of_padded (hp : f.Padded) (hlo : size fs ≤ r) (hhi : r ≤ size fs + f.size) :
    fit b r (fs ++ f :: gs) = full b fs ++
      (List.replicate (r - size fs - f.text.length) b ++ f.text.take (r - size fs)) := by
  rw [fit_append, fit_of_le b hlo, fit, Field.fit_of_padded b hp (by omega),
    show r - size fs - f.size = 0 by omega, fit_zero, List.append_nil]

/-- What is before a field is shown in full in every room that reaches to it. -/
theorem take_fit (h : size fs ≤ r) : (fit b r (fs ++ gs)).take (size fs) = full b fs := by
  rw [fit_append, fit_of_le b h, List.take_append_of_le_length (by simp),
    List.take_of_length_le (by simp)]

/-- A room ends cleanly unless its end is inside a field with blanks before the text. -/
theorem clean_iff : Clean n fs ↔ ∀ pre f post, fs = pre ++ f :: post → f.Padded →
    size pre < n → size pre + f.size ≤ n := by
  induction fs generalizing n with
  | nil => simp [Clean]
  | cons x fs ih =>
    unfold Clean
    rw [ih]
    constructor
    · intro h pre f post heq hp hlt
      cases pre with
      | nil =>
        simp only [List.nil_append, List.cons.injEq] at heq
        obtain ⟨rfl, rfl⟩ := heq
        have := h.1 hp
        simp only [size_nil] at hlt ⊢
        omega
      | cons y pre =>
        simp only [List.cons_append, List.cons.injEq] at heq
        obtain ⟨rfl, rfl⟩ := heq
        rw [size_cons] at hlt ⊢
        have := h.2 pre f post rfl hp (by omega)
        omega
    · intro h
      constructor
      · intro hp
        have := h [] x fs rfl hp
        simp only [size_nil] at this
        omega
      · intro pre f post heq hp hlt
        have := h (x :: pre) f post (by rw [heq]; rfl) hp
        rw [size_cons] at this
        omega

theorem Field.mem_fit {c : α} (h : c ∈ f.fit b r) : c = b ∨ c ∈ f.text := by
  unfold Field.fit Field.full Field.blanks at h
  split at h
  · rcases List.mem_append.mp h with h | h
    · exact .inr (List.mem_of_mem_take h)
    · exact .inl (List.mem_replicate.mp h).2
  · rcases List.mem_append.mp h with h | h
    · exact .inl (List.mem_replicate.mp h).2
    · exact .inr (List.mem_of_mem_take h)

theorem mem_fit {c : α} (h : c ∈ fit b r fs) : c = b ∨ ∃ f ∈ fs, c ∈ f.text := by
  induction fs generalizing r with
  | nil => simp at h
  | cons f fs ih =>
    rcases List.mem_append.mp h with h | h
    · rcases Field.mem_fit b h with h | h
      · exact .inl h
      · exact .inr ⟨f, by simp, h⟩
    · rcases ih h with h | ⟨g, hg, h⟩
      · exact .inl h
      · exact .inr ⟨g, by simp [hg], h⟩

end Layout
