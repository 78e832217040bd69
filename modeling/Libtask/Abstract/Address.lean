import Libtask.Net

/-! Addresses as text: the components between the dots, how they are read, and the bytes that they
stand for. -/
namespace Libtask

variable {c p rest : List Char} {cs : List (List Char)} {vs : List ℕ} {v n : ℕ}

def components (name : List Char) : List (List Char) := name.splitOn '.'

/-- A component as it is meant: an unsigned number of C that fits a byte. -/
def Strict (c : List Char) : Prop := ∃ b v, Numeral.Literal b c v ∧ v ≤ 255

/-- The whole name is one to four such components with dots between them. -/
def WellFormed (name : List Char) : Prop :=
  (components name).length ≤ 4 ∧ ∀ c ∈ components name, Strict c

/-- A component as `strtoul` takes it: nothing, or a number after blanks and a sign; a negative
number is taken modulo the range of the type. -/
inductive Loose : List Char → ℕ → Prop
  | empty : Loose [] 0
  | number {blanks s lit : List Char} {neg : Bool} {b m v : ℕ}
      (hblanks : ∀ c ∈ blanks, Numeral.IsSpace c) (hsign : Numeral.Sign s neg)
      (hlit : Numeral.Literal b lit m) (hm : m < 2 ^ 32)
      (hv : v = if neg then (2 ^ 32 - m) % 2 ^ 32 else m) (hbyte : v ≤ 255) :
      Loose (blanks ++ s ++ lit) v

/-- Of the components, the first `n` are looked at; behind a final dot nothing is. -/
def readFirst : ℕ → List (List Char) → List (List Char)
  | 0, _ => []
  | _, [] => []
  | n + 1, c :: cs => if c = [] ∧ cs = [] then [] else c :: readFirst n cs

/-- The components that are looked at have the values `vs`. -/
def ReadAs (name : List Char) (vs : List ℕ) : Prop :=
  List.Forall₂ Loose (readFirst 4 (components name)) vs

/-- The address that component values stand for; missing bytes are zero. -/
def layout : List ℕ → Option Address
  | [a, d] => if a < 128 then some #v[.ofNat 8 a, 0, 0, .ofNat 8 d] else none
  | [a, b, d] =>
    if a < 128 then some #v[.ofNat 8 a, 0, .ofNat 8 b, .ofNat 8 d]
    else if a < 192 then some #v[.ofNat 8 a, .ofNat 8 b, 0, .ofNat 8 d]
    else none
  | [a, b, c, d] => some #v[.ofNat 8 a, .ofNat 8 b, .ofNat 8 c, .ofNat 8 d]
  | _ => none

/-- The number of components is one that is let pass for the first of them. -/
def CountPasses : List ℕ → Prop
  | [] => False
  | a :: vs => vs.length = 3 ∨ 192 ≤ a ∨ vs.length = 2 ∨ a < 128 ∧ vs.length = 1

theorem Loose.le (h : Loose c v) : v ≤ 255 := by
  cases h with
  | empty => omega
  | number hblanks hsign hlit hm hv hbyte => exact hbyte

theorem length_readFirst_le (n : ℕ) (cs : List (List Char)) : (readFirst n cs).length ≤ n := by
  induction n generalizing cs with
  | zero => simp [readFirst]
  | succ n ih =>
    cases cs with
    | nil => simp [readFirst]
    | cons c cs =>
      unfold readFirst
      split
      · simp
      · have := ih cs
        rw [List.length_cons]
        omega

/-- When no component is empty and there are at most `n`, all of them are looked at. -/
theorem readFirst_eq_self (hne : [] ∉ cs) (hlen : cs.length ≤ n) : readFirst n cs = cs := by
  induction n generalizing cs with
  | zero =>
    have hnil : cs = [] := List.eq_nil_of_length_eq_zero (by omega)
    rw [hnil, readFirst]
  | succ n ih =>
    cases cs with
    | nil => simp [readFirst]
    | cons c cs =>
      simp only [List.mem_cons, not_or] at hne
      rw [List.length_cons] at hlen
      rw [readFirst, if_neg (fun h => hne.1 h.1.symm), ih hne.2 (by omega)]

theorem components_ne_nil (name : List Char) : components name ≠ [] := List.splitOn_ne_nil _ _

theorem intercalate_components (name : List Char) :
    List.intercalate ['.'] (components name) = name := List.intercalate_splitOn '.'

theorem dot_notMem_of_mem_components {name : List Char} (h : c ∈ components name) : '.' ∉ c := by
  unfold components at h
  induction name generalizing c with
  | nil =>
    rw [List.splitOn_nil, List.mem_singleton] at h
    simp [h]
  | cons x name ih =>
    rw [List.splitOn_cons_eq_if_modifyHead] at h
    obtain ⟨d, ds, hds⟩ := List.exists_cons_of_ne_nil (List.splitOn_ne_nil '.' name)
    rw [hds] at h ih
    split_ifs at h with hx
    · rcases List.mem_cons.mp h with rfl | h
      · simp
      · exact ih h
    · rw [List.modifyHead_cons] at h
      rcases List.mem_cons.mp h with rfl | h
      · have hd := ih (List.mem_cons_self)
        have hne : '.' ≠ x := fun heq => hx (by rw [heq]; exact beq_self_eq_true x)
        simp [hd, hne]
      · exact ih (List.mem_cons_of_mem _ h)

/-- The empty name has one component, which is not looked at. -/
theorem readFirst_components_nil : readFirst 4 (components []) = [] := by
  unfold components
  rw [List.splitOn_nil, readFirst, if_pos ⟨rfl, rfl⟩]

theorem components_eq_singleton_nil {name : List Char}
    (h : components name = [[]]) : name = [] := by
  rw [← intercalate_components name, h]
  rfl

/-- Of every other name at least one component is looked at. -/
theorem readFirst_components_ne_nil {name : List Char} (h : name ≠ []) :
    readFirst 4 (components name) ≠ [] := by
  obtain ⟨c, cs, hcs⟩ := List.exists_cons_of_ne_nil (components_ne_nil name)
  rw [hcs, readFirst, if_neg]
  · simp
  · intro hand
    rw [hand.1, hand.2] at hcs
    exact h (components_eq_singleton_nil hcs)

end Libtask
