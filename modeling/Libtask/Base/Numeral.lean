import Mathlib.Data.List.TakeWhile
import Mathlib.Tactic.Ring
import Mathlib.Tactic.IntervalCases

/-! Numbers in the notation of C: their digits in a base, integer literals, and how the `strtol`
family reads them when the base is left to the text. -/
namespace Numeral

variable {b n : ℕ} {c : Char} {cs ds rest : List Char}

/-- The value of a digit; the letters count on from ten in either case. -/
def digitVal (c : Char) : Option ℕ :=
  if '0' ≤ c ∧ c ≤ '9' then some (c.toNat - 48)
  else if 'a' ≤ c ∧ c ≤ 'z' then some (c.toNat - 87)
  else if 'A' ≤ c ∧ c ≤ 'Z' then some (c.toNat - 55)
  else none

def IsDigit (b : ℕ) (c : Char) : Prop := ∃ d, digitVal c = some d ∧ d < b

instance : Decidable (IsDigit b c) :=
  match h : digitVal c with
  | none => isFalse (by simp [IsDigit, h])
  | some d => decidable_of_iff (d < b) (by simp [IsDigit, h])

/-- The number that digits stand for. -/
def value (b : ℕ) (cs : List Char) : ℕ := cs.foldl (fun n c => b * n + (digitVal c).getD 0) 0

/-- The digits of a number; zero has none. -/
def digitsOf (b n : ℕ) : List Char := if n = 0 then [] else Nat.toDigits b n

theorem digitVal_digitChar (h : n < 16) : digitVal n.digitChar = some n := by
  interval_cases n <;> decide

@[simp] theorem value_nil : value b [] = 0 := rfl

theorem value_append_singleton : value b (cs ++ [c]) = b * value b cs + (digitVal c).getD 0 := by
  simp [value]

@[simp] theorem digitsOf_zero : digitsOf b 0 = [] := rfl

theorem digitsOf_of_pos (h : 0 < n) : digitsOf b n = Nat.toDigits b n := by
  rw [digitsOf, if_neg (by omega)]

theorem digitsOf_ne_nil (h : 0 < n) : digitsOf b n ≠ [] := by
  rw [digitsOf_of_pos h]
  exact Nat.toDigits_ne_nil

/-- The last digit is the remainder, and those before it are the digits of the quotient. -/
theorem digitsOf_step (hb : 1 < b) (h : 0 < n) :
    digitsOf b n = digitsOf b (n / b) ++ [(n % b).digitChar] := by
  rw [digitsOf_of_pos h, Nat.toDigits_eq_if hb]
  split
  · rename_i hlt
    rw [Nat.div_eq_of_lt hlt, Nat.mod_eq_of_lt hlt]
    rfl
  · rename_i hle
    rw [digitsOf_of_pos (Nat.div_pos (by omega) (by omega))]

/-- What holds of no digits and is kept by one more digit at the end holds of all digits. -/
theorem digitsOf_induction (hb : 1 < b) {p : ℕ → List Char → Prop} (zero : p 0 [])
    (step : ∀ n, 0 < n → p (n / b) (digitsOf b (n / b)) →
      p n (digitsOf b (n / b) ++ [(n % b).digitChar])) (n : ℕ) : p n (digitsOf b n) := by
  induction n using Nat.strong_induction_on with
  | _ n ih =>
    rcases Nat.eq_zero_or_pos n with rfl | hn
    · exact zero
    · rw [digitsOf_step hb hn]
      exact step n hn (ih _ (Nat.div_lt_self hn hb))

theorem value_digitsOf (hb : 1 < b) (h16 : b ≤ 16) (n : ℕ) : value b (digitsOf b n) = n := by
  apply digitsOf_induction (p := fun n ds => value b ds = n) hb rfl
  intro n hn ih
  have hlt : n % b < 16 := Nat.lt_of_lt_of_le (Nat.mod_lt n (by omega)) h16
  rw [value_append_singleton, ih, digitVal_digitChar hlt]
  exact Nat.div_add_mod n b

theorem isDigit_of_mem_digitsOf (hb : 1 < b) (h16 : b ≤ 16) (n : ℕ) :
    ∀ c ∈ digitsOf b n, IsDigit b c := by
  apply digitsOf_induction (p := fun _ ds => ∀ c ∈ ds, IsDigit b c) hb (by simp)
  intro n hn ih c hc
  have hlt : n % b < b := Nat.mod_lt n (by omega)
  rcases List.mem_append.mp hc with hc | hc
  · exact ih c hc
  · rw [List.mem_singleton.mp hc]
    exact ⟨n % b, digitVal_digitChar (by omega), hlt⟩

/-- No digits are written before the first that counts. -/
theorem head_digitsOf (hb : 1 < b) (h16 : b ≤ 16) (n : ℕ) : (digitsOf b n).head? ≠ some '0' := by
  apply digitsOf_induction (p := fun n ds => ds.head? ≠ some '0') hb (by simp)
  intro n hn ih
  rcases Nat.eq_zero_or_pos (n / b) with h0 | hpos
  · rw [h0, digitsOf_zero, List.nil_append, List.head?_cons, ne_eq, Option.some.injEq,
      Nat.digitChar_eq_zero]
    have hlt : n < b := by
      rcases Nat.div_eq_zero_iff.mp h0 with h | h
      · omega
      · exact h
    rw [Nat.mod_eq_of_lt hlt]
    omega
  · obtain ⟨d, ds, hds⟩ := List.exists_cons_of_ne_nil (digitsOf_ne_nil (b := b) hpos)
    rw [hds] at ih ⊢
    exact ih

theorem length_digitsOf_le (hb : 1 < b) {k : ℕ} (h : n < b ^ k) : (digitsOf b n).length ≤ k := by
  rcases Nat.eq_zero_or_pos n with rfl | hn
  · simp
  · rw [digitsOf_of_pos hn]
    rcases Nat.eq_zero_or_pos k with rfl | hk
    · rw [pow_zero] at h
      omega
    · exact (Nat.length_toDigits_le_iff hb hk).mpr h

/-! Reading -/

/-- An integer literal of C without a suffix, by its base, with its value. -/
inductive Literal : ℕ → List Char → ℕ → Prop
  | decimal {ds : List Char} (hne : ds ≠ []) (h0 : ds.head? ≠ some '0')
  (hds : ∀ c ∈ ds, IsDigit 10 c) :
    Literal 10 ds (value 10 ds)
  | octal {ds : List Char} (hds : ∀ c ∈ ds, IsDigit 8 c) : Literal 8 ('0' :: ds) (value 8 ds)
  | hex {ds : List Char} (x : Char) (hx : x = 'x' ∨ x = 'X') (hne : ds ≠ [])
      (hds : ∀ c ∈ ds, IsDigit 16 c) :
    Literal 16 ('0' :: x :: ds) (value 16 ds)

/-- The blanks of the C locale. -/
def IsSpace (c : Char) : Prop := c = ' ' ∨ '\t' ≤ c ∧ c ≤ '\r'

instance : Decidable (IsSpace c) := by unfold IsSpace; infer_instance

/-- The base that a text starts in, and the text from its digits on; the `0` of an octal number is
a digit of it. -/
def splitBase : List Char → ℕ × List Char
  | '0' :: x :: c :: cs =>
    if (x = 'x' ∨ x = 'X') ∧ IsDigit 16 c then (16, c :: cs) else (8, '0' :: x :: c :: cs)
  | '0' :: cs => (8, '0' :: cs)
  | cs => (10, cs)

/-- A number in front of a text: its sign, its absolute value, and the text behind it. -/
structure Reading where
  neg : Bool
  abs : ℕ
  rest : List Char
  deriving DecidableEq

def splitSign : List Char → Bool × List Char
  | '-' :: cs => (true, cs)
  | '+' :: cs => (false, cs)
  | cs => (false, cs)

/-- The digits at the front of a text, in the base it starts in. -/
def readDigits (cs : List Char) : Option (ℕ × List Char) :=
  let (b, cs) := splitBase cs
  let ds := cs.takeWhile (IsDigit b ·)
  if ds = [] then none else some (value b ds, cs.dropWhile (IsDigit b ·))

/-- What the `strtol` family reads with base 0: blanks, a sign, a prefix and digits. -/
def read (cs : List Char) : Option Reading :=
  let (neg, cs) := splitSign (cs.dropWhile (IsSpace ·))
  (readDigits cs).map fun r => ⟨neg, r.1, r.2⟩

/-- What `strtoul` returns for a number, where its result has `w` bits. -/
def Reading.unsigned (w : ℕ) (r : Reading) : ℕ :=
  if r.abs ≥ 2 ^ w then 2 ^ w - 1
  else if r.neg then (2 ^ w - r.abs) % 2 ^ w
  else r.abs

/-- What `strtol` returns for a number, where its result has `w` bits. -/
def Reading.signed (w : ℕ) (r : Reading) : ℤ :=
  if r.neg then max (-(r.abs : ℤ)) (-2 ^ (w - 1)) else min (r.abs : ℤ) (2 ^ (w - 1) - 1)

/-- The text behind a number does not go on with a letter or a digit. -/
def Ends (rest : List Char) : Prop := ∀ c ∈ rest.head?, digitVal c = none

theorem ends_nil : Ends [] := by simp [Ends]

theorem ends_cons (h : digitVal c = none) : Ends (c :: cs) := by simpa [Ends] using h

theorem not_isDigit (h : digitVal c = none) : ¬ IsDigit b c := by simp [IsDigit, h]

theorem char_le_iff {x y : Char} : x ≤ y ↔ x.toNat ≤ y.toNat := by
  rw [Char.le_def, UInt32.le_iff_toNat_le]
  rfl

/-- The codes of the digits of a base up to sixteen. -/
theorem IsDigit.toNat (h : IsDigit b c) (hb : b ≤ 16) :
    48 ≤ c.toNat ∧ c.toNat ≤ 57 ∨ 65 ≤ c.toNat ∧ c.toNat ≤ 70 ∨ 97 ≤ c.toNat ∧ c.toNat ≤ 102 := by
  obtain ⟨d, hd, hlt⟩ := h
  simp only [digitVal, char_le_iff, Char.reduceToNat] at hd
  split_ifs at hd <;> simp only [Option.some.injEq] at hd <;> omega

theorem IsSpace.toNat (h : IsSpace c) : c.toNat = 32 ∨ 9 ≤ c.toNat ∧ c.toNat ≤ 13 := by
  rcases h with rfl | ⟨hlo, hhi⟩
  · left
    rfl
  · right
    exact ⟨char_le_iff.mp hlo, char_le_iff.mp hhi⟩

theorem takeWhile_digits (hds : ∀ c ∈ ds, IsDigit b c) (hr : Ends rest) :
    (ds ++ rest).takeWhile (IsDigit b ·) = ds := by
  rw [List.takeWhile_append_of_pos (by simpa using hds)]
  cases rest with
  | nil => simp
  | cons c cs =>
    have hc : ¬ IsDigit b c := not_isDigit (hr c rfl)
    rw [List.takeWhile_cons_of_neg (by simpa using hc), List.append_nil]

theorem dropWhile_digits (hds : ∀ c ∈ ds, IsDigit b c) (hr : Ends rest) :
    (ds ++ rest).dropWhile (IsDigit b ·) = rest := by
  have happ := List.takeWhile_append_dropWhile (p := (IsDigit b ·)) (l := ds ++ rest)
  rw [takeWhile_digits hds hr] at happ
  exact List.append_cancel_left happ

theorem splitBase_decimal (h : cs.head? ≠ some '0') : splitBase cs = (10, cs) := by
  unfold splitBase
  split
  · simp at h
  · simp at h
  · rfl

theorem splitBase_octal (h : ∀ x ∈ cs.head?, ¬ (x = 'x' ∨ x = 'X')) :
    splitBase ('0' :: cs) = (8, '0' :: cs) := by
  match cs with
  | [] => rfl
  | [x] => rfl
  | x :: c :: cs =>
    have hx := h x rfl
    exact if_neg fun hand => hx hand.1

theorem splitBase_hex {x : Char} (hx : x = 'x' ∨ x = 'X') (hc : IsDigit 16 c) :
    splitBase ('0' :: x :: c :: cs) = (16, c :: cs) := by
  exact if_pos ⟨hx, hc⟩

/-- A literal is read as its value, up to its end. -/
theorem readDigits_literal (h : Literal b cs n) (hr : Ends rest) :
    readDigits (cs ++ rest) = some (n, rest) := by
  cases h with
  | @decimal ds hne h0 hds =>
    have hsplit : splitBase (cs ++ rest) = (10, cs ++ rest) := by
      apply splitBase_decimal
      obtain ⟨d, ds, rfl⟩ := List.exists_cons_of_ne_nil hne
      exact h0
    unfold readDigits
    rw [hsplit]
    dsimp only
    rw [takeWhile_digits hds hr, dropWhile_digits hds hr, if_neg hne]
  | @octal ds hds =>
    have hsplit : splitBase ('0' :: ds ++ rest) = (8, '0' :: ds ++ rest) := by
      apply splitBase_octal
      intro x hx hxs
      cases ds with
      | nil =>
        have hnone := hr x (by simpa using hx)
        rcases hxs with rfl | rfl <;> revert hnone <;> decide
      | cons d ds =>
        have heq : d = x := by simpa using hx
        have hd := (hds d (by simp)).toNat (by omega)
        rcases hxs with rfl | rfl <;> subst heq <;> revert hd <;> decide
    have h8 : ∀ c ∈ '0' :: ds, IsDigit 8 c := by
      intro c hc
      rcases List.mem_cons.mp hc with rfl | hc
      · decide
      · exact hds c hc
    unfold readDigits
    rw [hsplit]
    dsimp only
    rw [takeWhile_digits h8 hr, dropWhile_digits h8 hr, if_neg (by simp)]
    rfl
  | @hex ds x hx hne hds =>
    obtain ⟨d, ds, rfl⟩ := List.exists_cons_of_ne_nil hne
    have hsplit : splitBase ('0' :: x :: d :: ds ++ rest) = (16, d :: ds ++ rest) := by
      rw [List.cons_append, List.cons_append, List.cons_append]
      rw [splitBase_hex hx (hds d (by simp))]
    unfold readDigits
    rw [hsplit]
    dsimp only
    rw [takeWhile_digits hds hr, dropWhile_digits hds hr, if_neg hne]

/-- A literal starts with a digit. -/
theorem Literal.head (h : Literal b cs n) : ∃ d ds, cs = d :: ds ∧ IsDigit 16 d := by
  cases h with
  | decimal hne h0 hds =>
    obtain ⟨d, ds, rfl⟩ := List.exists_cons_of_ne_nil hne
    obtain ⟨v, hv, hlt⟩ := hds d (by simp)
    exact ⟨d, ds, rfl, v, hv, by omega⟩
  | octal hds => exact ⟨'0', _, rfl, by decide⟩
  | hex x hx hne hds => exact ⟨'0', _, rfl, by decide⟩

theorem splitSign_of_isDigit (h : IsDigit 16 c) : splitSign (c :: cs) = (false, c :: cs) := by
  have hc := h.toNat le_rfl
  unfold splitSign
  split
  · rename_i heq
    simp only [List.cons.injEq] at heq
    obtain ⟨rfl, rfl⟩ := heq
    simp at hc
  · rename_i heq
    simp only [List.cons.injEq] at heq
    obtain ⟨rfl, rfl⟩ := heq
    simp at hc
  · rfl

/-- The sign of a number as text. -/
inductive Sign : List Char → Bool → Prop
  | none : Sign [] false
  | plus : Sign ['+'] false
  | minus : Sign ['-'] true

theorem splitSign_append {s : List Char} {neg : Bool} (hs : Sign s neg) (hc : IsDigit 16 c) :
    splitSign (s ++ c :: cs) = (neg, c :: cs) := by
  cases hs with
  | none => exact splitSign_of_isDigit hc
  | plus => rfl
  | minus => rfl

/-- A literal is read as what it says, with any blanks and a sign before it. -/
theorem read_spaced {blanks s lit : List Char} {neg : Bool} (hbl : ∀ c ∈ blanks, IsSpace c)
    (hs : Sign s neg) (h : Literal b lit n) (hr : Ends rest) :
    read (blanks ++ s ++ lit ++ rest) = some ⟨neg, n, rest⟩ := by
  obtain ⟨d, ds, rfl, hd⟩ := h.head
  have hdigits := readDigits_literal h hr
  have hdrop : (blanks ++ s ++ (d :: ds) ++ rest).dropWhile (IsSpace ·) =
      s ++ d :: (ds ++ rest) := by
    rw [List.append_assoc, List.append_assoc, List.dropWhile_append_of_pos (by simpa using hbl)]
    cases hs with
    | none =>
      have hspace : ¬ IsSpace d := by
        intro hsp
        have h1 := hd.toNat le_rfl
        have h2 := hsp.toNat
        omega
      exact List.dropWhile_cons_of_neg (by simpa using hspace)
    | plus =>
      have hspace : ¬ IsSpace '+' := by decide
      exact List.dropWhile_cons_of_neg (by simpa using hspace)
    | minus =>
      have hspace : ¬ IsSpace '-' := by decide
      exact List.dropWhile_cons_of_neg (by simpa using hspace)
  rw [List.cons_append] at hdigits
  unfold read
  rw [hdrop, splitSign_append hs hd]
  simp only [hdigits, Option.map_some]

/-- A literal with or without a minus sign is read as what it says. -/
theorem read_literal (h : Literal b cs n) (hr : Ends rest) (neg : Bool) :
    read ((if neg then ['-'] else []) ++ cs ++ rest) = some ⟨neg, n, rest⟩ := by
  have hs : Sign (if neg then ['-'] else []) neg := by
    cases neg with
    | true => exact .minus
    | false => exact .none
  have hblanks : ∀ c ∈ ([] : List Char), IsSpace c := by simp
  have hread := read_spaced hblanks hs h hr
  rw [List.nil_append] at hread
  exact hread

theorem splitBase_cases (cs : List Char) :
    (∃ x c tl, cs = '0' :: x :: c :: tl ∧ (x = 'x' ∨ x = 'X') ∧ IsDigit 16 c ∧
      splitBase cs = (16, c :: tl)) ∨
    (∃ tl, cs = '0' :: tl ∧ splitBase cs = (8, cs)) ∨
    cs.head? ≠ some '0' ∧ splitBase cs = (10, cs) := by
  unfold splitBase
  split
  · rename_i x c tl
    by_cases h : (x = 'x' ∨ x = 'X') ∧ IsDigit 16 c
    · exact .inl ⟨x, c, tl, rfl, h.1, h.2, if_pos h⟩
    · exact .inr (.inl ⟨x :: c :: tl, rfl, if_neg h⟩)
  · rename_i tl hne
    exact .inr (.inl ⟨tl, rfl, rfl⟩)
  · rename_i hne hne'
    right
    right
    refine ⟨?_, rfl⟩
    intro h
    cases cs with
    | nil => simp at h
    | cons d tl =>
      have hd : d = '0' := by simpa using h
      exact hne' tl (by rw [hd])

/-- What is read as digits is a literal. -/
theorem readDigits_eq_some {r : ℕ × List Char} (h : readDigits cs = some r) :
    ∃ b lit, cs = lit ++ r.2 ∧ Literal b lit r.1 := by
  have hall : ∀ b, ∀ cs : List Char, ∀ c ∈ cs.takeWhile (IsDigit b ·), IsDigit b c := by
    intro b cs c hc
    simpa using List.mem_takeWhile_imp hc
  unfold readDigits at h
  rcases splitBase_cases cs with ⟨x, c, tl, rfl, hx, hc, hsplit⟩ | ⟨tl, rfl, hsplit⟩ |
    ⟨h0, hsplit⟩
  · rw [hsplit] at h
    simp only [Option.ite_none_left_eq_some, Option.some.injEq] at h
    obtain ⟨hne, rfl⟩ := h
    refine ⟨16, '0' :: x :: (c :: tl).takeWhile (IsDigit 16 ·), ?_, .hex x hx hne (hall 16 _)⟩
    rw [List.cons_append, List.cons_append, List.takeWhile_append_dropWhile]
  · rw [hsplit] at h
    simp only [Option.ite_none_left_eq_some, Option.some.injEq] at h
    obtain ⟨hne, rfl⟩ := h
    have hzero : IsDigit 8 '0' := by decide
    have htake : ('0' :: tl).takeWhile (IsDigit 8 ·) = '0' :: tl.takeWhile (IsDigit 8 ·) :=
      List.takeWhile_cons_of_pos (by simpa using hzero)
    refine ⟨8, '0' :: tl.takeWhile (IsDigit 8 ·), ?_, ?_⟩
    · rw [← htake, List.takeWhile_append_dropWhile]
    · rw [htake]
      exact .octal (hall 8 tl)
  · rw [hsplit] at h
    simp only [Option.ite_none_left_eq_some, Option.some.injEq] at h
    obtain ⟨hne, rfl⟩ := h
    refine ⟨10, cs.takeWhile (IsDigit 10 ·), List.takeWhile_append_dropWhile.symm,
      .decimal hne ?_ (hall 10 cs)⟩
    intro hhead
    apply h0
    cases cs with
    | nil => exact absurd rfl hne
    | cons d tl =>
      by_cases hd : IsDigit 10 d
      · rw [List.takeWhile_cons_of_pos (by simpa using hd)] at hhead
        exact hhead
      · rw [List.takeWhile_cons_of_neg (by simpa using hd)] at hne
        exact absurd rfl hne

theorem sign_splitSign (cs : List Char) :
    ∃ s, cs = s ++ (splitSign cs).2 ∧ Sign s (splitSign cs).1 := by
  unfold splitSign
  split
  · exact ⟨['-'], rfl, .minus⟩
  · exact ⟨['+'], rfl, .plus⟩
  · exact ⟨[], rfl, .none⟩

/-- What is read is a literal with its sign, and blanks before them. -/
theorem read_eq_some {r : Reading} (h : read cs = some r) :
    ∃ blanks s b lit, cs = blanks ++ s ++ lit ++ r.rest ∧ (∀ c ∈ blanks, IsSpace c) ∧
      Sign s r.neg ∧ Literal b lit r.abs := by
  unfold read at h
  obtain ⟨s, hs, hsign⟩ := sign_splitSign (cs.dropWhile (IsSpace ·))
  cases hsplit : splitSign (cs.dropWhile (IsSpace ·)) with
  | mk neg tl =>
    rw [hsplit] at h hs hsign
    obtain ⟨d, hd, rfl⟩ := Option.map_eq_some_iff.mp h
    obtain ⟨b, lit, heq, hlit⟩ := readDigits_eq_some hd
    refine ⟨cs.takeWhile (IsSpace ·), s, b, lit, ?_, ?_, hsign, hlit⟩
    · rw [List.append_assoc, List.append_assoc, ← heq, ← hs, List.takeWhile_append_dropWhile]
    · intro c hc
      simpa using List.mem_takeWhile_imp hc

end Numeral
