import Libtask.Refine.Print

/-! The numbers that the verbs `d`, `o`, `x` and `p` print, in any place of a format: the text and
its padding, and that it can be read back. -/
namespace Libtask

variable {env : PrintEnv} {fs gs post done rest : List Char} {args : List Arg} {k : ℕ} {a : Arg}
  {c : Char} {v : Verb}

/-- A character between the percent sign and the verb. -/
def IsFlag (c : Char) : Prop := c = '-' ∨ '0' ≤ c ∧ c ≤ '9' ∨ c = 'l' ∨ c = 'u'

instance : Decidable (IsFlag c) := by unfold IsFlag; infer_instance

/-- The flags of a directive: `l` counts up to two. -/
def flagsOf (fs : List Char) : Flags := ⟨1 ≤ fs.count 'l', 2 ≤ fs.count 'l', 'u' ∈ fs⟩

/-- The width of a directive: its digits, wherever they stand in it. -/
def widthOf (fs : List Char) : ℕ := Numeral.value 10 (fs.filter fun c => '0' ≤ c ∧ c ≤ '9')

def specOf (fs : List Char) : Spec :=
  ⟨flagsOf fs, int32 (widthOf fs), if '-' ∈ fs then -1 else 1⟩

theorem widthOf_append (h : ¬ ('0' ≤ c ∧ c ≤ '9')) : widthOf (gs ++ [c]) = widthOf gs := by
  unfold widthOf
  rw [List.filter_append, List.filter_cons_of_neg (by simpa using h), List.filter_nil,
    List.append_nil]

theorem widthOf_append_digit (h : '0' ≤ c ∧ c ≤ '9') :
    widthOf (gs ++ [c]) = 10 * widthOf gs + (c.toNat - '0'.toNat) := by
  have hval : Numeral.digitVal c = some (c.toNat - '0'.toNat) := if_pos h
  unfold widthOf
  rw [List.filter_append, List.filter_cons_of_pos (by simpa using h), List.filter_nil,
    Numeral.value_append_singleton, hval]
  rfl

theorem int32_step (w d : ℕ) : int32 (int32 w * 10 + d) = int32 ((10 * w + d : ℕ) : ℤ) := by
  unfold int32
  omega

theorem directive_flag (h : IsFlag c) (p : List Char) (st : Printer) :
    directive env (c :: p) (specOf gs) st = directive env p (specOf (gs ++ [c])) st := by
  have hm : ¬ ('0' ≤ '-' ∧ '-' ≤ '9') := by decide
  have hl : ¬ ('0' ≤ 'l' ∧ 'l' ≤ '9') := by decide
  have hu : ¬ ('0' ≤ 'u' ∧ 'u' ≤ '9') := by decide
  rcases h with rfl | hd | rfl | rfl
  · have hspec : specOf (gs ++ ['-']) = { specOf gs with sign := -1 } := by
      unfold specOf flagsOf
      rw [widthOf_append hm]
      simp [List.count_append]
    rw [directive.eq_def, hspec]
    rfl
  · have hlabel : label c = .digit (c.toNat - '0'.toNat) := by
      have hne : c ≠ '-' := by
        rintro rfl
        exact hm hd
      unfold label
      rw [if_neg hne, if_pos hd]
    have hne : c ≠ '-' ∧ c ≠ 'l' ∧ c ≠ 'u' := by
      refine ⟨?_, ?_, ?_⟩ <;> rintro rfl
      · exact hm hd
      · exact hl hd
      · exact hu hd
    have hspec : specOf (gs ++ [c]) =
        { specOf gs with size := int32 ((specOf gs).size * 10 + (c.toNat - '0'.toNat : ℕ)) } := by
      unfold specOf flagsOf
      rw [widthOf_append_digit hd, int32_step]
      simp [List.count_append, hne.1.symm, hne.2.1, hne.2.2.symm]
    rw [directive.eq_def, hspec]
    simp only [hlabel]
  · have hlabel : label 'l' = .long := rfl
    rw [directive.eq_def]
    simp only [hlabel]
    by_cases hone : 1 ≤ gs.count 'l'
    · have hspec : specOf (gs ++ ['l']) = { specOf gs with fl.longLong := true } := by
        unfold specOf flagsOf
        rw [widthOf_append hl]
        simp [List.count_append, hone]
      rw [if_pos (by simpa [specOf, flagsOf] using hone), hspec]
    · have hspec : specOf (gs ++ ['l']) = { specOf gs with fl.long := true } := by
        have htwo : ¬ 2 ≤ gs.count 'l' := by omega
        unfold specOf flagsOf
        rw [widthOf_append hl]
        simp [List.count_append, hone, htwo]
      rw [if_neg (by simpa [specOf, flagsOf] using hone), hspec]
  · have hspec : specOf (gs ++ ['u']) = { specOf gs with fl.unsigned := true } := by
      unfold specOf flagsOf
      rw [widthOf_append hu]
      simp [List.count_append]
    rw [directive.eq_def, hspec]
    rfl

theorem specOf_nil : specOf [] = {} := by
  have hzero : int32 0 = 0 := int32_eq (by omega) (by omega)
  simp [specOf, flagsOf, widthOf, hzero]

theorem directive_eq (hfs : ∀ c ∈ fs, IsFlag c) (hc : label c = .verb v) (st : Printer) :
    directive env (fs ++ c :: post) {} st = (do
      let st ← st.verb env (specOf fs) v
      return (c :: post, st)) := by
  have hgen : ∀ gs, directive env (fs ++ c :: post) (specOf gs) st = (do
      let st ← st.verb env (specOf (gs ++ fs)) v
      return (c :: post, st)) := by
    induction fs with
    | nil =>
      intro gs
      rw [List.nil_append, List.append_nil, directive.eq_def]
      simp only [hc]
    | cons x fs ih =>
      intro gs
      have happ : gs ++ [x] ++ fs = gs ++ x :: fs := by simp
      rw [List.cons_append, directive_flag (hfs x (by simp)), ih (fun y hy => hfs y (by simp [hy])),
        happ]
  have h := hgen []
  rw [specOf_nil, List.nil_append] at h
  exact h

/-- The field of a text in a directive, as the flags describe it. -/
theorem field_specOf (hw : widthOf fs < PTRDIFF_MAX) (t : List Char) :
    (specOf fs).field t = ⟨t, widthOf fs, decide ('-' ∈ fs ∧ 0 < widthOf fs)⟩ := by
  unfold PTRDIFF_MAX at hw
  have hsize : int32 (widthOf fs) = widthOf fs := int32_eq (by omega) (by omega)
  unfold Spec.field cField specOf
  simp only [hsize]
  by_cases hleft : '-' ∈ fs
  · rw [if_pos hleft, int32_eq (by omega) (by omega)]
    rcases Nat.eq_zero_or_pos (widthOf fs) with h0 | hpos
    · simp [h0]
    · rw [if_pos (by omega), int32_eq (by omega) (by omega)]
      simp [hleft, hpos]
  · rw [if_neg hleft, int32_eq (by omega) (by omega), if_neg (by omega)]
    simp [hleft]

theorem full_field_specOf (hw : widthOf fs < PTRDIFF_MAX) (t : List Char) :
    ((specOf fs).field t).full ' ' = Layout.Field.full ' ' ⟨t, widthOf fs, decide ('-' ∈ fs)⟩ := by
  rw [field_specOf hw]
  rcases Nat.eq_zero_or_pos (widthOf fs) with h0 | hpos
  · simp [Layout.Field.full, Layout.Field.blanks, h0]
  · simp [Layout.Field.full, Layout.Field.blanks, hpos]

theorem label_d : label 'd' = .verb .d := rfl

/-- What a directive with an argument writes, in any place. -/
theorem directive_arg (env : PrintEnv) (post done : List Char) (args : List Arg) (k : ℕ)
    (hfs : ∀ c ∈ fs, IsFlag c) (hc : label c = .verb v)
    (ha : v.Takes (flagsOf fs) a) (hv : v.IsNum) (hr : rest ≠ []) :
    directive env (fs ++ c :: post) {} (.at done rest (a :: args) k) =
      let f := ((specOf fs).field (numText v.base (argValue (flagsOf fs) a) (env.neg k))).fit ' '
        (rest.length - 1)
      .ok (c :: post, .at (done ++ f) (rest.drop f.length) args (k + 1)) := by
  have hverb : (Printer.at done rest (a :: args) k).verb env (specOf fs) v = _ :=
    verb_eq env (specOf fs) ha args k hr
  rw [argText_of_isNum hv, if_pos hv] at hverb
  rw [directive_eq hfs hc, hverb]
  rfl

theorem at_inj {s t : List Char} (h : Printer.at (done ++ s) (rest.drop s.length) args k =
    .at (done ++ t) (rest.drop t.length) args k) : s = t := by
  unfold Printer.at at h
  simp only [Printer.mk.injEq, List.length_append] at h
  obtain ⟨hbuf, hlen, -⟩ := h
  have hst : s.length = t.length := by omega
  rw [hst] at hbuf
  exact List.append_cancel_left (List.append_cancel_right hbuf)

/-- The decimal numeral of a number. -/
def decimal (v : ℤ) : List Char := (if v < 0 then ['-'] else []) ++ Nat.toDigits 10 v.natAbs

theorem decimal_eq_toString (v : ℤ) : decimal v = (toString v).toList := by
  cases v with
  | ofNat n =>
    have hneg : ¬ (Int.ofNat n < 0) := by simp
    unfold decimal
    rw [if_neg hneg]
    exact Nat.toList_repr.symm
  | negSucc n =>
    have hneg : Int.negSucc n < 0 := Int.negSucc_lt_zero n
    have hstr : toString (Int.negSucc n) = "-" ++ (n + 1).repr := rfl
    unfold decimal
    rw [if_pos hneg, hstr, String.toList_append, Nat.toList_repr]
    rfl

/-- Without a stray sign the decimal text is the numeral. -/
theorem numText_ten (v neg : ℤ) : numText 10 v neg =
    (if v < 0 ∨ neg ≠ 0 then ['-'] else []) ++ Nat.toDigits 10 v.natAbs := by
  unfold numText numPrefix
  rcases Nat.eq_zero_or_pos v.natAbs with h0 | hpos
  · rw [h0]
    simp
  · have hv : v ≠ 0 := by omega
    rw [Numeral.digitsOf_of_pos hpos]
    simp [hv]

/-- A numeral has a minus sign just when it is of a negative number. -/
theorem minus_mem_decimal (v : ℤ) : '-' ∈ decimal v ↔ v < 0 := by
  have hdigits : '-' ∉ Nat.toDigits 10 v.natAbs := by
    intro h
    have := Nat.isDigit_of_mem_toDigits (by decide) (by decide) h
    revert this
    decide
  unfold decimal
  split_ifs with h <;> simp [h, hdigits]

/-- A text that starts with a minus sign shows it in every room. -/
theorem minus_mem_fit {f : Layout.Field Char} {t : List Char} (hf : f.text = '-' :: t) {r : ℕ}
    (hr : 0 < r) : '-' ∈ f.fit ' ' r := by
  obtain ⟨r, rfl⟩ := Nat.exists_eq_succ_of_ne_zero (Nat.ne_of_gt hr)
  unfold Layout.Field.fit Layout.Field.full
  rw [hf, List.take_succ_cons]
  split <;> simp

theorem minus_mem_full {t : List Char} {w : ℕ} {left : Bool} :
    '-' ∈ Layout.Field.full ' ' ⟨t, w, left⟩ ↔ '-' ∈ t := by
  have hblank : '-' ∉ List.replicate (w - t.length) ' ' := by
    intro h
    exact absurd (List.mem_replicate.mp h).2 (by decide)
  unfold Layout.Field.full Layout.Field.blanks
  simp only
  split_ifs <;> simp only [List.mem_append, hblank, or_false, false_or]

/-- The verb `d` writes the numeral of its argument, padded to the width, just when the number is
negative or the local `neg` happens to hold zero: nothing sets it for other numbers. -/
theorem decimal_iff (env : PrintEnv) {fs : List Char} (hfs : ∀ c ∈ fs, IsFlag c)
    (post : List Char) {a : Arg} (ha : Verb.d.Takes (flagsOf fs) a) (args : List Arg) (k : ℕ)
    (done rest : List Char) (hbuf : (done ++ rest).length ≤ PTRDIFF_MAX)
    (hroom : max (widthOf fs) (decimal (argValue (flagsOf fs) a)).length < rest.length) :
    let v := argValue (flagsOf fs) a
    let field := Layout.Field.full ' ' ⟨decimal v, widthOf fs, decide ('-' ∈ fs)⟩
    directive env (fs ++ 'd' :: post) {} (.at done rest (a :: args) k) =
        .ok ('d' :: post, .at (done ++ field) (rest.drop field.length) args (k + 1)) ↔
      v < 0 ∨ env.neg k = 0 := by
  intro v field
  change max (widthOf fs) (decimal v).length < rest.length at hroom
  have hdec : 0 < (decimal v).length := by
    unfold decimal
    rw [List.length_append]
    have := Nat.length_toDigits_pos (b := 10) (n := v.natAbs)
    omega
  have hne : rest ≠ [] := by
    rw [← List.length_pos_iff]
    omega
  have hw : widthOf fs < PTRDIFF_MAX := by
    rw [List.length_append] at hbuf
    omega
  have hrun := directive_arg env post done args k hfs label_d ha (by decide) hne
  have hbase : Verb.d.base = 10 := rfl
  rw [hbase] at hrun
  rw [hrun]
  dsimp only
  set f := (specOf fs).field (numText 10 v (env.neg k)) with hf
  constructor
  case mp =>
    intro h
    by_contra hcon
    simp only [not_or, not_lt] at hcon
    have heq : f.fit ' ' (rest.length - 1) = field := by
      apply at_inj
      exact congrArg Prod.snd (Except.ok.inj h)
    have htext : f.text = '-' :: Nat.toDigits 10 v.natAbs := by
      have hsign := numText_ten v (env.neg k)
      rw [if_pos (.inr hcon.2)] at hsign
      exact hsign
    have hmem : '-' ∈ field := by
      rw [← heq]
      exact minus_mem_fit htext (by omega)
    have hneg := (minus_mem_decimal v).mp (minus_mem_full.mp hmem)
    omega
  case mpr =>
    intro hok
    have htext : numText 10 v (env.neg k) = decimal v := by
      rw [numText_ten]
      unfold decimal
      congr 1
      rcases hok with h | h
      · rw [if_pos (.inl h), if_pos h]
      · simp [h]
    have hfull : f.full ' ' = field := by
      rw [hf, htext]
      exact full_field_specOf hw _
    have hsize : f.size ≤ rest.length - 1 := by
      have hlen := congrArg List.length hfull
      simp only [Layout.Field.length_full, field] at hlen
      rw [hlen]
      change max (widthOf fs) (decimal v).length ≤ rest.length - 1
      omega
    rw [Layout.Field.fit_of_le ' ' hsize, hfull]

/-- The largest `vlong` and the smallest fit, each with its sign. -/
theorem decimal_iff_smallest :
    let env : PrintEnv := ⟨⟨[], by decide, by decide⟩, fun _ => 0⟩
    let fs := "-24ll".toList
    let a := Arg.dword (BitVec.intMin 64)
    let v := argValue (flagsOf fs) a
    let field := Layout.Field.full ' ' ⟨decimal v, widthOf fs, decide ('-' ∈ fs)⟩
    let rest := List.replicate 30 'z'
    directive env (fs ++ 'd' :: []) {} (.at ['n', '='] rest [a] 0) =
        .ok ('d' :: [], .at (['n', '='] ++ field) (rest.drop field.length) [] (0 + 1)) ↔
      v < 0 ∨ env.neg 0 = 0 :=
  decimal_iff _ (by simp [IsFlag]) [] (by decide) [] 0 _ _ (by decide) (by decide)

/-- What an earlier number left in the place of `neg` puts a sign before a later one. -/
theorem decimal_stray_sign :
    let env : PrintEnv := ⟨⟨[], by decide, by decide⟩, fun _ => 1⟩
    let fmt : CString := ⟨"%d %d".toList, by decide, by decide⟩
    (vsnprint env 8 (.replicate 8 'z') fmt [.word (-5), .word 5]).map cstr = .ok "-5 -5".toList ∧
      decimal (-5) ++ ' ' :: decimal 5 = "-5 5".toList := by
  decide

/-! Octal, hexadecimal and pointers -/

/-- An argument as an address: its bits without a sign. -/
def address : Arg → ℤ
  | .word v => v.toNat
  | .dword v => v.toNat
  | .string _ => 0

/-- The number that a verb is to print. -/
def numberOf (v : Verb) (fl : Flags) (a : Arg) : ℤ := if v = .p then address a else argValue fl a

/-- A text is a literal of the number, in the base of the verb; the C library reads it as the number
to its end, and no other argument has this text. -/
structure ReadsBack (v : Verb) (fl : Flags) (a : Arg) (t : List Char) : Prop where
  literal : ∃ lit, Numeral.Literal v.base lit (numberOf v fl a).natAbs ∧
    t = (if numberOf v fl a < 0 then ['-'] else []) ++ lit
  read : ∃ r, Numeral.read t = some r ∧ r.rest = [] ∧
    (if fl.unsigned ∨ v = .p then (r.unsigned 64 : ℤ) else r.signed 64) = numberOf v fl a
  injective : ∀ a' neg, v.Takes fl a' → (0 ≤ argValue fl a' → neg = 0) →
    v.argText fl neg a' = t → a' = a

theorem numText_of_clear {base : ℕ} {v neg : ℤ} (h : 0 ≤ v → neg = 0) :
    numText base v neg = (if v < 0 then ['-'] else []) ++
      (numPrefix base v.natAbs ++ Numeral.digitsOf base v.natAbs) := by
  unfold numText
  rw [List.append_assoc]
  congr 1
  by_cases hv : v < 0
  · simp [hv]
  · simp [hv, h (by omega)]

theorem literal_numPrefix {base m : ℕ} (hb : base = 8 ∨ base = 16 ∧ m ≠ 0) :
    Numeral.Literal base (numPrefix base m ++ Numeral.digitsOf base m) m := by
  rcases hb with rfl | ⟨rfl, hm⟩
  · have hlit := Numeral.Literal.octal
      (Numeral.isDigit_of_mem_digitsOf (b := 8) (by omega) (by omega) m)
    rw [Numeral.value_digitsOf (by omega) (by omega)] at hlit
    simpa [numPrefix] using hlit
  · have hlit := Numeral.Literal.hex 'x' (.inl rfl)
      (Numeral.digitsOf_ne_nil (b := 16) (Nat.pos_of_ne_zero hm))
      (Numeral.isDigit_of_mem_digitsOf (b := 16) (by omega) (by omega) m)
    rw [Numeral.value_digitsOf (by omega) (by omega)] at hlit
    simpa [numPrefix, hm] using hlit

/-- The sign and the value of a text are read right even where it is no literal. -/
theorem read_numText {base : ℕ} {v neg : ℤ} (hb : base = 8 ∨ base = 16)
    (h : 0 ≤ v → neg = 0) : ∃ rest, Numeral.read (numText base v neg) =
      some ⟨decide (v < 0), v.natAbs, rest⟩ ∧ (base = 8 ∨ v ≠ 0 → rest = []) := by
  rw [numText_of_clear h]
  by_cases hz : base = 16 ∧ v = 0
  · obtain ⟨rfl, rfl⟩ := hz
    exact ⟨['x'], by decide, by simp⟩
  · have hlit : Numeral.Literal base _ v.natAbs := literal_numPrefix (by omega)
    have hread := Numeral.read_literal hlit Numeral.ends_nil (decide (v < 0))
    simp only [decide_eq_true_eq, List.append_nil] at hread
    exact ⟨[], hread, fun _ => rfl⟩

theorem argValue_inj {fl : Flags} {a a' : Arg} (hv : v.IsNum) (ha : v.Takes fl a)
    (ha' : v.Takes fl a') (h : argValue fl a' = argValue fl a) : a' = a := by
  have hs : v ≠ .s := by
    rintro rfl
    exact absurd hv (by decide)
  have hc : v ≠ .c := by
    rintro rfl
    exact absurd hv (by decide)
  cases a with
  | word i =>
    cases a' with
    | word j =>
      congr 1
      unfold argValue at h
      simp only at h
      split_ifs at h
      · exact BitVec.eq_of_toNat_eq (by omega)
      · exact BitVec.eq_of_toInt_eq h
    | dword j => simp_all [Verb.Takes]
    | string j => exact absurd ha' hs
  | dword i =>
    cases a' with
    | word j => simp_all [Verb.Takes]
    | dword j =>
      congr 1
      unfold argValue at h
      simp only at h
      split_ifs at h
      · exact BitVec.eq_of_toNat_eq (by omega)
      · exact BitVec.eq_of_toInt_eq h
    | string j => exact absurd ha' hs
  | string i => exact absurd ha hs

theorem argValue_nonneg {fl : Flags} (h : fl.unsigned = true) (a : Arg) : 0 ≤ argValue fl a := by
  cases a <;> simp [argValue, h]

theorem argValue_signed {fl : Flags} (h : fl.unsigned = false) (a : Arg) :
    -2 ^ 63 ≤ argValue fl a ∧ argValue fl a < 2 ^ 63 := by
  cases a with
  | word i =>
    have hlo := BitVec.le_toInt i
    have hhi := BitVec.toInt_lt (x := i)
    simp only [argValue, h, Bool.false_eq_true, if_false]
    omega
  | dword i =>
    have hlo := BitVec.le_toInt i
    have hhi := BitVec.toInt_lt (x := i)
    simp only [argValue, h, Bool.false_eq_true, if_false]
    omega
  | string i => simp [argValue]

/-- An argument whose top bit is clear, or that is read without a sign, is its address. -/
theorem argValue_eq_address {fl : Flags} {a : Arg} (h : fl.unsigned = true ∨ 0 ≤ argValue fl a) :
    argValue fl a = address a := by
  cases a with
  | word i =>
    have hcond := BitVec.toInt_eq_toNat_cond i
    unfold argValue address at *
    cases hu : fl.unsigned with
    | true => simp
    | false =>
      simp only [hu, Bool.false_eq_true, if_false, false_or] at h ⊢
      split_ifs at hcond <;> omega
  | dword i =>
    have hcond := BitVec.toInt_eq_toNat_cond i
    unfold argValue address at *
    cases hu : fl.unsigned with
    | true => simp
    | false =>
      simp only [hu, Bool.false_eq_true, if_false, false_or] at h ⊢
      split_ifs at hcond <;> omega
  | string i => rfl

theorem address_nonneg (a : Arg) : 0 ≤ address a := by
  cases a <;> simp [address]

theorem argValue_of_address_zero (fl : Flags) (h : address a = 0) : argValue fl a = 0 := by
  cases a with
  | word i =>
    have hi : i = 0#32 := BitVec.eq_of_toNat_eq (by simpa [address] using h)
    subst hi
    simp [argValue]
  | dword i =>
    have hi : i = 0#64 := BitVec.eq_of_toNat_eq (by simpa [address] using h)
    subst hi
    simp [argValue]
  | string i => rfl

/-- What the library reads from a text with this sign and value. -/
theorem read_value {fl : Flags} {w : Verb} {x : ℤ} (h64 : x.natAbs < 2 ^ 64)
    (hu : fl.unsigned = true ∨ w = .p → 0 ≤ x)
    (hs : ¬ (fl.unsigned = true ∨ w = .p) → -2 ^ 63 ≤ x ∧ x < 2 ^ 63) (rest : List Char) :
    (if fl.unsigned ∨ w = .p then
      ((Numeral.Reading.unsigned 64 ⟨decide (x < 0), x.natAbs, rest⟩ : ℕ) : ℤ)
    else Numeral.Reading.signed 64 ⟨decide (x < 0), x.natAbs, rest⟩) = x := by
  unfold Numeral.Reading.unsigned Numeral.Reading.signed
  simp only [decide_eq_true_eq]
  by_cases h : fl.unsigned = true ∨ w = .p
  · have hx := hu h
    rw [if_pos h, if_neg (by omega), if_neg (by omega)]
    omega
  · have hx := hs h
    rw [if_neg h]
    split_ifs <;> omega

/-- Octal numbers, and hexadecimal numbers and addresses other than zero whose sign is not taken
for one, are printed as literals. -/
theorem readsBack_numText {fl : Flags} {neg : ℤ} (hv : v = .o ∨ v = .x ∨ v = .p)
    (ha : v.Takes fl a) (hclear : 0 ≤ argValue fl a → neg = 0)
    (h : v = .o ∨ address a ≠ 0 ∧ (v = .p → fl.unsigned = true ∨ 0 ≤ argValue fl a)) :
    ReadsBack v fl a (v.argText fl neg a) := by
  have hnum : v.IsNum := by
    rcases hv with rfl | rfl | rfl <;> decide
  have hbase : v.base = 8 ∨ v.base = 16 := by
    rcases hv with rfl | rfl | rfl <;> simp [Verb.base]
  have hzero : v = .o ∨ argValue fl a ≠ 0 := by
    rcases h with h | ⟨h, -⟩
    · exact .inl h
    · right
      intro h0
      exact h (by rw [← argValue_eq_address (.inr (le_of_eq h0.symm)), h0])
  have hval : numberOf v fl a = argValue fl a := by
    unfold numberOf
    split_ifs with hp
    · subst hp
      rcases h with h | ⟨-, h⟩
      · cases h
      · exact (argValue_eq_address (h rfl)).symm
    · rfl
  have hbz : v.base = 8 ∨ argValue fl a ≠ 0 := by
    rcases hzero with rfl | h
    · exact .inl rfl
    · exact .inr h
  obtain ⟨rest, hread, hrest⟩ := read_numText (v := argValue fl a) hbase hclear
  rw [argText_of_isNum hnum]
  constructor
  case literal =>
    rw [hval, numText_of_clear hclear]
    exact ⟨_, literal_numPrefix (by omega), rfl⟩
  case read =>
    refine ⟨_, hread, hrest hbz, ?_⟩
    rw [hval]
    apply read_value (natAbs_argValue_lt fl a)
    · intro hu
      rcases hu with hu | rfl
      · exact argValue_nonneg hu a
      · rcases h with h | ⟨-, h⟩
        · cases h
        · rw [argValue_eq_address (h rfl)]
          exact address_nonneg a
    · intro hu
      simp only [not_or, Bool.not_eq_true] at hu
      exact argValue_signed hu.1 a
  case injective =>
    intro a' neg' ha' hclear' heq
    rw [argText_of_isNum hnum] at heq
    obtain ⟨rest', hread', -⟩ := read_numText (v := argValue fl a') hbase hclear'
    rw [heq, hread, Option.some.injEq, Numeral.Reading.mk.injEq] at hread'
    obtain ⟨hsign, habs, -⟩ := hread'
    apply argValue_inj hnum ha ha'
    have hiff : argValue fl a < 0 ↔ argValue fl a' < 0 := by simpa using hsign
    omega

theorem not_literal_zero (n : ℕ) : ¬ Numeral.Literal 16 ['0', '0', 'x'] n := by
  intro h
  cases h with
  | hex x hx hne hds => exact absurd hx (by decide)

theorem not_literal_minus (cs : List Char) (n : ℕ) : ¬ Numeral.Literal 16 ('-' :: cs) n := by
  intro h
  obtain ⟨d, ds, heq, hd⟩ := h.head
  rw [List.cons.injEq] at heq
  rw [← heq.1] at hd
  exact absurd hd (by decide)

/-- Zero in base sixteen, and an address printed with a sign, are no literals. -/
theorem not_readsBack_numText {fl : Flags} {neg : ℤ} (hv : v = .o ∨ v = .x ∨ v = .p)
    (hclear : 0 ≤ argValue fl a → neg = 0)
    (h : ReadsBack v fl a (v.argText fl neg a)) :
    v = .o ∨ address a ≠ 0 ∧ (v = .p → fl.unsigned = true ∨ 0 ≤ argValue fl a) := by
  have hp := address_nonneg a
  rcases hv with rfl | hv
  · exact .inl rfl
  right
  have hbase : v.base = 16 := by
    rcases hv with rfl | rfl <;> rfl
  have hnum : v.IsNum := by
    rcases hv with rfl | rfl <;> decide
  obtain ⟨lit, hlit, heq⟩ := h.literal
  rw [argText_of_isNum hnum, numText_of_clear hclear, hbase] at heq
  rw [hbase] at hlit
  constructor
  · intro hzero
    have hval := argValue_of_address_zero fl hzero
    have hn : numberOf v fl a = 0 := by
      unfold numberOf
      rw [hval, hzero, ite_self]
    rw [hval, hn] at heq
    have hlit' : lit = ['0', '0', 'x'] := by simpa [numPrefix] using heq.symm
    rw [hlit'] at hlit
    exact not_literal_zero _ hlit
  · rintro rfl
    by_contra hcon
    simp only [not_or, not_le] at hcon
    rw [if_pos hcon.2, numberOf, if_pos rfl, if_neg (by omega)] at heq
    rw [List.nil_append] at heq
    rw [← heq] at hlit
    exact not_literal_minus _ _ hlit

/-- The verbs `o`, `x` and `p` print a literal of their argument that can be read back, just when
the verb is `o`, or the argument is not zero and, for `p`, is not read as a negative `int`. -/
theorem readsBack_iff (env : PrintEnv) {fs : List Char} (hfs : ∀ c ∈ fs, IsFlag c)
    (hw : widthOf fs = 0) {c : Char} {v : Verb} (hc : label c = .verb v)
    (hv : v = .o ∨ v = .x ∨ v = .p) (post : List Char) {a : Arg} (ha : v.Takes (flagsOf fs) a)
    (args : List Arg) (k : ℕ) (hclear : 0 ≤ argValue (flagsOf fs) a → env.neg k = 0)
    (done rest : List Char)
    (hroom : (v.argText (flagsOf fs) (env.neg k) a).length < rest.length) :
    (∃ t, directive env (fs ++ c :: post) {} (.at done rest (a :: args) k) =
        .ok (c :: post, .at (done ++ t) (rest.drop t.length) args (k + 1)) ∧
      ReadsBack v (flagsOf fs) a t) ↔
    v = .o ∨ address a ≠ 0 ∧ (v = .p → (flagsOf fs).unsigned = true ∨
      0 ≤ argValue (flagsOf fs) a) := by
  have hne : rest ≠ [] := by
    rw [← List.length_pos_iff]
    omega
  have hnum : v.IsNum := by
    rcases hv with rfl | rfl | rfl <;> decide
  have hrun := directive_arg env post done args k hfs hc ha hnum hne
  have hfit : ((specOf fs).field (v.argText (flagsOf fs) (env.neg k) a)).fit ' '
      (rest.length - 1) = v.argText (flagsOf fs) (env.neg k) a := by
    rw [field_specOf (by rw [hw]; decide), hw]
    rw [Layout.Field.fit_of_le]
    · simp [Layout.Field.full, Layout.Field.blanks]
    · change max 0 (v.argText (flagsOf fs) (env.neg k) a).length ≤ rest.length - 1
      omega
  rw [← argText_of_isNum hnum, hfit] at hrun
  rw [hrun]
  dsimp only
  constructor
  · intro h
    obtain ⟨t, heq, hback⟩ := h
    have ht := at_inj (congrArg Prod.snd (Except.ok.inj heq))
    rw [← ht] at hback
    exact not_readsBack_numText hv hclear hback
  · intro h
    exact ⟨_, rfl, readsBack_numText hv ha hclear h⟩

theorem readsBack_iff_pointer :
    let env : PrintEnv := ⟨⟨[], by decide, by decide⟩, fun _ => 0⟩
    let a := Arg.word 0xbffff000
    let rest := List.replicate 16 'z'
    (∃ t, directive env ("u".toList ++ 'p' :: []) {} (.at [] rest [a] 0) =
        .ok ('p' :: [], .at ([] ++ t) (rest.drop t.length) [] (0 + 1)) ∧
      ReadsBack .p (flagsOf "u".toList) a t) ↔
    Verb.p = .o ∨ address a ≠ 0 ∧ (Verb.p = .p → (flagsOf "u".toList).unsigned = true ∨
      0 ≤ argValue (flagsOf "u".toList) a) :=
  readsBack_iff _ (by simp [IsFlag]) (by decide) rfl (by decide) []
    (by decide) [] 0 (by decide) [] _
    (by decide)

/-- A null pointer is printed with its digit before the prefix, and a high address with a sign. -/
theorem pointer_not_literal :
    let env : PrintEnv := ⟨⟨[], by decide, by decide⟩, fun _ => 0⟩
    let fmt : CString := ⟨"%p %p".toList, by decide, by decide⟩
    (vsnprint env 20 (.replicate 20 'z') fmt [.word 0, .word 0xbffff000]).map cstr =
        .ok "00x -0x40001000".toList ∧
      (∀ n, ¬ Numeral.Literal 16 "00x".toList n) ∧
      ∀ n, ¬ Numeral.Literal 16 "-0x40001000".toList n := by
  exact ⟨by decide, not_literal_zero, not_literal_minus _⟩

end Libtask
