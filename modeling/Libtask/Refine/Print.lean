import Libtask.Abstract.Format
import Mathlib.Tactic.IntervalCases

/-! The code of print.c on the parts of a format: where it stands it writes the field that the
abstract layer gives, cut to the room that is left. -/
namespace Libtask

variable {buf done rest s t : List Char} {k : ℕ} {c : Char}

/-- The bytes `rest` after `t` is written onto their start. -/
def overlay (rest t : List Char) : List Char := t ++ rest.drop t.length

theorem overlay_append : overlay rest (s ++ t) = s ++ overlay (rest.drop s.length) t := by
  simp [overlay, List.drop_drop]

@[simp] theorem overlay_nil : overlay rest [] = rest := rfl

theorem length_overlay (h : t.length ≤ rest.length) : (overlay rest t).length = rest.length := by
  unfold overlay
  rw [List.length_append, List.length_drop]
  omega

theorem store_append (h : t.length ≤ rest.length) :
    store (done ++ rest) done.length t = .ok (done ++ overlay rest t) := by
  have hin : (0 : ℤ) ≤ done.length ∧ (done.length : ℤ) + t.length ≤ (done ++ rest).length := by
    rw [List.length_append]
    omega
  unfold store
  rw [if_pos hin, Int.toNat_natCast]
  congr 1
  rw [List.take_left', List.drop_append]
  · simp [overlay, List.append_assoc, List.drop_eq_nil_of_le]
  · rfl

theorem memset_append (h : k ≤ rest.length) (hk : k < 2 ^ 32) :
    memset (done ++ rest) done.length c k = .ok (done ++ overlay rest (List.replicate k c)) := by
  have hsize : size_t k = k := by rw [size_t_eq (by omega) (by omega), Int.toNat_natCast]
  unfold memset
  rw [hsize, if_pos (by rw [List.length_append]; omega), store_append (by simpa using h)]

theorem memmove_append (h : k ≤ rest.length) (hs : k ≤ s.length) (hk : k < 2 ^ 32) :
    memmove (done ++ rest) done.length s k = .ok (done ++ overlay rest (s.take k)) := by
  have hsize : size_t k = k := by rw [size_t_eq (by omega) (by omega), Int.toNat_natCast]
  unfold memmove
  rw [hsize, if_pos (by omega), List.take_append_of_le_length hs, store_append]
  rw [List.length_take]
  omega

@[simp] theorem ok_bind {α β ε : Type} (a : α) (f : α → Except ε β) :
    (Except.ok a >>= f) = f a := rfl

/-- The field in its two parts, in the order in which `printstr` writes them. -/
theorem fit_cField (sz : ℤ) (s : List Char) (r : ℕ) :
    let width := (if sz < 0 then int32 (-sz) else sz).toNat
    let blanks := List.replicate (min (max width s.length) r - min s.length r) ' '
    (cField sz s).fit ' ' r =
      if sz < 0 then s.take (min s.length r) ++ blanks else blanks ++ s.take (min s.length r) := by
  intro width blanks
  have hblanks : min width r - (s.take r).length =
      min (max width s.length) r - min s.length r := by
    rw [List.length_take]
    omega
  have htake : s.take (min s.length r) = s.take r := by
    rcases Nat.le_total s.length r with h | h
    · rw [Nat.min_eq_left h, List.take_of_length_le (le_refl _), List.take_of_length_le h]
    · rw [Nat.min_eq_right h]
  unfold Layout.Field.fit Layout.Field.full Layout.Field.blanks cField
  simp only [decide_eq_true_eq]
  rw [htake, hblanks]

/-- `printstr` writes its field as far as there is room for it and the NUL. -/
theorem printstr_eq {sz : ℤ} (hlo : -2 ^ 31 ≤ sz) (hhi : sz < 2 ^ 31) (hs : s.length < 2 ^ 31)
    (hr : rest ≠ []) :
    printstr (done ++ rest) done.length s sz =
      .ok (done ++ overlay rest ((cField sz s).fit ' ' (rest.length - 1)),
        (done ++ (cField sz s).fit ' ' (rest.length - 1)).length) := by
  have hpos := List.length_pos_iff.mpr hr
  have hfit := fit_cField sz s (rest.length - 1)
  unfold printstr
  extract_lets sign size l n n' l'
  rw [if_neg (by rw [List.length_append]; omega)]
  extract_lets width blanks at hfit
  set N := min (max width s.length) (rest.length - 1) with hN
  set K := min s.length (rest.length - 1) with hK
  have hsize : l = s.length := int32_eq (by omega) (by omega)
  have hn : n = max width s.length := by
    have hwidth : (width : ℤ) = max size 0 := Int.toNat_eq_max size
    simp only [n]
    split_ifs <;> omega
  have hn' : n' = N := by
    simp only [n', List.length_append]
    split_ifs <;> omega
  have hl' : l' = K := by
    simp only [l']
    split_ifs <;> omega
  have hwlt : width < 2 ^ 31 := by
    have hlt := int32_lt (-sz)
    simp only [width]
    split_ifs <;> omega
  have hKs : K ≤ s.length := by omega
  have hKr : K ≤ rest.length := by omega
  have hKN : K ≤ N := by omega
  have hblanks : ∀ done rest : List Char, N - K ≤ rest.length →
      (if (N : ℤ) - K ≠ 0 then memset (done ++ rest) done.length ' ' (N - K)
        else .ok (done ++ rest)) = .ok (done ++ overlay rest (List.replicate (N - K) ' ')) := by
    intro done rest hle
    split_ifs with hz
    · rw [← Int.natCast_sub hKN, memset_append hle (by omega)]
    · rw [show N - K = 0 by omega]
      rfl
  have hlenK : (s.take K).length = K := by rw [List.length_take]; omega
  clear_value n' l'
  subst hn' hl'
  rw [hfit]
  by_cases hsz : sz < 0
  case pos =>
    have hsign : sign < 0 := by simp [sign, hsz]
    have hb := hblanks (done ++ s.take K) (rest.drop K) (by rw [List.length_drop]; omega)
    have hover : done ++ overlay rest (s.take K) = done ++ s.take K ++ rest.drop K := by
      unfold overlay
      rw [hlenK, List.append_assoc]
    have hoff : ((done ++ s.take K).length : ℤ) = done.length + K := by
      rw [List.length_append, hlenK]
      push_cast
      rfl
    rw [hoff] at hb
    have hend : (done.length : ℤ) + N = (done ++ (s.take K ++ blanks)).length := by
      simp only [List.length_append, blanks, List.length_replicate, hlenK]
      omega
    rw [if_pos hsign, if_pos hsz, memmove_append hKr hKs (by omega), ok_bind, hover, overlay_append,
      hlenK, ← hend, ← List.append_assoc]
    split_ifs at hb ⊢ with hz
    · rw [hb]
      rfl
    · exact congrArg (fun b => Except.ok (b, (done.length : ℤ) + N)) (Except.ok.inj hb)
  case neg =>
    have hsign : ¬ sign < 0 := by simp [sign, hsz]
    have hb := hblanks done rest (by omega)
    have hover : done ++ overlay rest blanks = done ++ blanks ++ rest.drop (N - K) := by
      unfold overlay
      rw [List.length_replicate, List.append_assoc]
    have hoff : (done.length : ℤ) + N - K = (done ++ blanks).length := by
      rw [List.length_append, List.length_replicate]
      omega
    have hmove : memmove (done ++ blanks ++ rest.drop (N - K)) (done ++ blanks).length s K =
        .ok (done ++ blanks ++ overlay (rest.drop (N - K)) (s.take K)) :=
      memmove_append (by rw [List.length_drop]; omega) hKs (by omega)
    have hend : (done.length : ℤ) + N = (done ++ (blanks ++ s.take K)).length := by
      simp only [List.length_append, blanks, List.length_replicate, hlenK]
      omega
    rw [← hoff, ← hover] at hmove
    have hlast : (do
        let buf ← memmove (done ++ overlay rest blanks) (done.length + N - K) s K
        return (buf, (done.length : ℤ) + N)) =
        .ok (done ++ blanks ++ overlay (rest.drop (N - K)) (s.take K), (done.length : ℤ) + N) := by
      rw [hmove]
      rfl
    rw [if_neg hsign, if_neg hsz, overlay_append, List.length_replicate, ← hend,
      ← List.append_assoc]
    split_ifs at hb ⊢ with hz
    · rw [hb]
      exact hlast
    · rw [Except.ok.inj hb]
      exact hlast

/-! Numbers -/

theorem digits_getElem? {i : ℕ} (h : i < 16) : digits[i]? = some i.digitChar := by
  interval_cases i <;> decide

theorem push_eq {p : List Char} (h : p.length < sizeofBuf) : push c p = .ok (c :: p) := if_pos h

/-- The loop writes the digits from the last to the first. -/
theorem digitLoop_eq {base fuel luv : ℕ} {p : List Char} (hb : 1 < base) (h16 : base ≤ 16)
    (hfuel : (Numeral.digitsOf base luv).length < fuel)
    (hroom : (Numeral.digitsOf base luv).length + p.length ≤ sizeofBuf) :
    digitLoop base fuel luv p = .ok (Numeral.digitsOf base luv ++ p) := by
  induction fuel generalizing luv p with
  | zero => omega
  | succ fuel ih =>
    unfold digitLoop
    rcases Nat.eq_zero_or_pos luv with rfl | hpos
    · rfl
    · have hlt : luv % base < 16 := Nat.lt_of_lt_of_le (Nat.mod_lt luv (by omega)) h16
      have hstep := Numeral.digitsOf_step hb hpos
      rw [hstep, List.length_append, List.length_singleton] at hfuel hroom
      rw [if_neg (by omega), digits_getElem? hlt]
      simp only
      rw [push_eq (by omega), ok_bind, ih (by omega) (by rw [List.length_cons]; omega), hstep,
        List.append_assoc]
      rfl

/-- The number that the block `num` works on. -/
def luvValue (fl : Flags) (luv : BitVec 64) : ℤ := if fl.unsigned then luv.toNat else luv.toInt

theorem natAbs_luvValue (fl : Flags) (luv : BitVec 64) :
    (if !fl.unsigned && decide (luv.toInt < 0) then -luv else luv).toNat =
      (luvValue fl luv).natAbs := by
  have hlt := luv.isLt
  have htoInt := BitVec.toInt_eq_toNat_cond luv
  unfold luvValue
  cases fl.unsigned with
  | true => simp
  | false =>
    simp only [Bool.not_false, Bool.true_and, decide_eq_true_eq, Bool.false_eq_true, if_false]
    by_cases hneg : luv.toInt < 0
    · rw [if_pos hneg, BitVec.toNat_neg]
      split_ifs at htoInt <;> omega
    · rw [if_neg hneg]
      split_ifs at htoInt <;> omega

theorem luvValue_neg (fl : Flags) (luv : BitVec 64) :
    (!fl.unsigned && decide (luv.toInt < 0)) = decide (luvValue fl luv < 0) := by
  unfold luvValue
  cases fl.unsigned with
  | true => simp
  | false => simp

theorem natAbs_luvValue_lt (fl : Flags) (luv : BitVec 64) : (luvValue fl luv).natAbs < 2 ^ 64 := by
  rw [← natAbs_luvValue]
  exact BitVec.isLt _

theorem Verb.base_mem (v : Verb) : v.base = 8 ∨ v.base = 10 ∨ v.base = 16 := by
  cases v <;> simp [Verb.base]

/-- There are at most 22 digits in the bases that are used. -/
theorem length_digitsOf_le_22 {base n : ℕ} (hb : base = 8 ∨ base = 10 ∨ base = 16)
    (h : n < 2 ^ 64) : (Numeral.digitsOf base n).length ≤ 22 := by
  apply Numeral.length_digitsOf_le (by omega)
  rcases hb with rfl | rfl | rfl <;> omega

theorem length_numPrefix_le (base n : ℕ) : (numPrefix base n).length ≤ 3 := by
  unfold numPrefix
  split_ifs <;> simp

theorem length_numText_le {base : ℕ} {v neg : ℤ} (hb : base = 8 ∨ base = 10 ∨ base = 16)
    (h : v.natAbs < 2 ^ 64) : (numText base v neg).length ≤ 26 := by
  have h1 := length_digitsOf_le_22 hb h
  have h2 := length_numPrefix_le base v.natAbs
  unfold numText
  simp only [List.length_append]
  split_ifs <;> simp only [List.length_singleton, List.length_nil] <;> omega

/-- The block `num` leaves the text of its number in `buf`, which is always long enough. -/
theorem num_eq {base : ℕ} (hb : base = 8 ∨ base = 10 ∨ base = 16) (fl : Flags) (luv : BitVec 64)
    (neg : ℤ) : num base fl luv neg = .ok (numText base (luvValue fl luv) neg ++ [NUL]) := by
  have hlen := length_digitsOf_le_22 hb (natAbs_luvValue_lt fl luv)
  have hloop : digitLoop base 64 (luvValue fl luv).natAbs [NUL] =
      .ok (Numeral.digitsOf base (luvValue fl luv).natAbs ++ [NUL]) := by
    apply digitLoop_eq (by omega) (by omega) (Nat.lt_of_le_of_lt hlen (by omega))
    simp only [sizeofBuf, List.length_singleton]
    omega
  have hneg : (if (!fl.unsigned && decide (luv.toInt < 0)) = true then 1 else neg) ≠ 0 ↔
      luvValue fl luv < 0 ∨ neg ≠ 0 := by
    simp only [luvValue_neg, decide_eq_true_eq]
    split_ifs with h <;> simp [h]
  have hzero : (if (!fl.unsigned && decide (luv.toInt < 0)) = true then -luv else luv) = 0 ↔
      (luvValue fl luv).natAbs = 0 := by
    rw [← natAbs_luvValue, ← BitVec.toNat_inj]
    rfl
  have hnul : push NUL [] = .ok [NUL] := rfl
  unfold num numText numPrefix
  dsimp only
  rw [hnul, ok_bind, natAbs_luvValue, hloop, ok_bind]
  simp only [hneg, hzero]
  generalize Numeral.digitsOf base (luvValue fl luv).natAbs = ds at hlen ⊢
  -- at most four characters go before the digits
  have hpush : ∀ c p, p.length ≤ 26 → push c p = .ok (c :: p) := by
    intro c p hp
    exact push_eq (by unfold sizeofBuf; omega)
  have h0 : ∀ c, push c (ds ++ [NUL]) = .ok (c :: (ds ++ [NUL])) := by
    intro c
    exact hpush c _ (by simp; omega)
  have h1 : ∀ c x, push c (x :: (ds ++ [NUL])) = .ok (c :: x :: (ds ++ [NUL])) := by
    intro c x
    exact hpush c _ (by simp; omega)
  have h2 : ∀ c x y, push c (x :: y :: (ds ++ [NUL])) = .ok (c :: x :: y :: (ds ++ [NUL])) := by
    intro c x y
    exact hpush c _ (by simp; omega)
  have h3 : ∀ c x y z, push c (x :: y :: z :: (ds ++ [NUL])) =
      .ok (c :: x :: y :: z :: (ds ++ [NUL])) := by
    intro c x y z
    exact hpush c _ (by simp; omega)
  split_ifs <;> simp [h0, h1, h2, h3, pure, Except.pure]

/-! Directives -/

/-- `vseprint` with `done` written and `rest` of the buffer to come. -/
def Printer.at (done rest : List Char) (arg : List Arg) (nums : ℕ) : Printer :=
  ⟨done ++ rest, done.length, arg, nums⟩

theorem print_eq (sp : Spec) (arg : List Arg) (nums : ℕ) (hs : s.length < 2 ^ 31)
    (hr : rest ≠ []) :
    (Printer.at done rest arg nums).print sp s =
      let f := (sp.field s).fit ' ' (rest.length - 1)
      .ok (.at (done ++ f) (rest.drop f.length) arg nums) := by
  unfold Printer.print Printer.at
  rw [printstr_eq (le_int32 _) (int32_lt _) hs hr, ok_bind]
  simp only [overlay, ← List.append_assoc]
  rfl

theorem vaArg_eq {v : Verb} (hv : v.IsNum) {fl : Flags} {a : Arg} (ha : v.Takes fl a)
    (args : List Arg) : ∃ luv, vaArg fl (a :: args) = .ok (luv, args) ∧
      luvValue fl luv = argValue fl a := by
  cases a with
  | word i =>
    have hl : fl.longLong = false := by
      rcases ha with rfl | ⟨h1, h2⟩
      · exact absurd hv (by decide)
      · exact h2
    refine ⟨if fl.unsigned then i.setWidth 64 else i.signExtend 64, ?_, ?_⟩
    · simp [vaArg, hl]
    · cases hu : fl.unsigned with
      | true =>
        simp only [luvValue, argValue, hu, if_true]
        rw [BitVec.toNat_setWidth_of_le (by omega)]
      | false =>
        simp only [luvValue, argValue, hu, Bool.false_eq_true, if_false]
        rw [BitVec.toInt_signExtend_of_le (by omega)]
  | dword i =>
    have hl : fl.longLong = true := ha.2
    exact ⟨i, by simp [vaArg, hl], rfl⟩
  | string str =>
    have hs : v = .s := ha
    subst hs
    exact absurd hv (by decide)

theorem nul_notMem_digitsOf {base n : ℕ} (hb : base = 8 ∨ base = 10 ∨ base = 16) :
    NUL ∉ Numeral.digitsOf base n := by
  intro h
  have hd := (Numeral.isDigit_of_mem_digitsOf (by omega) (by omega) n NUL h).toNat (by omega)
  revert hd
  decide

theorem nul_notMem_numText {base : ℕ} {v neg : ℤ} (hb : base = 8 ∨ base = 10 ∨ base = 16) :
    NUL ∉ numText base v neg := by
  have hd := nul_notMem_digitsOf (n := v.natAbs) hb
  have h0 : NUL ≠ '0' := by decide
  have hx : NUL ≠ 'x' := by decide
  have hm : NUL ≠ '-' := by decide
  unfold numText numPrefix
  split_ifs <;> simp [hd, h0, hx, hm]

theorem argText_of_isNum {v : Verb} (hv : v.IsNum) (fl : Flags) (neg : ℤ) (a : Arg) :
    v.argText fl neg a = numText v.base (argValue fl a) neg := by
  rcases hv with rfl | rfl | rfl | rfl <;> rfl

theorem natAbs_argValue_lt (fl : Flags) (a : Arg) : (argValue fl a).natAbs < 2 ^ 64 := by
  cases a with
  | word i =>
    have h1 := i.isLt
    have h2 := BitVec.toInt_eq_toNat_cond i
    simp only [argValue]
    split_ifs at h2 ⊢ <;> omega
  | dword i =>
    have h1 := i.isLt
    have h2 := BitVec.toInt_eq_toNat_cond i
    simp only [argValue]
    split_ifs at h2 ⊢ <;> omega
  | string str => simp [argValue]

theorem length_argText_lt {v : Verb} {fl : Flags} {a : Arg} (ha : v.Takes fl a) (neg : ℤ) :
    (v.argText fl neg a).length < 2 ^ 31 := by
  have hnum : (numText v.base (argValue fl a) neg).length ≤ 26 :=
    length_numText_le v.base_mem (natAbs_argValue_lt fl a)
  unfold Verb.argText
  split
  · rename_i i
    have hle := length_cstr_le [Char.ofNat (i.toNat % 256), NUL]
    simp only [List.length_cons, List.length_nil] at hle
    omega
  · rename_i str
    exact str.length_lt_pow
  · exact Nat.lt_of_le_of_lt hnum (by omega)

theorem verb_eq (env : PrintEnv) (sp : Spec) {v : Verb} {a : Arg} (ha : v.Takes sp.fl a)
    (args : List Arg) (k : ℕ) (hr : rest ≠ []) :
    (Printer.at done rest (a :: args) k).verb env sp v =
      let f := (sp.field (v.argText sp.fl (env.neg k) a)).fit ' ' (rest.length - 1)
      .ok (.at (done ++ f) (rest.drop f.length) args (if v.IsNum then k + 1 else k)) := by
  have hlen := length_argText_lt ha (env.neg k)
  by_cases hv : v.IsNum
  · obtain ⟨luv, hluv, hval⟩ := vaArg_eq hv ha args
    have hnum := num_eq v.base_mem sp.fl luv (env.neg k)
    have hnul : NUL ∉ numText v.base (argValue sp.fl a) (env.neg k) :=
      nul_notMem_numText v.base_mem
    have hcstr := cstr_append_nul hnul []
    rw [argText_of_isNum hv] at hlen ⊢
    have hprint : (Printer.at done rest args (k + 1)).print sp _ = _ :=
      print_eq sp args (k + 1) hlen hr
    rw [if_pos hv]
    rw [hval] at hnum
    have hbody : (Printer.at done rest (a :: args) k).verb env sp v = (do
        let x ← vaArg sp.fl (a :: args)
        let p ← num v.base sp.fl x.1 (env.neg k)
        Printer.print (.at done rest x.2 (k + 1)) sp (cstr p)) := by
      rcases hv with rfl | rfl | rfl | rfl <;> rfl
    rw [hbody, hluv, ok_bind]
    simp only
    rw [hnum, ok_bind, hcstr, hprint]
  · rw [if_neg hv]
    cases a with
    | word i =>
      have hc : v = .c := by
        rcases ha with h | h
        · exact h
        · exact absurd h.1 hv
      subst hc
      exact print_eq sp args k hlen hr
    | dword i => exact absurd ha.1 hv
    | string str =>
      have hs : v = .s := ha
      subst hs
      exact print_eq sp args k hlen hr

/-- The three ways in which the inner loop is left. -/
theorem directive_cases (env : PrintEnv) (q : List Char) (sp : Spec) (st : Printer) :
    parse (some sp) q = .cut ∧ directive env q sp st = .ok ([], st) ∨
    parse (some sp) q = .unknown ∧ directive env q sp st = .ok ("X*verb*".toList, st) ∨
    ∃ sp' v c q', parse (some sp) q = .conv sp' v (parse none q') ∧
      directive env q sp st = (do
        let st ← st.verb env sp' v
        return (c :: q', st)) := by
  induction q generalizing sp with
  | nil => exact .inl ⟨rfl, rfl⟩
  | cons c q ih =>
    rw [parse.eq_def (some sp) (c :: q), directive.eq_def env (c :: q)]
    dsimp only
    cases label c with
    | minus => exact ih { sp with sign := -1 }
    | digit d => exact ih { sp with size := int32 (sp.size * 10 + d) }
    | long =>
      by_cases hl : sp.fl.long = true
      · rw [if_pos hl, if_pos hl]
        exact ih { sp with fl.longLong := true }
      · rw [if_neg hl, if_neg hl]
        exact ih { sp with fl.long := true }
    | unsigned => exact ih { sp with fl.unsigned := true }
    | verb v => exact .inr (.inr ⟨sp, v, c, q, rfl, rfl⟩)
    | other => exact .inr (.inl ⟨rfl, rfl⟩)

/-- Where the scan ends, given the fields it is still asked for. -/
def outcome (done rest : List Char) (f : Format) (fs : List (Layout.Field Char)) :
    Except PrintFault (List Char × ℤ) :=
  if f.IsCut ∧ Layout.size fs < rest.length - 1 then .error .scanPastEnd
  else
    .ok (done ++ overlay rest (Layout.fit ' ' (rest.length - 1) fs),
      (done ++ Layout.fit ' ' (rest.length - 1) fs).length)

theorem outcome_of_room_zero {f : Format} {fs : List (Layout.Field Char)}
    (h : rest.length - 1 = 0) : outcome done rest f fs = .ok (done ++ rest, done.length) := by
  simp [outcome, h]

theorem outcome_cons {f f' : Format} (hf : f'.IsCut ↔ f.IsCut) (x : Layout.Field Char)
    (fs : List (Layout.Field Char)) :
    outcome (done ++ x.fit ' ' (rest.length - 1))
      (rest.drop (x.fit ' ' (rest.length - 1)).length) f fs = outcome done rest f' (x :: fs) := by
  have hroom : (rest.drop (x.fit ' ' (rest.length - 1)).length).length - 1 =
      rest.length - 1 - x.size := by
    rw [List.length_drop, Layout.Field.length_fit]
    omega
  have hsize : Layout.size fs < rest.length - 1 - x.size ↔
      Layout.size (x :: fs) < rest.length - 1 := by
    rw [Layout.size_cons]
    omega
  unfold outcome
  rw [hroom]
  simp only [hf, hsize, Layout.fit, overlay_append, List.append_assoc]

/-- The scan does what its format says, however much room there is. -/
theorem scan_eq (env : PrintEnv) {fuel : ℕ} {p : List Char} {args : List Arg}
    (hfuel : (parse none p).turns ≤ fuel) (hm : (parse none p).Matches args) (hr : rest ≠ []) :
    (scan env fuel (some p) (.at done rest args k)).map (fun st => (st.buf, st.w)) =
      outcome done rest (parse none p) ((parse none p).fields env k args) := by
  induction fuel generalizing p done rest args k with
  | zero =>
    have hpos : 0 < (parse none p).turns := by
      cases parse none p <;> simp [Format.turns]
    omega
  | succ fuel ih =>
    have hpos := List.length_pos_iff.mpr hr
    -- one field is written and the scan goes on
    have hcons : ∀ x p args k f, (parse none p).turns ≤ fuel → (parse none p).Matches args →
        (f.IsCut ↔ (parse none p).IsCut) →
        (scan env fuel (some p) (.at (done ++ x.fit ' ' (rest.length - 1))
          (rest.drop (x.fit ' ' (rest.length - 1)).length) args k)).map
            (fun st => (st.buf, st.w)) =
          outcome done rest f (x :: (parse none p).fields env k args) := by
      intro x p args k f hfuel hm hf
      rw [ih hfuel hm, outcome_cons hf]
      rw [← List.length_pos_iff, List.length_drop, Layout.Field.length_fit]
      omega
    cases p with
    | nil =>
      have hp : parse none [] = .stop := rfl
      have hscan : scan env (fuel + 1) (some []) (.at done rest args k) =
          .ok (.at done rest args k) := rfl
      rw [hp, hscan]
      simp [outcome, Format.IsCut, Printer.at, Except.map]
    | cons c q =>
      unfold scan
      by_cases hroom : rest.length - 1 = 0
      · rw [outcome_of_room_zero hroom, if_neg]
        · rfl
        · simp only [Printer.at, List.length_append]
          omega
      rw [if_pos (by simp only [Printer.at, List.length_append]; omega)]
      by_cases hc : c = '%'
      case pos =>
        subst hc
        have hp : parse none ('%' :: q) = parse (some {}) q := by simp [parse]
        rw [hp] at hfuel hm ⊢
        rw [if_pos rfl]
        rcases directive_cases env q {} (.at done rest args k) with
          ⟨hparse, hdir⟩ | ⟨hparse, hdir⟩ | ⟨sp, v, c, q', hparse, hdir⟩
        · rw [hparse, Format.turns] at hfuel
          obtain ⟨fuel', rfl⟩ : ∃ n, fuel = n + 1 := ⟨fuel - 1, by omega⟩
          rw [hparse, hdir]
          have hlt : 0 < rest.length - 1 := Nat.pos_of_ne_zero hroom
          simp [outcome, Format.IsCut, scan, advance, Except.map, hlt]
        · rw [hparse, Format.turns] at hfuel
          have hverb : (scan env fuel (some "*verb*".toList) (.at done rest args k)).map
              (fun st => (st.buf, st.w)) = _ :=
            ih (by rw [parse_verb]; simp only [Format.turns]; omega)
              (by rw [parse_verb]; trivial) hr
          rw [hparse, hdir]
          exact hverb
        · rw [hparse, Format.turns] at hfuel
          rw [hparse] at hm
          rw [hparse, hdir]
          by_cases hv : v = .r
          · subst hv
            have hstep : (Printer.at done rest args k).verb env sp .r = _ :=
              print_eq sp args k env.strerror.length_lt_pow hr
            rw [hstep]
            exact hcons _ q' args k _ (by omega) hm Iff.rfl
          · obtain ⟨a, args', rfl, ha, hm'⟩ := (Format.matches_conv hv).mp hm
            rw [verb_eq env sp ha args' k hr, Format.fields_conv hv]
            exact hcons _ q' args' _ _ (by omega) hm' Iff.rfl
      case neg =>
        have hp : parse none (c :: q) = .lit c (parse none q) := by simp [parse, hc]
        have hfit : (Layout.Field.plain [c]).fit ' ' (rest.length - 1) = [c] := by
          rw [Layout.Field.fit_plain, List.take_of_length_le]
          simp only [List.length_singleton]
          omega
        have htail := hcons (.plain [c]) q args k (.lit c (parse none q))
        rw [hp, Format.turns] at hfuel
        rw [hp] at hm
        rw [hp, if_neg hc]
        have hput : store (done ++ rest) done.length [c] = .ok (done ++ overlay rest [c]) :=
          store_append (by rw [List.length_singleton]; exact hpos)
        have hat : (⟨done ++ overlay rest [c], done.length + 1, args, k⟩ : Printer) =
            .at (done ++ [c]) (rest.drop 1) args k := by
          simp [Printer.at, overlay]
        rw [hfit] at htail
        simp only [Printer.at, hput, ok_bind, Format.fields_lit]
        rw [hat]
        exact htail (by omega) hm Iff.rfl

/-- What `vseprint` leaves in a buffer that holds at least one byte. -/
theorem vseprint_eq (env : PrintEnv) {fuel : ℕ} {fmt : CString} {args : List Arg}
    (hfuel : scanFuel fmt ≤ fuel) (hm : (parse none fmt.chars).Matches args) (hb : buf ≠ []) :
    vseprint env fuel buf fmt args =
      if (parse none fmt.chars).IsCut ∧ Layout.size (fieldsOf env fmt args) < buf.length - 1 then
        .error .scanPastEnd
      else .ok (overlay buf
          (Layout.fit ' ' (buf.length - 1) (fieldsOf env fmt args) ++ [NUL])) := by
  set fs := fieldsOf env fmt args
  have hpos := List.length_pos_iff.mpr hb
  have hscan : (scan env fuel (some fmt.chars) (.at [] buf args 0)).map
      (fun st => (st.buf, st.w)) = outcome [] buf (parse none fmt.chars) fs :=
    scan_eq env ((turns_parse_le none fmt.chars).trans hfuel) hm hb
  have hstart : (⟨buf, 0, args, 0⟩ : Printer) = .at [] buf args 0 := rfl
  have hlen : (Layout.fit ' ' (buf.length - 1) fs).length + 1 ≤ buf.length := by
    rw [Layout.length_fit]
    omega
  unfold vseprint
  rw [hstart]
  unfold outcome at hscan
  simp only [List.nil_append] at hscan
  cases hrun : scan env fuel (some fmt.chars) (.at [] buf args 0) with
  | error e =>
    rw [hrun] at hscan
    split_ifs at hscan ⊢ with hcut
    · exact congrArg Except.error (Except.error.inj hscan)
    · cases hscan
  | ok st =>
    rw [hrun] at hscan
    split_ifs at hscan ⊢ with hcut
    · cases hscan
    · have hst := Except.ok.inj hscan
      simp only [Prod.mk.injEq] at hst
      obtain ⟨hbuf, hw⟩ := hst
      have hroom : (overlay buf (Layout.fit ' ' (buf.length - 1) fs)).length = buf.length :=
        length_overlay (by omega)
      rw [ok_bind, hbuf, hw, if_pos (by rw [hroom]; omega)]
      unfold overlay
      rw [store_append]
      · simp [overlay, List.append_assoc]
      · rw [List.length_singleton, List.length_drop]
        omega

end Libtask
