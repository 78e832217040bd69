import Libtask.Abstract.Address
import Mathlib.Tactic.IntervalCases

/-! The loop of `parseip` reads the components of its name one by one. -/
namespace Libtask

variable {c p rest : List Char} {cs : List (List Char)} {vs : List ℕ} {v n i : ℕ}

/-- One turn of the loop: the byte it stores and the new `p`. -/
def turn (p : List Char) : Option (BitVec 8 × List Char) :=
  let x := int32 (strtoul p).1
  let p := (strtoul p).2
  if x < 0 ∨ x ≥ 256 then none
  else if p.head? ≠ some '.' ∧ p ≠ [] then none
  else some (BitVec.ofInt 8 x, if p.head? = some '.' then p.tail else p)

theorem parseLoop_nil (n i : ℕ) (addr : Address) : parseLoop n i [] addr = some (i, addr) := by
  cases n <;> simp [parseLoop]

theorem parseLoop_succ (hp : p ≠ []) (n i : ℕ) (addr : Address) :
    parseLoop (n + 1) i p addr =
      (turn p).bind fun r => parseLoop n (i + 1) r.2 (addr.setIfInBounds i r.1) := by
  unfold turn
  rw [parseLoop, if_neg hp]
  dsimp only
  split_ifs <;> rfl

/-- What is behind a component: nothing, or a dot. -/
def Behind (rest : List Char) : Prop := rest = [] ∨ ∃ q, rest = '.' :: q

theorem Behind.ends (h : Behind rest) : Numeral.Ends rest := by
  rcases h with rfl | ⟨q, rfl⟩
  · exact Numeral.ends_nil
  · exact Numeral.ends_cons (by decide)

/-- A component ends at the first dot. -/
theorem append_behind_inj {s t rest' : List Char} (hs : '.' ∉ s) (ht : '.' ∉ t)
    (hr : Behind rest) (hr' : Behind rest') (h : s ++ rest = t ++ rest') : s = t := by
  have htake : ∀ {s rest : List Char}, '.' ∉ s → Behind rest →
      (s ++ rest).takeWhile (· ≠ '.') = s := by
    intro s rest hs hr
    have hne : ∀ c ∈ s, c ≠ '.' := fun c hc heq => hs (heq ▸ hc)
    rw [List.takeWhile_append_of_pos (by simpa using hne)]
    rcases hr with rfl | ⟨q, rfl⟩ <;> simp
  rw [← htake hs hr, h, htake ht hr']

theorem dot_notMem_literal {lit : List Char} {b m : ℕ} (h : Numeral.Literal b lit m) :
    '.' ∉ lit := by
  have hd : ∀ b, b ≤ 16 → ¬ Numeral.IsDigit b '.' := by
    intro b hb hdot
    have := hdot.toNat hb
    revert this
    decide
  intro hmem
  cases h with
  | decimal hne h0 hds => exact hd 10 (by omega) (hds _ hmem)
  | octal hds =>
    rcases List.mem_cons.mp hmem with h | h
    · revert h
      decide
    · exact hd 8 (by omega) (hds _ h)
  | hex x hx hne hds =>
    simp only [List.mem_cons] at hmem
    rcases hmem with h | h | h
    · revert h
      decide
    · subst h
      revert hx
      decide
    · exact hd 16 (by omega) (hds _ h)

theorem dot_notMem_number {blanks s lit : List Char} {neg : Bool} {b m : ℕ}
    (hblanks : ∀ c ∈ blanks, Numeral.IsSpace c) (hsign : Numeral.Sign s neg)
    (hlit : Numeral.Literal b lit m) : '.' ∉ blanks ++ s ++ lit := by
  intro hmem
  simp only [List.mem_append] at hmem
  rcases hmem with (h | h) | h
  · exact absurd (hblanks _ h) (by decide)
  · cases hsign <;> simp at h
  · exact dot_notMem_literal hlit h

theorem head?_of_behind (h : Behind rest) : ¬ (rest.head? ≠ some '.' ∧ rest ≠ []) ∧
    (if rest.head? = some '.' then rest.tail else rest) = rest.tail := by
  rcases h with rfl | ⟨q, rfl⟩ <;> simp

theorem behind_of_head (h : ¬ (p.head? ≠ some '.' ∧ p ≠ [])) : Behind p := by
  cases p with
  | nil => exact .inl rfl
  | cons d q =>
    have hd : d = '.' := by simpa using h
    exact .inr ⟨q, by rw [hd]⟩

/-- In front of a dot there is no number. -/
theorem read_dot (q : List Char) : Numeral.read ('.' :: q) = none := by
  have hspace : ¬ Numeral.IsSpace '.' := by decide
  have hdigit : ¬ Numeral.IsDigit 10 '.' := by decide
  have hdrop : ('.' :: q).dropWhile (Numeral.IsSpace ·) = '.' :: q :=
    List.dropWhile_cons_of_neg (by simpa using hspace)
  have htake : ('.' :: q).takeWhile (Numeral.IsDigit 10 ·) = [] :=
    List.takeWhile_cons_of_neg (by simpa using hdigit)
  have hsign : Numeral.splitSign ('.' :: q) = (false, '.' :: q) := rfl
  have hdigits : Numeral.readDigits ('.' :: q) = none := by
    unfold Numeral.readDigits
    rw [Numeral.splitBase_decimal (by simp)]
    dsimp only
    rw [if_pos htake]
  unfold Numeral.read
  rw [hdrop, hsign]
  simp only [hdigits, Option.map_none]

/-- A component that can be read loosely is read as its value. -/
theorem turn_of_loose (h : Loose c v) (hr : Behind rest) (hne : c ++ rest ≠ []) :
    turn (c ++ rest) = some (.ofNat 8 v, rest.tail) := by
  have hbehind := head?_of_behind hr
  have hrange : ¬ ((v : ℤ) < 0 ∨ (v : ℤ) ≥ 256) := by
    have := h.le
    omega
  have hint : int32 (v : ℤ) = v := by
    have := h.le
    exact int32_eq (by omega) (by omega)
  have hstr : strtoul (c ++ rest) = (v, rest) := by
    cases h with
    | empty =>
      rcases hr with rfl | ⟨q, rfl⟩
      · exact absurd rfl hne
      · unfold strtoul
        rw [List.nil_append, read_dot]
    | @number blanks s lit neg b m _ hblanks hsign hlit hm hv hbyte =>
      unfold strtoul
      rw [Numeral.read_spaced hblanks hsign hlit hr.ends]
      unfold Numeral.Reading.unsigned
      simp only [Prod.mk.injEq, and_true]
      rw [if_neg (by omega), hv]
  unfold turn
  rw [hstr]
  dsimp only
  rw [hint, if_neg hrange, if_neg hbehind.1, hbehind.2, BitVec.ofInt_natCast]

theorem abs_of_range {r : Numeral.Reading}
    (h : ¬ (int32 (r.unsigned 32) < 0 ∨ int32 (r.unsigned 32) ≥ 256)) :
    r.abs < 2 ^ 32 ∧ (if r.neg then (2 ^ 32 - r.abs) % 2 ^ 32 else r.abs) ≤ 255 := by
  unfold int32 Numeral.Reading.unsigned at h
  by_cases hbig : r.abs ≥ 2 ^ 32
  · rw [if_pos hbig] at h
    omega
  · rw [if_neg hbig] at h
    split_ifs at h ⊢ <;> omega

/-- What a turn of the loop lets pass can be read loosely. -/
theorem loose_of_turn {r : BitVec 8 × List Char} (hc : '.' ∉ c) (hr : Behind rest)
    (h : turn (c ++ rest) = some r) : ∃ v, Loose c v := by
  unfold turn at h
  dsimp only at h
  split_ifs at h with hx hhead hdot
  all_goals
    unfold strtoul at hx hhead
    cases hread : Numeral.read (c ++ rest) with
    | none =>
      rw [hread] at hhead
      cases c with
      | nil => exact ⟨0, .empty⟩
      | cons d c =>
        rcases behind_of_head hhead with h0 | ⟨q, hq⟩
        · cases h0
        · rw [List.cons_append, List.cons.injEq] at hq
          rw [hq.1] at hc
          exact absurd List.mem_cons_self hc
    | some r' =>
      rw [hread] at hx hhead
      obtain ⟨blanks, s, b, lit, heq, hblanks, hsign, hlit⟩ := Numeral.read_eq_some hread
      have hct := append_behind_inj hc (dot_notMem_number hblanks hsign hlit) hr
        (behind_of_head hhead) heq
      obtain ⟨hm, hbyte⟩ := abs_of_range hx
      rw [hct]
      exact ⟨_, .number hblanks hsign hlit hm rfl hbyte⟩

/-- Component values are put into the bytes from `i` on. -/
def storeFrom : ℕ → List ℕ → Address → Address
  | _, [], addr => addr
  | i, v :: vs, addr => storeFrom (i + 1) vs (addr.setIfInBounds i (.ofNat 8 v))

theorem behind_intercalate (cs : List (List Char)) :
    ∃ rest, Behind rest ∧ rest.tail = List.intercalate ['.'] cs ∧
      ∀ c, List.intercalate ['.'] (c :: cs) = c ++ rest ∧ (c ++ rest = [] → c = [] ∧ cs = []) := by
  cases cs with
  | nil => exact ⟨[], .inl rfl, rfl, fun c => by simp⟩
  | cons d ds =>
    refine ⟨'.' :: List.intercalate ['.'] (d :: ds), .inr ⟨_, rfl⟩, rfl, ?_⟩
    intro c
    rw [List.intercalate_cons_of_ne_nil (by simp)]
    simp

/-- The loop stores the values of the components that it looks at. -/
theorem parseLoop_of_loose {addr : Address} (h : List.Forall₂ Loose (readFirst n cs) vs) :
    parseLoop n i (List.intercalate ['.'] cs) addr =
      some (i + vs.length, storeFrom i vs addr) := by
  induction n generalizing i cs vs addr with
  | zero =>
    rw [readFirst, List.forall₂_nil_left_iff] at h
    rw [h]
    rfl
  | succ n ih =>
    cases cs with
    | nil =>
      rw [readFirst, List.forall₂_nil_left_iff] at h
      · rw [h]
        exact parseLoop_nil _ _ _
      · simp
    | cons c cs =>
      rw [readFirst] at h
      split_ifs at h with hend
      · rw [List.forall₂_nil_left_iff] at h
        rw [h, hend.1, hend.2]
        exact parseLoop_nil _ _ _
      · obtain ⟨v, vs', hv, hvs, rfl⟩ := List.forall₂_cons_left_iff.mp h
        obtain ⟨rest, hbehind, htail, hjoin⟩ := behind_intercalate cs
        have hne : c ++ rest ≠ [] := fun h0 => hend ((hjoin c).2 h0)
        rw [(hjoin c).1, parseLoop_succ hne, turn_of_loose hv hbehind hne]
        simp only [Option.bind_some]
        rw [htail, ih hvs]
        simp only [storeFrom, List.length_cons]
        congr 2
        omega

/-- What the loop lets pass can be read loosely, component by component. -/
theorem loose_of_parseLoop {addr : Address} {r : ℕ × Address} (hcs : ∀ c ∈ cs, '.' ∉ c)
    (h : parseLoop n i (List.intercalate ['.'] cs) addr = some r) :
    ∃ vs, List.Forall₂ Loose (readFirst n cs) vs := by
  induction n generalizing i cs addr with
  | zero => exact ⟨[], by rw [readFirst]; exact .nil⟩
  | succ n ih =>
    cases cs with
    | nil => exact ⟨[], .nil⟩
    | cons c cs =>
      rw [readFirst]
      split_ifs with hend
      · exact ⟨[], .nil⟩
      · obtain ⟨rest, hbehind, htail, hjoin⟩ := behind_intercalate cs
        have hne : c ++ rest ≠ [] := fun h0 => hend ((hjoin c).2 h0)
        rw [(hjoin c).1, parseLoop_succ hne] at h
        obtain ⟨t, ht, hrec⟩ := Option.bind_eq_some_iff.mp h
        obtain ⟨v, hv⟩ := loose_of_turn (hcs c (by simp)) hbehind ht
        rw [turn_of_loose hv hbehind hne, Option.some.injEq] at ht
        subst ht
        rw [htail] at hrec
        obtain ⟨vs, hvs⟩ := ih (fun d hd => hcs d (by simp [hd])) hrec
        exact ⟨v :: vs, .cons hv hvs⟩

abbrev ofBytes (a b c d : BitVec 8) : Address := #v[a, b, c, d]

/-- The bytes that `parseip` stores for component values, where `addr` held `j` before. -/
def stored : List ℕ → Address → Option Address
  | [], j => if CLASS j = 3 then some j else none
  | [a], j => if a < 192 then none else some (ofBytes (.ofNat 8 a) (j.get 1) (j.get 2) (j.get 3))
  | [a, d], j =>
    if a < 128 then some (ofBytes (.ofNat 8 a) 0 0 (.ofNat 8 d))
    else if a < 192 then none
    else some (ofBytes (.ofNat 8 a) (.ofNat 8 d) (j.get 2) (j.get 3))
  | [a, b, d], j =>
    if a < 128 then some (ofBytes (.ofNat 8 a) 0 (.ofNat 8 b) (.ofNat 8 d))
    else if a < 192 then some (ofBytes (.ofNat 8 a) (.ofNat 8 b) 0 (.ofNat 8 d))
    else some (ofBytes (.ofNat 8 a) (.ofNat 8 b) (.ofNat 8 d) (j.get 3))
  | [a, b, c, d], _ => some (ofBytes (.ofNat 8 a) (.ofNat 8 b) (.ofNat 8 c) (.ofNat 8 d))
  | _, _ => none

theorem exists_ofBytes (j : Address) : ∃ a b c d, j = ofBytes a b c d := by
  refine ⟨j.get 0, j.get 1, j.get 2, j.get 3, ?_⟩
  apply Vector.ext
  intro i hi
  interval_cases i <;> rfl

theorem CLASS_eq {a : ℕ} (h : a ≤ 255) (x y z : BitVec 8) :
    CLASS #v[.ofNat 8 a, x, y, z] = a / 64 := by
  have hlt : a % 2 ^ 8 = a := Nat.mod_eq_of_lt (by omega)
  unfold CLASS
  change (BitVec.ofNat 8 a >>> 6).toNat = a / 64
  rw [BitVec.toNat_ushiftRight, BitVec.toNat_ofNat, hlt, Nat.shiftRight_eq_div_pow]

theorem CLASS_lt (j : Address) : CLASS j < 4 := by
  have h := j[0].isLt
  unfold CLASS
  rw [BitVec.toNat_ushiftRight, Nat.shiftRight_eq_div_pow]
  omega

theorem parseSwitch_eq {a : ℕ} (h : a ≤ 255) (x y z : BitVec 8) :
    parseSwitch n #v[.ofNat 8 a, x, y, z] =
      if a < 128 then
        if n = 3 then some #v[.ofNat 8 a, 0, x, y]
        else if n = 2 then some #v[.ofNat 8 a, 0, 0, x]
        else if n ≠ 4 then none
        else some #v[.ofNat 8 a, x, y, z]
      else if a < 192 then
        if n = 3 then some #v[.ofNat 8 a, x, 0, y]
        else if n ≠ 4 then none
        else some #v[.ofNat 8 a, x, y, z]
      else some #v[.ofNat 8 a, x, y, z] := by
  unfold parseSwitch
  rw [CLASS_eq h]
  by_cases h64 : a < 64
  · have h128 : a < 128 := by omega
    rw [Nat.div_eq_of_lt h64, if_pos h128]
    rfl
  by_cases h128 : a < 128
  · rw [show a / 64 = 1 by omega, if_pos h128]
    rfl
  rw [if_neg h128]
  by_cases h192 : a < 192
  · rw [show a / 64 = 2 by omega, if_pos h192]
    rfl
  · rw [show a / 64 = 3 by omega, if_neg h192]
    rfl

theorem parseSwitch_zero (j : Address) :
    parseSwitch 0 j = if CLASS j = 3 then some j else none := by
  have hlt := CLASS_lt j
  unfold parseSwitch
  generalize CLASS j = k at hlt ⊢
  interval_cases k <;> rfl

theorem head_le_of_loose (h : List.Forall₂ Loose cs vs) : ∀ a ∈ vs.head?, a ≤ 255 := by
  intro a ha
  cases h with
  | nil => simp at ha
  | @cons c v cs vs hv hvs =>
    have heq : v = a := by simpa using ha
    rw [← heq]
    exact hv.le

/-- The result of `parseip` on a name whose components can be read. -/
theorem parseip_of_readAs {name : CString} (h : ReadAs name.chars vs) (j : Address) :
    parseip name j = stored vs j := by
  have hlen : vs.length ≤ 4 := by
    rw [← h.length_eq]
    exact length_readFirst_le 4 _
  have hloop : parseLoop 4 0 _ j = _ := parseLoop_of_loose h
  rw [intercalate_components, Nat.zero_add] at hloop
  have hhead := head_le_of_loose h
  unfold parseip
  rw [hloop]
  obtain ⟨w, x, y, z, rfl⟩ := exists_ofBytes j
  match vs with
  | [] =>
    exact parseSwitch_zero _
  | [a] =>
    refine (parseSwitch_eq (hhead a rfl) x y z).trans ?_
    by_cases h128 : a < 128
    · have h192 : a < 192 := by omega
      simp [stored, h128, h192]
    · by_cases h192 : a < 192
      · simp [stored, h128, h192]
      · rw [if_neg h128, if_neg h192]
        simp [stored, h192, Vector.get]
  | [a, b] =>
    refine (parseSwitch_eq (hhead a rfl) (.ofNat 8 b) y z).trans ?_
    simp [stored, Vector.get]
  | [a, b, c] =>
    refine (parseSwitch_eq (hhead a rfl) (.ofNat 8 b) (.ofNat 8 c) z).trans ?_
    simp [stored, Vector.get]
  | [a, b, c, d] =>
    refine (parseSwitch_eq (hhead a rfl) (.ofNat 8 b) (.ofNat 8 c) (.ofNat 8 d)).trans ?_
    simp [stored]
  | a :: b :: c :: d :: e :: vs =>
    simp only [List.length_cons] at hlen
    omega

/-- A name with a component that cannot be read is rejected. -/
theorem parseip_eq_none {name : CString} (h : ∀ vs, ¬ ReadAs name.chars vs) (j : Address) :
    parseip name j = none := by
  unfold parseip
  cases hloop : parseLoop 4 0 name.chars j with
  | none => rfl
  | some r =>
    rw [← intercalate_components name.chars] at hloop
    obtain ⟨vs, hvs⟩ :=
      loose_of_parseLoop (fun c hc => dot_notMem_of_mem_components hc) hloop
    exact absurd hvs (h vs)

end Libtask
