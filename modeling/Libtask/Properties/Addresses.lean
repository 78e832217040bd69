import Libtask.Refine.Net
import Libtask.Properties.Printing
import Libtask.Properties.Numbers

/-! Which names `parseip` takes for addresses, which bytes it stores, and that it reads back what
`netaccept` prints. -/
namespace Libtask

variable {vs : List ℕ}

theorem ReadAs.length_le {name : List Char} (h : ReadAs name vs) : vs.length ≤ 4 := by
  rw [← h.length_eq]
  exact length_readFirst_le 4 _

theorem ReadAs.ne_nil {name : List Char} (h : ReadAs name vs) (hne : name ≠ []) : vs ≠ [] := by
  intro hvs
  have hlen := h.length_eq
  rw [hvs, List.length_nil] at hlen
  exact readFirst_components_ne_nil hne (List.eq_nil_of_length_eq_zero hlen)

theorem readAs_nil : ReadAs [] [] := by
  unfold ReadAs
  rw [readFirst_components_nil]
  exact .nil

/-- Component values that pass are stored, whatever `addr` held. -/
theorem stored_ne_none_iff (hne : vs ≠ []) (hlen : vs.length ≤ 4) (j : Address) :
    stored vs j ≠ none ↔ CountPasses vs := by
  match vs with
  | [] => exact absurd rfl hne
  | [a] =>
    simp only [stored, CountPasses, List.length_nil]
    split_ifs <;> simp <;> omega
  | [a, d] =>
    simp only [stored, CountPasses, List.length_cons, List.length_nil]
    split_ifs <;> simp <;> omega
  | [a, b, d] =>
    simp only [stored, CountPasses, List.length_cons, List.length_nil]
    split_ifs <;> simp
  | [a, b, c, d] => simp [stored, CountPasses]
  | a :: b :: c :: d :: e :: vs =>
    simp only [List.length_cons] at hlen
    omega

/-- What a call of `parseip` with this name lets pass although it is not an address: the empty name,
if the garbage in `addr` is of the last class; a component that is empty or has blanks or a sign;
and what stands behind the last component that is looked at. -/
def Misread (name : List Char) (j : Address) : Prop :=
  name = [] ∧ CLASS j = 3 ∨
  ∃ vs, ReadAs name vs ∧ CountPasses vs ∧
    ((∃ c ∈ readFirst 4 (components name), ¬ Strict c) ∨
      readFirst 4 (components name) ≠ components name)

theorem not_strict_nil : ¬ Strict [] := by
  intro h
  obtain ⟨b, v, hlit, hv⟩ := h
  obtain ⟨d, ds, heq, hd⟩ := hlit.head
  cases heq

theorem WellFormed.readFirst_eq {name : List Char} (h : WellFormed name) :
    readFirst 4 (components name) = components name :=
  readFirst_eq_self (fun hnil => not_strict_nil (h.2 [] hnil)) h.1

theorem WellFormed.not_misread {name : List Char} (h : WellFormed name) (j : Address) :
    ¬ Misread name j := by
  intro hmis
  rcases hmis with ⟨rfl, hclass⟩ | ⟨vs, hread, hcount, ⟨c, hc, hstrict⟩ | hmore⟩
  · apply not_strict_nil
    apply h.2
    simp [components]
  · rw [h.readFirst_eq] at hc
    exact hstrict (h.2 c hc)
  · exact hmore h.readFirst_eq

/-- A name that is misread is taken for an address. -/
theorem parseip_of_misread {name : CString} {j : Address} (h : Misread name.chars j) :
    parseip name j ≠ none := by
  rcases h with ⟨hnil, hclass⟩ | ⟨vs, hread, hcount, hdefect⟩
  · have hread : ReadAs name.chars [] := by
      rw [hnil]
      exact readAs_nil
    rw [parseip_of_readAs hread]
    simp [stored, hclass]
  · have hne : vs ≠ [] := by
      rintro rfl
      exact hcount
    rw [parseip_of_readAs hread]
    exact (stored_ne_none_iff hne hread.length_le j).mpr hcount

/-- What is taken for an address without being misread is one. -/
theorem wellFormed_of_parseip {name : CString} {j : Address} (h : ¬ Misread name.chars j)
    (haccept : parseip name j ≠ none) : WellFormed name.chars := by
  by_cases hread : ∃ vs, ReadAs name.chars vs
  case neg =>
    exact absurd (parseip_eq_none (fun vs hvs => hread ⟨vs, hvs⟩) j) haccept
  case pos =>
    obtain ⟨vs, hvs⟩ := hread
    rw [parseip_of_readAs hvs] at haccept
    by_cases hnil : name.chars = []
    · have hvs' : vs = [] := by
        have hlen := hvs.length_eq
        rw [hnil, readFirst_components_nil] at hlen
        exact List.eq_nil_of_length_eq_zero hlen.symm
      subst hvs'
      have hclass : CLASS j = 3 := by
        by_contra hclass
        simp [stored, hclass] at haccept
      exact absurd (.inl ⟨hnil, hclass⟩) h
    · have hcount := (stored_ne_none_iff (hvs.ne_nil hnil) hvs.length_le j).mp haccept
      have hall : readFirst 4 (components name.chars) = components name.chars := by
        by_contra hmore
        exact h (.inr ⟨vs, hvs, hcount, .inr hmore⟩)
      constructor
      · rw [← hall]
        exact length_readFirst_le 4 _
      · intro c hc
        by_contra hstrict
        rw [← hall] at hc
        exact h (.inr ⟨vs, hvs, hcount, .inl ⟨c, hc, hstrict⟩⟩)

/-- `parseip` takes only complete addresses, and `netlookup` asks the name service for every other
name, just when the name is none of those that are misread. -/
theorem parseip_complete_iff (name : CString) (j : Address) :
    ((parseip name j ≠ none → WellFormed name.chars) ∧
      (¬ WellFormed name.chars → ∀ gethostbyname,
        netlookup gethostbyname name j = gethostbyname name)) ↔ ¬ Misread name.chars j := by
  constructor
  · intro h hmis
    exact (h.1 (parseip_of_misread hmis)).not_misread j hmis
  · intro h
    constructor
    · exact wellFormed_of_parseip h
    · intro hbad gethostbyname
      have hnone : parseip name j = none := by
        by_contra hsome
        exact hbad (wellFormed_of_parseip h hsome)
      unfold netlookup
      rw [hnone]

/-- A host name that starts with four numbers is taken for an address. -/
theorem parseip_host_name :
    let name : CString := ⟨"1.2.3.4.evil.com".toList, by decide, by decide⟩
    parseip name (.replicate 4 0) = some #v[1, 2, 3, 4] ∧ ¬ WellFormed name.chars := by
  constructor
  · decide +kernel
  · intro h
    have hlen := h.1
    simp [components, List.splitOn_cons_eq_if_modifyHead] at hlen

/-- The result of `parseip` comes from its name alone: it is the address that the component values
stand for, and without such values the name is rejected. -/
def Determined (name : CString) : Prop :=
  ∃ result, (∀ j, parseip name j = result) ∧ (∀ vs, ReadAs name.chars vs → result = layout vs) ∧
    ((∀ vs, ¬ ReadAs name.chars vs) → result = none)

/-- The garbage in `addr` is not seen where the values make up an address or are rejected. -/
theorem stored_eq_layout (hne : vs ≠ []) (hlen : vs.length ≤ 4)
    (h : ∀ a vs', vs = a :: vs' → 192 ≤ a → 3 ≤ vs'.length) (j : Address) :
    stored vs j = layout vs := by
  match vs with
  | [] => exact absurd rfl hne
  | [a] =>
    have h192 : a < 192 := by
      by_contra hge
      have := h a [] rfl (by omega)
      simp at this
    simp [stored, layout, h192]
  | [a, d] =>
    have h192 : a < 192 := by
      by_contra hge
      have := h a [d] rfl (by omega)
      simp at this
    simp [stored, layout, h192]
  | [a, b, d] =>
    have h192 : a < 192 := by
      by_contra hge
      have := h a [b, d] rfl (by omega)
      simp at this
    simp [stored, layout, h192]
  | [a, b, c, d] => rfl
  | a :: b :: c :: d :: e :: vs =>
    simp only [List.length_cons] at hlen
    omega

/-- A first value of the last class with fewer than four values leaves garbage in the last byte. -/
theorem stored_garbage {a : ℕ} (ha : 192 ≤ a) (hlen : vs.length < 3) (g : BitVec 8) :
    (stored (a :: vs) (.replicate 4 g)).map (fun ip => ip.get 3) = some g := by
  have h128 : ¬ a < 128 := by omega
  have h192 : ¬ a < 192 := by omega
  match vs with
  | [] =>
    rw [stored, if_neg h192]
    rfl
  | [d] =>
    rw [stored, if_neg h128, if_neg h192]
    rfl
  | [b, d] =>
    rw [stored, if_neg h128, if_neg h192]
    rfl
  | b :: c :: d :: vs =>
    simp only [List.length_cons] at hlen
    omega

/-- Different garbage makes different results. -/
theorem Determined.garbage {name : CString} {result : BitVec 8 → Option Address}
    (h : Determined name) (heq : ∀ g, parseip name (.replicate 4 g) = result g) :
    result 0 = result 255 := by
  obtain ⟨r, hr, -, -⟩ := h
  rw [← heq, ← heq, hr, hr]

/-- The result is determined by the name just when the name is not empty and no first component of
the last class is followed by fewer than three others. -/
theorem parseip_determined_iff (name : CString) :
    Determined name ↔ name.chars ≠ [] ∧
      ∀ a vs, ReadAs name.chars (a :: vs) → 192 ≤ a → 3 ≤ vs.length := by
  constructor
  case mp =>
    intro h
    constructor
    · intro hnil
      have hread : ReadAs name.chars [] := by
        rw [hnil]
        exact readAs_nil
      have hgarbage := h.garbage (fun g => parseip_of_readAs hread _)
      revert hgarbage
      decide
    · intro a vs hread ha
      by_contra hlen
      have hgarbage := h.garbage (fun g => parseip_of_readAs hread _)
      have hmap := congrArg (Option.map (fun ip : Address => ip.get 3)) hgarbage
      rw [stored_garbage ha (by omega), stored_garbage ha (by omega)] at hmap
      revert hmap
      decide
  case mpr =>
    intro h
    obtain ⟨hne, hclass⟩ := h
    by_cases hread : ∃ vs, ReadAs name.chars vs
    case pos =>
      obtain ⟨vs, hvs⟩ := hread
      have hstored : ∀ vs, ReadAs name.chars vs → ∀ j, parseip name j = layout vs := by
        intro vs hvs j
        rw [parseip_of_readAs hvs]
        apply stored_eq_layout (hvs.ne_nil hne) hvs.length_le
        rintro a vs' rfl
        exact hclass a vs' hvs
      refine ⟨layout vs, hstored vs hvs, ?_, ?_⟩
      · intro vs' hvs'
        rw [← hstored vs hvs (.replicate 4 0), hstored vs' hvs']
      · intro hno
        exact absurd hvs (hno vs)
    case neg =>
      have hno : ∀ vs, ¬ ReadAs name.chars vs := fun vs hvs => hread ⟨vs, hvs⟩
      exact ⟨none, parseip_eq_none hno, fun vs hvs => absurd hvs (hno vs), fun _ => rfl⟩

/-- Two missing bytes of an address of the last class are whatever was on the stack. -/
theorem parseip_garbage :
    let name : CString := ⟨"192.168".toList, by decide, by decide⟩
    parseip name #v[1, 2, 3, 4] = some #v[192, 168, 3, 4] ∧
      parseip name #v[5, 6, 7, 8] = some #v[192, 168, 7, 8] ∧ ¬ Determined name := by
  intro name
  have h1 : parseip name #v[1, 2, 3, 4] = some #v[192, 168, 3, 4] := by decide +kernel
  have h2 : parseip name #v[5, 6, 7, 8] = some #v[192, 168, 7, 8] := by decide +kernel
  refine ⟨h1, h2, ?_⟩
  intro h
  obtain ⟨r, hr, -, -⟩ := h
  rw [hr] at h1 h2
  rw [h1] at h2
  revert h2
  decide

/-! What `netaccept` prints -/

/-- The usual text of an address. -/
def addressText (ip : Address) : List Char :=
  List.intercalate ['.'] (ip.toList.map fun b => decimal b.toNat)

theorem decimal_natCast (n : ℕ) : decimal n = Nat.toDigits 10 n := by
  unfold decimal
  rw [if_neg (by omega), List.nil_append, Int.natAbs_natCast]

theorem toDigits_eq_numeral (n : ℕ) :
    Nat.toDigits 10 n = if n = 0 then ['0'] else Numeral.digitsOf 10 n := by
  rcases Nat.eq_zero_or_pos n with rfl | hpos
  · rfl
  · rw [if_neg (by omega), Numeral.digitsOf_of_pos hpos]

/-- A number in decimal is a literal with its value, zero as an octal one. -/
theorem literal_decimal (n : ℕ) : ∃ b, Numeral.Literal b (decimal n) n := by
  rw [decimal_natCast, toDigits_eq_numeral]
  rcases Nat.eq_zero_or_pos n with rfl | hpos
  · exact ⟨8, .octal (by simp)⟩
  · rw [if_neg (by omega)]
    have hlit := Numeral.Literal.decimal (Numeral.digitsOf_ne_nil (b := 10) hpos)
      (Numeral.head_digitsOf (by omega) (by omega) n)
      (Numeral.isDigit_of_mem_digitsOf (by omega) (by omega) n)
    rw [Numeral.value_digitsOf (by omega) (by omega)] at hlit
    exact ⟨10, hlit⟩

theorem loose_decimal {n : ℕ} (h : n ≤ 255) : Loose (decimal n) n := by
  obtain ⟨b, hlit⟩ := literal_decimal n
  have hblanks : ∀ c ∈ ([] : List Char), Numeral.IsSpace c := by simp
  exact .number hblanks .none hlit (by omega) (by simp) h

theorem length_decimal_le {n : ℕ} (h : n ≤ 255) : (decimal n).length ≤ 3 := by
  rw [decimal_natCast]
  exact (Nat.length_toDigits_le_iff (by omega) (by omega)).mpr (by omega)

theorem dot_notMem_decimal (n : ℕ) : '.' ∉ decimal n := by
  obtain ⟨b, hlit⟩ := literal_decimal n
  exact dot_notMem_literal hlit

theorem decimal_ne_nil (n : ℕ) : decimal n ≠ [] := by
  obtain ⟨b, hlit⟩ := literal_decimal n
  obtain ⟨d, ds, heq, -⟩ := hlit.head
  rw [heq]
  simp

/-- The components of the text are the bytes in decimal. -/
theorem components_addressText (ip : Address) :
    components (addressText ip) = ip.toList.map fun b => decimal b.toNat := by
  unfold components addressText
  apply List.splitOn_intercalate
  · intro c hc
    obtain ⟨b, hb, rfl⟩ := List.mem_map.mp hc
    exact dot_notMem_decimal _
  · simp

theorem readAs_addressText (ip : Address) :
    ReadAs (addressText ip) (ip.toList.map BitVec.toNat) := by
  unfold ReadAs
  rw [components_addressText, readFirst_eq_self]
  · rw [List.forall₂_map_left_iff, List.forall₂_map_right_iff, List.forall₂_same]
    intro b hb
    have hlt := b.isLt
    exact loose_decimal (by omega)
  · intro hmem
    obtain ⟨b, hb, heq⟩ := List.mem_map.mp hmem
    exact decimal_ne_nil _ heq
  · simp

/-- Reading the usual text of an address gives the address. -/
theorem parseip_addressText {name : CString} {ip : Address} (h : name.chars = addressText ip)
    (j : Address) : parseip name j = some ip := by
  have hread := readAs_addressText ip
  rw [← h] at hread
  rw [parseip_of_readAs hread]
  obtain ⟨a, b, c, d, rfl⟩ := exists_ofBytes ip
  change stored [a.toNat, b.toNat, c.toNat, d.toNat] j = _
  simp [stored]

theorem parse_addressFormat : parse none addressFormat.chars =
    .conv {} .d (.lit '.' (.conv {} .d (.lit '.' (.conv {} .d (.lit '.' (.conv {} .d .stop)))))) :=
  rfl

/-- Without a stray sign a byte is printed in decimal. -/
theorem argText_byte (b : BitVec 8) :
    Verb.argText .d {} 0 (.word (b.setWidth 32)) = decimal b.toNat := by
  have hlt := b.isLt
  have hnat : (b.setWidth 32).toNat = b.toNat := BitVec.toNat_setWidth_of_le (by omega)
  have hval : argValue {} (.word (b.setWidth 32)) = b.toNat := by
    have hcond := BitVec.toInt_eq_toNat_cond (b.setWidth 32)
    rw [hnat, if_pos (by omega)] at hcond
    exact hcond
  have htext : Verb.argText .d {} 0 (.word (b.setWidth 32)) =
      numText 10 (argValue {} (.word (b.setWidth 32))) 0 := rfl
  rw [htext, hval, numText_ten]
  unfold decimal
  simp

theorem field_default (t : List Char) : ({} : Spec).field t = .plain t := by
  have hzero : int32 0 = 0 := int32_eq (by omega) (by omega)
  simp [Spec.field, cField, Layout.Field.plain, hzero]

theorem matches_addressFormat (ip : Address) : (parse none addressFormat.chars).Matches
    (ip.toList.map fun b => .word (b.setWidth 32)) := by
  obtain ⟨a, b, c, d, rfl⟩ := exists_ofBytes ip
  rw [parse_addressFormat]
  simp [ofBytes, Format.Matches, Verb.Takes, Verb.IsNum]

/-- The fields of an address: its bytes in decimal, and the dots. -/
theorem fieldsOf_addressFormat {env : PrintEnv} (hclear : ∀ k, env.neg k = 0) (a b c d : BitVec 8) :
    fieldsOf env addressFormat ((ofBytes a b c d).toList.map fun b => .word (b.setWidth 32)) =
      [.plain (decimal a.toNat), .plain ['.'], .plain (decimal b.toNat), .plain ['.'],
        .plain (decimal c.toNat), .plain ['.'], .plain (decimal d.toNat)] := by
  have hargs : ((ofBytes a b c d).toList.map fun b => Arg.word (b.setWidth 32)) =
      [.word (a.setWidth 32), .word (b.setWidth 32), .word (c.setWidth 32),
        .word (d.setWidth 32)] := rfl
  unfold fieldsOf
  rw [parse_addressFormat, hargs]
  simp only [Format.fields_conv (show Verb.d ≠ .r by decide), Format.fields_lit, Format.fields_stop,
    hclear, argText_byte, field_default]

/-- The text that `netaccept` prints for its peer is the usual one and fits into its 16 bytes with
the NUL, if the sign flag reads as clear; `parseip` gets the same address back from it. -/
theorem address_round_trip (env : PrintEnv) (hclear : ∀ k, env.neg k = 0)
    (server : Vector Char 16) (ip : Address) :
    ∃ name : CString, name.chars = addressText ip ∧ name.chars.length + 1 ≤ 16 ∧
      (netacceptServer env server ip).map cstr = .ok name.chars ∧
      ∀ j, parseip name j = some ip ∧
        ∀ gethostbyname, netlookup gethostbyname name j = some ip := by
  have hbyte : ∀ b : BitVec 8, (decimal b.toNat).length ≤ 3 := by
    intro b
    have hlt := b.isLt
    exact length_decimal_le (by omega)
  set fs := fieldsOf env addressFormat (ip.toList.map fun b => .word (b.setWidth 32)) with hfs
  obtain ⟨a, b, c, d, hip⟩ := exists_ofBytes ip
  have hfields := fieldsOf_addressFormat hclear a b c d
  rw [← hip, ← hfs] at hfields
  have hsize : Layout.size fs ≤ 15 := by
    rw [hfields]
    simp only [Layout.size_cons, Layout.size_nil, Layout.Field.size_plain, List.length_singleton]
    have h0 := hbyte a
    have h1 := hbyte b
    have h2 := hbyte c
    have h3 := hbyte d
    omega
  have hfull : Layout.full ' ' fs = addressText ip := by
    have hlist : ip.toList = [a, b, c, d] := by
      rw [hip]
      rfl
    rw [hfields]
    unfold addressText
    rw [hlist]
    simp [List.intercalate_cons_of_ne_nil]
  have hprint : (netacceptServer env server ip).map cstr = .ok (Layout.fit ' ' (16 - 1) fs) :=
    map_cstr_vsnprint (by decide) (matches_addressFormat ip) (by omega) server
  have hfit : Layout.fit ' ' (16 - 1) fs = addressText ip := by
    rw [Layout.fit_of_le ' ' hsize, hfull]
  have hnul := nul_notMem_fit env addressFormat (ip.toList.map fun b => .word (b.setWidth 32)) 15
  have hlen : (addressText ip).length ≤ 15 := by
    rw [← hfull, Layout.length_full]
    exact hsize
  rw [← hfs] at hnul
  rw [hfit] at hnul hprint
  have hlt : (addressText ip).length < PTRDIFF_MAX := Nat.lt_of_le_of_lt hlen (by decide)
  let name : CString := ⟨addressText ip, hnul, hlt⟩
  have hparse : ∀ j, parseip name j = some ip := parseip_addressText rfl
  refine ⟨name, rfl, Nat.succ_le_succ hlen, hprint, ?_⟩
  intro j
  refine ⟨hparse j, ?_⟩
  intro gethostbyname
  unfold netlookup
  rw [hparse]

/-- The longest text fills the buffer. -/
theorem address_round_trip_longest :
    let env : PrintEnv := ⟨⟨[], by decide, by decide⟩, fun _ => 0⟩
    let ip : Address := #v[255, 255, 255, 254]
    ∃ name : CString, name.chars = addressText ip ∧ name.chars.length + 1 ≤ 16 ∧
      (netacceptServer env (.replicate 16 'z') ip).map cstr = .ok name.chars ∧
      ∀ j, parseip name j = some ip ∧
        ∀ gethostbyname, netlookup gethostbyname name j = some ip :=
  address_round_trip _ (fun _ => rfl) _ _

end Libtask
