import Libtask.Refine.Print

/-! What a call of `vsnprint` reads and writes, and what it leaves in buffers of different sizes. -/
namespace Libtask

variable {env : PrintEnv} {fmt : CString} {args : List Arg} {n m : ℕ}

theorem nul_notMem_argText (v : Verb) (fl : Flags) (neg : ℤ) (a : Arg) :
    NUL ∉ v.argText fl neg a := by
  unfold Verb.argText
  split
  · exact nul_notMem_cstr _
  · rename_i str
    exact str.nul_notMem
  · exact nul_notMem_numText v.base_mem

/-- No field has a NUL in its text. -/
theorem nul_notMem_fields (env : PrintEnv) {o : Option Spec} {p : List Char} (hp : NUL ∉ p)
    (k : ℕ) (args : List Arg) : ∀ f ∈ (parse o p).fields env k args, NUL ∉ f.text := by
  induction p generalizing o k args with
  | nil => cases o <;> simp [parse]
  | cons c p ih =>
    have hc : NUL ≠ c := fun h => hp (by simp [h])
    have htail : NUL ∉ p := fun h => hp (by simp [h])
    cases o with
    | none =>
      unfold parse
      split
      · exact ih htail k args
      · intro f hf
        rcases List.mem_cons.mp hf with rfl | hf
        · simpa [Layout.Field.plain] using hc
        · exact ih htail k args f hf
    | some sp =>
      unfold parse
      cases label c with
      | minus => exact ih htail k args
      | digit d => exact ih htail k args
      | long => exact ih htail k args
      | unsigned => exact ih htail k args
      | other =>
        intro f hf
        obtain ⟨x, hx, rfl⟩ := List.mem_map.mp hf
        have hverb : NUL ∉ "*verb*".toList := by decide
        have hne : NUL ≠ x := fun h => hverb (h ▸ hx)
        simpa [Layout.Field.plain] using hne
      | verb v =>
        by_cases hv : v = .r
        · subst hv
          intro f hf
          rcases List.mem_cons.mp hf with rfl | hf
          · exact env.strerror.nul_notMem
          · exact ih htail k args f hf
        · cases args with
          | nil =>
            intro f hf
            rw [Format.fields_conv_nil hv] at hf
            cases hf
          | cons a args =>
            simp only
            rw [Format.fields_conv hv]
            intro f hf
            rcases List.mem_cons.mp hf with rfl | hf
            · exact nul_notMem_argText v sp.fl (env.neg k) a
            · exact ih htail _ args f hf

theorem nul_notMem_fit (env : PrintEnv) (fmt : CString) (args : List Arg) (r : ℕ) :
    NUL ∉ Layout.fit ' ' r (fieldsOf env fmt args) := by
  intro h
  rcases Layout.mem_fit ' ' h with h | ⟨f, hf, h⟩
  · revert h
    decide
  · exact nul_notMem_fields env fmt.nul_notMem 0 args f hf h

/-- What `vsnprint` leaves in `n` bytes. -/
theorem vsnprint_eq (hm : (parse none fmt.chars).Matches args) (hn : 0 < n)
    (dst : Vector Char n) :
    vsnprint env n dst fmt args =
      if (parse none fmt.chars).IsCut ∧ Layout.size (fieldsOf env fmt args) < n - 1 then
        .error .scanPastEnd
      else .ok (overlay dst.toList (Layout.fit ' ' (n - 1) (fieldsOf env fmt args) ++ [NUL])) := by
  have hlen : dst.toList.length = n := by simp
  have hne : dst.toList ≠ [] := by
    rw [← List.length_pos_iff, hlen]
    exact hn
  have heq := vseprint_eq env (le_refl (scanFuel fmt)) hm hne
  rw [hlen] at heq
  exact heq

/-- Unless the format breaks off in a directive, the text printed is that of its fields. -/
theorem map_cstr_vsnprint (hc : ¬ (parse none fmt.chars).IsCut)
    (hm : (parse none fmt.chars).Matches args) (hn : 0 < n) (dst : Vector Char n) :
    (vsnprint env n dst fmt args).map cstr =
      .ok (Layout.fit ' ' (n - 1) (fieldsOf env fmt args)) := by
  rw [vsnprint_eq hm hn, if_neg (fun h => hc h.1)]
  unfold overlay
  rw [List.append_assoc]
  exact congrArg Except.ok (cstr_append_nul (nul_notMem_fit env fmt args _) _)

/-- Every byte is written inside of the buffer, and the text ends in a NUL there; what is behind
that is not touched. A program has only buffers of `n ≤ PTRDIFF_MAX` bytes. -/
theorem vsnprint_in_bounds (env : PrintEnv) (fmt : CString)
    (hc : ¬ (parse none fmt.chars).IsCut) (args : List Arg)
    (hm : (parse none fmt.chars).Matches args) (n : ℕ) (hn : 0 < n) (dst : Vector Char n) :
    let text := Layout.fit ' ' (n - 1) (fieldsOf env fmt args)
    vsnprint env n dst fmt args = .ok (text ++ NUL :: dst.toList.drop (text.length + 1)) ∧
      text.length < n ∧ NUL ∉ text := by
  intro text
  have hlen : text.length = min (Layout.size (fieldsOf env fmt args)) (n - 1) :=
    Layout.length_fit ' '
  have heq : vsnprint env n dst fmt args =
      .ok (text ++ NUL :: dst.toList.drop (text.length + 1)) := by
    rw [vsnprint_eq hm hn, if_neg (fun h => hc h.1)]
    unfold overlay
    rw [List.append_assoc, List.length_append]
    rfl
  exact ⟨heq, by omega, nul_notMem_fit _ _ _ _⟩

/-- A field with blanks on the left, one with blanks on the right and an unknown verb, in a buffer
that is too small for them. -/
theorem vsnprint_in_bounds_small :
    let env : PrintEnv := ⟨⟨[], by decide, by decide⟩, fun _ => 1⟩
    let fmt : CString := ⟨"%9d%-4294967290s%q".toList, by decide, by decide⟩
    let args := [.word (-7), .string ⟨"abc".toList, by decide, by decide⟩]
    let text := Layout.fit ' ' (12 - 1) (fieldsOf env fmt args)
    vsnprint env 12 (.replicate 12 'z') fmt args =
        .ok (text ++ NUL :: (Vector.replicate 12 'z').toList.drop (text.length + 1)) ∧
      text.length < 12 ∧ NUL ∉ text :=
  vsnprint_in_bounds _ _ (by decide) _ (by decide) 12 (by decide) _

/-- The digits of a number fit into `buf`, and the loop that writes them ends. -/
theorem digitLoop_ends {base luv fuel : ℕ} (hb : base = 8 ∨ base = 10 ∨ base = 16)
    (hluv : luv < 2 ^ 64) (hfuel : 22 < fuel) :
    ∃ ds, digitLoop base fuel luv [NUL] = .ok (ds ++ [NUL]) ∧ ds.length ≤ 22 := by
  have hlen := length_digitsOf_le_22 hb hluv
  refine ⟨Numeral.digitsOf base luv, digitLoop_eq (by omega) (by omega) (by omega) ?_, hlen⟩
  unfold sizeofBuf
  rw [List.length_singleton]
  omega

/-- The block `num` keeps inside of `buf` for every number, base and value of the sign flag: its
loop ends after at most 22 digits, and what it hands to `printstr` is a string that ends in
`buf`. -/
theorem num_in_buf {base : ℕ} (hb : base = 8 ∨ base = 10 ∨ base = 16) :
    (∀ luv < 2 ^ 64, ∀ fuel, 22 < fuel →
      ∃ ds, digitLoop base fuel luv [NUL] = .ok (ds ++ [NUL]) ∧ ds.length ≤ 22) ∧
    ∀ fl luv neg, ∃ text, num base fl luv neg = .ok (text ++ [NUL]) ∧ NUL ∉ text ∧
      (text ++ [NUL]).length ≤ sizeofBuf := by
  constructor
  · exact fun luv hluv fuel hfuel => digitLoop_ends hb hluv hfuel
  · intro fl luv neg
    refine ⟨_, num_eq hb fl luv neg, nul_notMem_numText hb, ?_⟩
    have hlen : (numText base (luvValue fl luv) neg).length ≤ 26 :=
      length_numText_le hb (natAbs_luvValue_lt fl luv)
    unfold sizeofBuf
    rw [List.length_append, List.length_singleton]
    omega

/-- Base 8 has the longest numbers. -/
theorem num_in_buf_octal :
    (∀ luv < 2 ^ 64, ∀ fuel, 22 < fuel →
      ∃ ds, digitLoop 8 fuel luv [NUL] = .ok (ds ++ [NUL]) ∧ ds.length ≤ 22) ∧
    ∀ fl luv neg, ∃ text, num 8 fl luv neg = .ok (text ++ [NUL]) ∧ NUL ∉ text ∧
      (text ++ [NUL]).length ≤ sizeofBuf :=
  num_in_buf (.inl rfl)

/-- A sign that an unsigned number keeps, the marker and 22 digits. -/
example : num 8 { unsigned := true } (-1) 1 =
    .ok ("-01777777777777777777777".toList ++ [NUL]) := by decide

/-- Whatever `vseprint` reads through its scan pointer is in the format, and the scan ends. -/
def ScanInside (env : PrintEnv) (fmt : CString) (args : List Arg) (dst : List Char) : Prop :=
  ∀ fuel ≥ scanFuel fmt, vseprint env fuel dst fmt args ≠ .error .scanPastEnd ∧
    vseprint env fuel dst fmt args ≠ .error .diverge

/-- The scan leaves the format just when it comes to a directive that the format breaks off: when
the fields before that directive leave room in the buffer. -/
theorem scanInside_iff (env : PrintEnv) (fmt : CString) (args : List Arg)
    (hm : (parse none fmt.chars).Matches args) (dst : List Char) (hd : 0 < dst.length) :
    ScanInside env fmt args dst ↔
      ¬ ((parse none fmt.chars).IsCut ∧ Layout.size (fieldsOf env fmt args) < dst.length - 1) := by
  have hne : dst ≠ [] := List.length_pos_iff.mp hd
  constructor
  · intro h hcut
    have heq := vseprint_eq env (le_refl (scanFuel fmt)) hm hne
    rw [if_pos hcut] at heq
    exact (h _ (le_refl _)).1 heq
  · intro hcut fuel hfuel
    have heq := vseprint_eq env hfuel hm hne
    rw [if_neg hcut] at heq
    rw [heq]
    simp

theorem scanInside_iff_cut :
    let env : PrintEnv := ⟨⟨[], by decide, by decide⟩, fun _ => 0⟩
    let fmt : CString := ⟨"ab%-5lu".toList, by decide, by decide⟩
    ScanInside env fmt [] (List.replicate 3 'z') ↔
      ¬ ((parse none fmt.chars).IsCut ∧
        Layout.size (fieldsOf env fmt []) < (List.replicate 3 'z').length - 1) :=
  scanInside_iff _ _ [] (by decide) _ (by decide)

/-- With one more byte of room the same format is read beyond its NUL. -/
theorem scan_past_end :
    let env : PrintEnv := ⟨⟨[], by decide, by decide⟩, fun _ => 0⟩
    let fmt : CString := ⟨"ab%-5lu".toList, by decide, by decide⟩
    (parse none fmt.chars).Matches [] ∧ ¬ ScanInside env fmt [] (List.replicate 4 'z') := by
  constructor
  · decide
  · intro h
    exact (h _ (le_refl _)).1 (by decide)

/-- In a smaller buffer stands the start of what a larger one holds, unless a field that is put
right reaches over its end: that field gives up its blanks first. A program has only buffers of up
to `PTRDIFF_MAX` bytes. -/
theorem vsnprint_truncates (env : PrintEnv) (fmt : CString) (hc : (parse none fmt.chars).Complete)
    (args : List Arg) (hm : (parse none fmt.chars).Matches args) {n m : ℕ} (hn : 1 ≤ n)
    (hnm : n ≤ m) (dst : Vector Char n) (dst' : Vector Char m) :
    ∃ s t, (vsnprint env n dst fmt args).map cstr = .ok s ∧
      (vsnprint env m dst' fmt args).map cstr = .ok t ∧
      let Straddles pre (f : Layout.Field Char) post := fieldsOf env fmt args = pre ++ f :: post ∧
        f.Padded ∧ Layout.size pre < n - 1 ∧ n - 1 < Layout.size pre + f.size
      ((∀ pre f post, ¬ Straddles pre f post) → s = t.take (n - 1)) ∧
      ∀ pre f post, Straddles pre f post →
        s = t.take (Layout.size pre) ++
          List.replicate (n - 1 - Layout.size pre - f.text.length) ' ' ++
          f.text.take (n - 1 - Layout.size pre) := by
  have hcut : ¬ (parse none fmt.chars).IsCut := hc.not_isCut
  refine ⟨_, _, map_cstr_vsnprint hcut hm (by omega) dst, map_cstr_vsnprint hcut hm (by omega) dst',
    ?_, ?_⟩
  · intro h
    apply Layout.fit_take ' ' _ (by omega)
    rw [Layout.clean_iff]
    intro pre f post heq hp hlt
    by_contra hgt
    exact h pre f post ⟨heq, hp, hlt, by omega⟩
  · intro pre f post h
    obtain ⟨heq, hp, hlo, hhi⟩ := h
    rw [heq, Layout.take_fit ' ' (by omega), Layout.fit_of_padded ' ' hp (by omega) (by omega),
      List.append_assoc]

/-- A field put right that is cut in its text. -/
theorem vsnprint_truncates_cut :
    let env : PrintEnv := ⟨⟨[], by decide, by decide⟩, fun _ => 0⟩
    let fmt : CString := ⟨"a%5s".toList, by decide, by decide⟩
    let args := [.string ⟨"bcd".toList, by decide, by decide⟩]
    ∃ s t, (vsnprint env 4 (.replicate 4 'z') fmt args).map cstr = .ok s ∧
      (vsnprint env 9 (.replicate 9 'z') fmt args).map cstr = .ok t ∧
      let Straddles pre (f : Layout.Field Char) post := fieldsOf env fmt args = pre ++ f :: post ∧
        f.Padded ∧ Layout.size pre < 4 - 1 ∧ 4 - 1 < Layout.size pre + f.size
      ((∀ pre f post, ¬ Straddles pre f post) → s = t.take (4 - 1)) ∧
      ∀ pre f post, Straddles pre f post →
        s = t.take (Layout.size pre) ++
          List.replicate (4 - 1 - Layout.size pre - f.text.length) ' ' ++
          f.text.take (4 - 1 - Layout.size pre) :=
  vsnprint_truncates _ _ (by decide) _ (by decide) (by decide) (by decide) _ _

/-- Six bytes show the text of a field whose first six bytes are blanks in a larger buffer. -/
theorem vsnprint_not_prefix :
    let env : PrintEnv := ⟨⟨[], by decide, by decide⟩, fun _ => 0⟩
    let fmt : CString := ⟨"%10s".toList, by decide, by decide⟩
    let args := [.string ⟨"abc".toList, by decide, by decide⟩]
    (parse none fmt.chars).Complete ∧ (parse none fmt.chars).Matches args ∧
      (vsnprint env 6 (.replicate 6 'z') fmt args).map cstr = .ok "  abc".toList ∧
      (vsnprint env 20 (.replicate 20 'z') fmt args).map cstr = .ok "       abc".toList ∧
      "  abc".toList ≠ "       abc".toList.take (6 - 1) := by
  decide

end Libtask
