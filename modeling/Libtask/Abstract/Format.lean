import Libtask.Base.Layout
import Libtask.Base.Numeral
import Libtask.Print

/-! What a format stands for: its characters and directives in order, and with arguments the fields
of text that it asks for. Nothing here knows of the buffer. -/
namespace Libtask

/-- A format as the scan takes it apart. After an unknown verb, or in a directive that the format
breaks off, there is nothing more. -/
inductive Format
  | stop
  | lit (c : Char) (rest : Format)
  | conv (sp : Spec) (v : Verb) (rest : Format)
  | unknown
  | cut

/-- The format from a place on; inside of a directive with what it has said so far. -/
def parse : Option Spec → List Char → Format
  | none, [] => .stop
  | some _, [] => .cut
  | none, c :: p => if c = '%' then parse (some {}) p else .lit c (parse none p)
  | some sp, c :: p =>
    match label c with
    | .minus => parse (some { sp with sign := -1 }) p
    | .digit d => parse (some { sp with size := int32 (sp.size * 10 + d) }) p
    | .long =>
      parse (some (if sp.fl.long then { sp with fl.longLong := true }
        else { sp with fl.long := true })) p
    | .unsigned => parse (some { sp with fl.unsigned := true }) p
    | .verb v => .conv sp v (parse none p)
    | .other => .unknown

/-- The number that an argument is, read as the flags say. -/
def argValue (fl : Flags) : Arg → ℤ
  | .word v => if fl.unsigned then v.toNat else v.toInt
  | .dword v => if fl.unsigned then v.toNat else v.toInt
  | .string _ => 0

/-- What stands before the digits of a number, other than its sign. -/
def numPrefix (base n : ℕ) : List Char :=
  (if base = 8 ∨ n = 0 then ['0'] else []) ++ if base = 16 then ['0', 'x'] else []

/-- The text of a number; `neg` is what the sign flag was before the number was looked at. -/
def numText (base : ℕ) (v : ℤ) (neg : ℤ) : List Char :=
  (if v < 0 ∨ neg ≠ 0 then ['-'] else []) ++ numPrefix base v.natAbs ++
    Numeral.digitsOf base v.natAbs

namespace Verb

def IsNum (v : Verb) : Prop := v = .d ∨ v = .o ∨ v = .p ∨ v = .x

instance (v : Verb) : Decidable v.IsNum := by unfold IsNum; infer_instance

/-- An argument of the type that the verb and its flags ask for. -/
def Takes (v : Verb) (fl : Flags) : Arg → Prop
  | .word _ => v = .c ∨ v.IsNum ∧ fl.longLong = false
  | .dword _ => v.IsNum ∧ fl.longLong = true
  | .string _ => v = .s

instance (v : Verb) (fl : Flags) : DecidablePred (v.Takes fl) := by
  intro a
  cases a <;> unfold Takes <;> infer_instance

/-- The text of an argument. -/
def argText (v : Verb) (fl : Flags) (neg : ℤ) (a : Arg) : List Char :=
  match v, a with
  | .c, .word i => cstr [Char.ofNat (i.toNat % 256), NUL]
  | .s, .string str => str.chars
  | v, a => numText v.base (argValue fl a) neg

end Verb

/-- The field of a text with the width `size` of C, which is put left if that is negative. -/
def cField (size : ℤ) (t : List Char) : Layout.Field Char :=
  ⟨t, (if size < 0 then int32 (-size) else size).toNat, decide (size < 0)⟩

def Spec.field (sp : Spec) (t : List Char) : Layout.Field Char :=
    cField (int32 (sp.size * sp.sign)) t

namespace Format

/-- The arguments are there that the directives take, with the types they ask for. -/
def Matches : Format → List Arg → Prop
  | .stop, _ | .unknown, _ | .cut, _ => True
  | .lit _ f, args => f.Matches args
  | .conv _ .r f, args => f.Matches args
  | .conv _ _ _, [] => False
  | .conv sp v f, a :: args => v.Takes sp.fl a ∧ f.Matches args

instance decidableMatches : (f : Format) → (args : List Arg) → Decidable (f.Matches args)
  | .stop, _ | .unknown, _ | .cut, _ => instDecidableTrue
  | .lit _ f, args => decidableMatches f args
  | .conv sp v f, args =>
    have := decidableMatches f
    by cases v <;> cases args <;> unfold Matches <;> infer_instance

/-- The format breaks off inside of a directive. -/
def IsCut : Format → Prop
  | .stop | .unknown => False
  | .cut => True
  | .lit _ f | .conv _ _ f => f.IsCut

instance decidableIsCut : (f : Format) → Decidable f.IsCut
  | .stop | .unknown => instDecidableFalse
  | .cut => instDecidableTrue
  | .lit _ f | .conv _ _ f => decidableIsCut f

/-- Every directive is complete. -/
def Complete : Format → Prop
  | .stop => True
  | .unknown | .cut => False
  | .lit _ f | .conv _ _ f => f.Complete

/-- The fields that the format asks for; `k` numbers have been printed before. -/
def fields (env : PrintEnv) : ℕ → Format → List Arg → List (Layout.Field Char)
  | _, .stop, _ | _, .cut, _ => []
  | _, .unknown, _ => "*verb*".toList.map fun c => .plain [c]
  | k, .lit c f, args => .plain [c] :: fields env k f args
  | k, .conv sp .r f, args => sp.field env.strerror.chars :: fields env k f args
  | _, .conv _ _ _, [] => []
  | k, .conv sp v f, a :: args =>
    sp.field (v.argText sp.fl (env.neg k) a) :: fields env (if v.IsNum then k + 1 else k) f args

instance decidableComplete : (f : Format) → Decidable f.Complete
  | .stop => instDecidableTrue
  | .unknown | .cut => instDecidableFalse
  | .lit _ f | .conv _ _ f => decidableComplete f

theorem Complete.not_isCut {f : Format} (h : f.Complete) : ¬ f.IsCut := by
  induction f with
  | stop => exact id
  | unknown => exact id
  | cut => exact h.elim
  | lit c f ih => exact ih h
  | conv sp v f ih => exact ih h

theorem matches_conv {sp : Spec} {v : Verb} {f : Format} {args : List Arg} (hv : v ≠ .r) :
    (conv sp v f).Matches args ↔
      ∃ a args', args = a :: args' ∧ v.Takes sp.fl a ∧ f.Matches args' := by
  cases args with
  | nil => cases v <;> simp_all [Matches]
  | cons a args => cases v <;> simp_all [Matches]

section
variable {env : PrintEnv} {k : ℕ} {sp : Spec} {v : Verb} {f : Format} {a : Arg} {args : List Arg}

@[simp] theorem fields_stop : fields env k .stop args = [] := rfl

@[simp] theorem fields_cut : fields env k .cut args = [] := rfl

@[simp] theorem fields_lit {c : Char} :
    fields env k (.lit c f) args = .plain [c] :: fields env k f args := rfl

theorem fields_conv_nil (hv : v ≠ .r) : fields env k (.conv sp v f) [] = [] := by
  cases v with
  | r => exact absurd rfl hv
  | d | o | p | x | c | s => rfl

theorem fields_conv (hv : v ≠ .r) :
    fields env k (.conv sp v f) (a :: args) = sp.field (v.argText sp.fl (env.neg k) a) ::
      fields env (if v.IsNum then k + 1 else k) f args := by
  cases v with
  | r => exact absurd rfl hv
  | d | o | p | x | c | s => rfl

end

/-- The turns of the outer loop. -/
def turns : Format → ℕ
  | .stop => 1
  | .lit _ f | .conv _ _ f => f.turns + 1
  | .unknown => 8
  | .cut => 2

end Format

/-- The fields of a format string with its arguments. -/
def fieldsOf (env : PrintEnv) (fmt : CString) (args : List Arg) : List (Layout.Field Char) :=
  (parse none fmt.chars).fields env 0 args

theorem parse_verb : parse none "*verb*".toList =
    .lit '*' (.lit 'v' (.lit 'e' (.lit 'r' (.lit 'b' (.lit '*' .stop))))) := rfl

theorem turns_parse_le (o : Option Spec) (p : List Char) : (parse o p).turns ≤ p.length + 8 := by
  induction p generalizing o with
  | nil => cases o <;> simp [parse, Format.turns]
  | cons c p ih =>
    have hle : ∀ o, (parse o p).turns ≤ (c :: p).length + 8 := by
      intro o
      have := ih o
      rw [List.length_cons]
      omega
    have hone : (parse none p).turns + 1 ≤ (c :: p).length + 8 := by
      have := ih none
      rw [List.length_cons]
      omega
    cases o with
    | none =>
      unfold parse
      split
      · exact hle _
      · exact hone
    | some sp =>
      unfold parse
      cases label c with
      | minus => exact hle _
      | digit d => exact hle _
      | long => exact hle _
      | unsigned => exact hle _
      | verb v => exact hone
      | other => simp [Format.turns]

end Libtask
