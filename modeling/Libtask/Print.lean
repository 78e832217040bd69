import Libtask.Text

/-! The formatted printing of print.c. A buffer is the list of the bytes from `dst` to `edst`, and
a pointer into it is its distance from `dst`. -/
namespace Libtask

/-- What must not happen while a format is worked through. -/
inductive PrintFault
  /-- the format is read beyond its NUL -/
  | scanPastEnd
  /-- a byte is written outside of the buffer -/
  | overrun
  /-- a byte is written outside of `buf`, where numbers are put together -/
  | numOverrun
  /-- a string or the table of digits is read beyond its end -/
  | readPastEnd
  /-- an argument is missing or has another type -/
  | badArg
  | assertFailed
  | diverge
  deriving DecidableEq

/-- `FlagLong`, `FlagLongLong` and `FlagUnsigned`. -/
structure Flags where
  long : Bool := false
  longLong : Bool := false
  unsigned : Bool := false
  deriving DecidableEq

/-- An argument: `int`, `long` and their unsigned types have 32 bits, `vlong` and `uvlong` 64. -/
inductive Arg
  | word (v : BitVec 32)
  | dword (v : BitVec 64)
  | string (s : CString)
  deriving DecidableEq

/-- What a call finds around it: the text of `strerror(errno)`, and what the local `neg` holds
when its block is entered for the n-th time. The code does not initialise it. -/
structure PrintEnv where
  strerror : CString
  neg : ℕ → ℤ

/-- The bytes `t` are written from `off` on. -/
def store (buf : List Char) (off : ℤ) (t : List Char) : Except PrintFault (List Char) :=
  if 0 ≤ off ∧ off + t.length ≤ buf.length then
    .ok (buf.take off.toNat ++ t ++ buf.drop (off.toNat + t.length))
  else .error .overrun

/-- `memset(dst + off, c, n)` -/
def memset (buf : List Char) (off : ℤ) (c : Char) (n : ℤ) : Except PrintFault (List Char) :=
  if off + size_t n ≤ buf.length then store buf off (List.replicate (size_t n) c)
  else .error .overrun

/-- `memmove(dst + off, s, n)` -/
def memmove (buf : List Char) (off : ℤ) (s : List Char) (n : ℤ) :
    Except PrintFault (List Char) :=
  if size_t n ≤ s.length + 1 then store buf off ((s ++ [NUL]).take (size_t n))
  else .error .readPastEnd

/-- `printstr(dst, edst, s, size)`, with the place behind what was written. -/
def printstr (buf : List Char) (dst : ℤ) (s : List Char) (size : ℤ) :
    Except PrintFault (List Char × ℤ) := do
  let sign : ℤ := if size < 0 then -1 else 1
  let size := if size < 0 then int32 (-size) else size
  if dst ≥ buf.length then return (buf, dst)
  let l := int32 s.length
  let n := if l < size then size else l
  let n := if n ≥ buf.length - dst then buf.length - dst - 1 else n
  let l := if l > n then n else l
  if sign < 0 then
    let buf ← memmove buf dst s l
    let buf ← if n - l ≠ 0 then memset buf (dst + l) ' ' (n - l) else pure buf
    return (buf, dst + n)
  else
    let buf ← if n - l ≠ 0 then memset buf dst ' ' (n - l) else pure buf
    let buf ← memmove buf (dst + n - l) s l
    return (buf, dst + n)

/-- The value of the argument that the flags select, widened to `uvlong`. -/
def vaArg (fl : Flags) : List Arg → Except PrintFault (BitVec 64 × List Arg)
  | .dword v :: arg => if fl.longLong then .ok (v, arg) else .error .badArg
  | .word v :: arg =>
    if fl.longLong then .error .badArg
    else .ok (if fl.unsigned then v.setWidth 64 else v.signExtend 64, arg)
  | _ => .error .badArg

def digits : List Char := "0123456789abcdef".toList

/-- `char buf[30]` of the block of numbers; it is filled from its end. -/
def sizeofBuf : ℕ := 30

/-- `*--p = c` -/
def push (c : Char) (p : List Char) : Except PrintFault (List Char) :=
  if p.length < sizeofBuf then .ok (c :: p) else .error .numOverrun

/-- `while (luv)`: each turn writes a digit; `p` is what stands in `buf` so far. -/
def digitLoop (base : ℕ) : (fuel : ℕ) → (luv : ℕ) → (p : List Char) →
    Except PrintFault (List Char)
  | 0, _, _ => .error .diverge
  | fuel + 1, luv, p =>
    if luv = 0 then .ok p
    else match digits[luv % base]? with
      | none => .error .readPastEnd
      | some c => do
        let p ← push c p
        digitLoop base fuel (luv / base) p

/-- The block `num`: the bytes it leaves at the end of `buf`, up to the NUL. -/
def num (base : ℕ) (fl : Flags) (luv : BitVec 64) (neg : ℤ) : Except PrintFault (List Char) := do
  let negative := !fl.unsigned && decide (luv.toInt < 0)
  let neg := if negative then 1 else neg
  let luv := if negative then -luv else luv
  let zero := luv = 0
  let p ← push NUL []
  let p ← digitLoop base 64 luv.toNat p
  let p ← if base = 16 then do push '0' (← push 'x' p) else pure p
  let p ← if base = 8 ∨ zero then push '0' p else pure p
  if neg ≠ 0 then push '-' p else pure p

/-- The verbs that print an argument or an error text. -/
inductive Verb
  | d | o | p | x | c | s | r
  deriving DecidableEq

def Verb.base : Verb → ℕ
  | .d => 10
  | .o => 8
  | _ => 16

/-- The labels of the inner `switch`. -/
inductive Label
  | minus
  | digit (d : ℕ)
  | long
  | unsigned
  | verb (v : Verb)
  | other
  deriving DecidableEq

def label (c : Char) : Label :=
  if c = '-' then .minus
  else if '0' ≤ c ∧ c ≤ '9' then .digit (c.toNat - '0'.toNat)
  else if c = 'l' then .long
  else if c = 'u' then .unsigned
  else if c = 'd' then .verb .d
  else if c = 'o' then .verb .o
  else if c = 'p' then .verb .p
  else if c = 'x' then .verb .x
  else if c = 'c' then .verb .c
  else if c = 's' then .verb .s
  else if c = 'r' then .verb .r
  else .other

/-- What a directive has said so far. -/
structure Spec where
  fl : Flags := {}
  size : ℤ := 0
  sign : ℤ := 1
  deriving DecidableEq

/-- Where `vseprint` is: the buffer, the place `w` in it, the arguments to come, and how often the
block of numbers was entered. -/
structure Printer where
  buf : List Char
  w : ℤ
  arg : List Arg
  nums : ℕ := 0
  deriving DecidableEq

/-- `w = printstr(w, edst, s, size * sign)` -/
def Printer.print (st : Printer) (sp : Spec) (s : List Char) : Except PrintFault Printer := do
  let (buf, w) ← printstr st.buf st.w s (int32 (sp.size * sp.sign))
  return { st with buf, w }

/-- What a verb does. -/
def Printer.verb (env : PrintEnv) (sp : Spec) (st : Printer) (v : Verb) :
    Except PrintFault Printer :=
  match v with
  | .d | .o | .p | .x => do
    let (luv, arg) ← vaArg sp.fl st.arg
    let p ← num v.base sp.fl luv (env.neg st.nums)
    { st with arg, nums := st.nums + 1 }.print sp (cstr p)
  | .c =>
    match st.arg with
    | .word i :: arg => { st with arg }.print sp (cstr [Char.ofNat (i.toNat % 256), NUL])
    | _ => .error .badArg
  | .s =>
    match st.arg with
    | .string s :: arg => { st with arg }.print sp s.chars
    | _ => .error .badArg
  | .r => st.print sp env.strerror.chars

/-- The inner loop over a directive, with `p` where the scan stands when it is left. -/
def directive (env : PrintEnv) : (p : List Char) → Spec → Printer →
    Except PrintFault (List Char × Printer)
  | [], _, st => .ok ([], st)
  | c :: p, sp, st =>
    match label c with
    | .minus => directive env p { sp with sign := -1 } st
    | .digit d => directive env p { sp with size := int32 (sp.size * 10 + d) } st
    | .long =>
      if sp.fl.long then directive env p { sp with fl.longLong := true } st
      else directive env p { sp with fl.long := true } st
    | .unsigned => directive env p { sp with fl.unsigned := true } st
    | .verb v => do
      let st ← st.verb env sp v
      return (c :: p, st)
    | .other => .ok ("X*verb*".toList, st)

/-- `p++`; behind the NUL there is nothing to read. -/
def advance : List Char → Option (List Char)
  | [] => none
  | _ :: p => some p

/-- The outer loop; each turn moves `p` on. -/
def scan (env : PrintEnv) : (fuel : ℕ) → (p : Option (List Char)) → Printer →
    Except PrintFault Printer
  | 0, _, _ => .error .diverge
  | _ + 1, none, _ => .error .scanPastEnd
  | _ + 1, some [], st => .ok st
  | fuel + 1, some (c :: p), st =>
    if st.w < st.buf.length - 1 then
      if c = '%' then do
        let (p, st) ← directive env p {} st
        scan env fuel (advance p) st
      else do
        let buf ← store st.buf st.w [c]
        scan env fuel (some p) { st with buf, w := st.w + 1 }
    else .ok st

/-- `vseprint(dst, edst, fmt, arg)`, with the turns that the outer loop may take. -/
def vseprint (env : PrintEnv) (fuel : ℕ) (buf : List Char) (fmt : CString) (arg : List Arg) :
    Except PrintFault (List Char) := do
  let st ← scan env fuel (some fmt.chars) { buf, w := 0, arg }
  if st.w < st.buf.length then store st.buf st.w [NUL] else .error .assertFailed

/-- Enough turns for every format: one for each character, and those for the text that stands for
an unknown verb. -/
def scanFuel (fmt : CString) : ℕ := fmt.chars.length + 8

/-- `vsnprint(dst, n, fmt, arg)`, and `snprint` with the arguments `arg`; `dst` holds `n` bytes. -/
def vsnprint (env : PrintEnv) (n : ℕ) (dst : Vector Char n) (fmt : CString) (arg : List Arg) :
    Except PrintFault (List Char) :=
  vseprint env (scanFuel fmt) dst.toList fmt arg

end Libtask
