import Libtask.Machine
import Libtask.Text

/-! The prime sieve of primes.c: `taskmain` sends the numbers from 2 on into a chain of tasks, each
of which prints the first number it receives and passes on those that it does not divide. -/
namespace Libtask.Primes
open Function

/-- The value of an `unsigned long`, its low byte first. -/
def ulong (bytes : List UInt8) : ℕ := bytes.foldr (fun b n => b.toNat + 256 * n) 0

def ulongBytes (n : ℕ) : List UInt8 :=
  (List.range sizeofWord).map fun j => UInt8.ofNat (n / 256 ^ j)

/-- An `int` converted to `unsigned long`. -/
def toUlong (i : ℤ) : ℕ := (i % 2 ^ 32).toNat

/-- Where a task is between two calls of the library, with the local variables it still reads. The
calls of `chansendul` and `chanrecvul` are those of `chansend` and `chanrecv` in them. -/
inductive Pc
  | taskmain
  | put (c : ℕ) (i : ℤ)
  | sending (c : ℕ) (i : ℤ)
  | primetask (c : ℕ)
  | first (c : ℕ)
  | loop (c nc : ℕ) (p : ℤ)
  | got (c nc : ℕ) (p : ℤ)
  | pass (c nc : ℕ) (p : ℤ)
  deriving DecidableEq

/-- What is fixed for a run: the globals of primes.c, where the variable `val` of `chansendul` and
`chanrecvul` and the array of `_chanop` are on the stack of each task, the block of the first task
and what memory holds at first. -/
structure Setup where
  goal : ℤ
  buffer : ℕ
  quiet : Bool
  val : TaskPtr → ℕ
  alts : TaskPtr → ℕ
  main : TaskPtr
  mem : ℕ → UInt8
  chanbuf : ℕ → ℕ → UInt8
  val_apart : ∀ t u, t ≠ u → val t + sizeofWord ≤ val u ∨ val u + sizeofWord ≤ val t
  alts_inj : ∀ t u, alts t = alts u → t = u
  main_ne : main ≠ 0
  main_aligned : main % 4 = 0
  buffer_fits : 48 + buffer * sizeofWord < 2 ^ 32

/-- All channels are for `unsigned long`s, with `buffer` places. -/
def Setup.program (S : Setup) : Program where
  elemsize _ := sizeofWord
  bufsize _ := S.buffer
  elemsize_lt _ := by decide
  bufsize_lt _ := by
    have := S.buffer_fits
    simp only [sizeofWord] at this
    omega
  chanbuf := S.chanbuf
  rendezl _ := none
  mem := S.mem
  taskmain := S.main
  taskmain_ne := S.main_ne
  taskmain_aligned := S.main_aligned

/-- The state of the program: that of the library, where each task is, how many channels there are,
and what has been printed. The channels are numbered as they are created. -/
structure State where
  sys : Sys Links
  pc : TaskPtr → Pc
  nchan : ℕ
  printed : List ℤ

/-- What user code does next: call the library and go on at `pc`; create a channel and a task
`primetask` on it, having printed `out`, and go on; or run into undefined behaviour. -/
inductive Next
  | call (c : Call) (pc : Pc)
  | create (out : List ℤ) (pc : ℕ → Pc)
  | fault

/-- The number in the variable `val` of `t`. -/
def word (S : Setup) (st : State) (t : TaskPtr) : ℕ := ulong (st.sys.word (S.val t))

/-- The parameter `val` of `chansendul` is set to `i`. -/
def setVal (S : Setup) (st : State) (t : TaskPtr) (i : ℤ) : Call :=
  .write (writeBytes st.sys.mem (S.val t) (ulongBytes (toUlong i)))

/-- `taskmain` and `primetask`, from where `t` is to the next call. -/
def next (S : Setup) (junk : Alt) (t : TaskPtr) (st : State) : Next :=
  match st.pc t with
  | .taskmain => .create [] fun c => .put c 2
  -- `i` has gone beyond the largest `int`
  | .put c i => if i < 2 ^ 31 then .call (setVal S st t i) (.sending c i) else .fault
  | .sending c i => .call (chansend (S.alts t) c (some (S.val t)) junk) (.put c (i + 1))
  | .primetask c => .call (chanrecvul (S.alts t) c (S.val t) junk) (.first c)
  | .first c =>
    let p := int32 (word S st t)
    if p > S.goal then .call (.taskexitall 0) (.first c)
    else .create (if S.quiet then [] else [p]) fun nc => .loop c nc p
  | .loop c nc p => .call (chanrecvul (S.alts t) c (S.val t) junk) (.got c nc p)
  | .got c nc p =>
    let i := int32 (word S st t)
    if p = 0 then .fault
    else if i.tmod p ≠ 0 then .call (setVal S st t i) (.pass c nc p)
    else .call (chanrecvul (S.alts t) c (S.val t) junk) (.got c nc p)
  | .pass c nc p => .call (chansend (S.alts t) nc (some (S.val t)) junk) (.loop c nc p)

/-- What a step gets from outside: that of the library, what the stack holds where `_chanop` sets
nothing, and whether `chancreate` gets memory. -/
structure Input where
  env : Env
  junk : Alt
  chanmem : Bool

/-- User code up to its next call of the library; `chancreate` ends the process if it gets no
memory. -/
def user (S : Setup) (x : Input) (t : TaskPtr) (st : State) : Option State :=
  match next S x.junk t st with
  | .call c pc => (step (x.env, .call c) st.sys).map fun sys =>
      { st with sys, pc := update st.pc t pc }
  | .create out pc =>
    if x.chanmem then (step (x.env, .call (.taskcreate .user)) st.sys).map fun sys =>
      { sys
        pc := update (update st.pc t (pc st.nchan)) x.env.malloc (.primetask st.nchan)
        nchan := st.nchan + 1
        printed := st.printed ++ out }
    else (step (x.env, .call (.taskexitall 1)) st.sys).map fun sys =>
      { st with sys, printed := st.printed ++ out }
  | .fault => some { st with sys := { st.sys with control := .halted .fault } }

/-- One step of the program. -/
def turn (S : Setup) (x : Input) (st : State) : Option State :=
  match st.sys.control, st.sys.taskrunning with
  | .scheduler, _ => (step (x.env, .schedule) st.sys).map fun sys => { st with sys }
  | .resume, _ => (step (x.env, .resume) st.sys).map fun sys => { st with sys }
  | .user, some t => user S x t st
  | _, _ => none

/-- The program as it starts. -/
def Setup.start (S : Setup) : State where
  sys := S.program.boot
  pc _ := .taskmain
  nchan := 0
  printed := []

end Libtask.Primes
