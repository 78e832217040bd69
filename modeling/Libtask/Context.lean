import Libtask.Base.I386

/-! Contexts on the i386: `386-ucontext.h`, `asm.S`, `context.c`, and how `taskalloc` makes the
first context of a task. Pointers and `unsigned long` have 32 bits. -/
namespace Libtask.Ucontext

open I386 ByteMemory

/-- The fields of `struct xmcontext` up to `mc_ss`, in its order; each is an `int`. -/
inductive Mc
  | mc_onstack | mc_gs | mc_fs | mc_es | mc_ds | mc_edi | mc_esi | mc_ebp | mc_isp | mc_ebx
  | mc_edx | mc_ecx | mc_eax | mc_trapno | mc_err | mc_eip | mc_cs | mc_eflags | mc_esp | mc_ss
  deriving DecidableEq

def Mc.offset (f : Mc) : ℕ := 4 * f.ctorIdx

/-- The fields above, `mc_fpregs` and `__spare__`. -/
def sizeofXmcontext : ℕ := 4 * (20 + 28 + 17)

def getxmcontext : List Instr := [
  .load ⟨4, .esp⟩ .eax,
  .storeSeg .fs ⟨8, .eax⟩,
  .storeSeg .es ⟨12, .eax⟩,
  .storeSeg .ds ⟨16, .eax⟩,
  .storeSeg .ss ⟨76, .eax⟩,
  .store .edi ⟨20, .eax⟩,
  .store .esi ⟨24, .eax⟩,
  .store .ebp ⟨28, .eax⟩,
  .store .ebx ⟨36, .eax⟩,
  .store .edx ⟨40, .eax⟩,
  .store .ecx ⟨44, .eax⟩,
  .storeImm 1 ⟨48, .eax⟩,
  .load ⟨0, .esp⟩ .ecx,
  .store .ecx ⟨60, .eax⟩,
  .leal ⟨4, .esp⟩ .ecx,
  .store .ecx ⟨72, .eax⟩,
  .load ⟨44, .eax⟩ .ecx,
  .loadImm 0 .eax,
  .ret]

def setxmcontext : List Instr := [
  .load ⟨4, .esp⟩ .eax,
  .loadSeg ⟨8, .eax⟩ .fs,
  .loadSeg ⟨12, .eax⟩ .es,
  .loadSeg ⟨16, .eax⟩ .ds,
  .loadSeg ⟨76, .eax⟩ .ss,
  .load ⟨20, .eax⟩ .edi,
  .load ⟨24, .eax⟩ .esi,
  .load ⟨28, .eax⟩ .ebp,
  .load ⟨36, .eax⟩ .ebx,
  .load ⟨40, .eax⟩ .edx,
  .load ⟨44, .eax⟩ .ecx,
  .load ⟨72, .eax⟩ .esp,
  .pushl ⟨60, .eax⟩,
  .load ⟨48, .eax⟩ .eax,
  .ret]

/-- How `swapcontext(oucp, ucp)` goes on when `getcontext(oucp)` has returned. -/
inductive Switch
  /-- It calls `setcontext(ucp)`. -/
  | setcontext
  /-- It returns to its caller. -/
  | returns (value : ℤ)
  deriving DecidableEq

def swapcontext (value : BitVec 32) : Switch := if value = 0 then .setcontext else .returns 0

/-- The sizes in bytes of `sigset_t` and `stack_t`, and where the latter has its fields. -/
structure Abi where
  sigset : ℕ
  stack : ℕ
  ss_sp : ℕ
  ss_size : ℕ
  sigset_words : 4 ∣ sigset
  stack_words : 4 ∣ stack
  ss_sp_le : ss_sp + 4 ≤ stack
  ss_size_le : ss_size + 4 ≤ stack
  ss_apart : ss_sp + 4 ≤ ss_size ∨ ss_size + 4 ≤ ss_sp

namespace Abi

variable (abi : Abi)

/-! `struct xucontext` -/

def uc_xmcontext : ℕ := abi.sigset

/-- Behind `uc_xmcontext` and `uc_link`. -/
def uc_stack : ℕ := abi.uc_xmcontext + sizeofXmcontext + 4

def sizeofXucontext : ℕ := abi.uc_stack + abi.stack + 4 * 8

/-! `struct Task` -/

/-- Behind `name`, `state` and four pointers. -/
def context : ℕ := 256 + 256 + 4 * 4

/-- Behind `alarmtime`. -/
def id : ℕ := context + abi.sizeofXucontext + 8

def stk : ℕ := abi.id + 4

def stksize : ℕ := abi.stk + 4

/-- Behind `exiting`, `alltaskslot`, `system` and `ready`. -/
def startfn : ℕ := abi.stksize + 4 + 4 * 4

def startarg : ℕ := abi.startfn + 4

/-- The last field is `udata`. -/
def sizeofTask : ℕ := abi.startarg + 4 + 4

theorem ss_sp_lt : context + (abi.uc_stack + abi.ss_sp) + 4 ≤ abi.id := by
  have h := abi.ss_sp_le
  unfold id sizeofXucontext
  omega

theorem ss_size_lt : context + (abi.uc_stack + abi.ss_size) + 4 ≤ abi.id := by
  have h := abi.ss_size_le
  unfold id sizeofXucontext
  omega

theorem sigset_lt : context + abi.sigset ≤ abi.id := by
  unfold id sizeofXucontext uc_stack uc_xmcontext
  omega

/-- The fields behind the context, in words from `id` on. -/
theorem fields_eq : abi.stk = abi.id + 4 ∧ abi.stksize = abi.id + 8 ∧ abi.startfn = abi.id + 28 ∧
    abi.startarg = abi.id + 32 ∧ abi.sizeofTask = abi.id + 40 :=
  ⟨rfl, rfl, rfl, rfl, rfl⟩

end Abi

/-- `getcontext(u)` when `s` is the state before its argument is pushed; `next` is the address
behind the call. -/
def getcontext (abi : Abi) (s : Machine) (u next : BitVec 32) : Machine :=
  ((s.push (u + .ofNat 32 abi.uc_xmcontext)).call next).run getxmcontext

/-- `makecontext(ucp, func, argc, ...)`, with the words `va` behind `argc`. -/
def makecontext (abi : Abi) (m : BitVec 32 → BitVec 8) (ucp func : BitVec 32) (argc : ℕ)
    (va : List (BitVec 32)) : BitVec 32 → BitVec 8 :=
  let sp := long m (ucp + .ofNat 32 (abi.uc_stack + abi.ss_sp)) +
    4 * (long m (ucp + .ofNat 32 (abi.uc_stack + abi.ss_size)) / 4)
  let sp := sp - 4 * .ofNat 32 argc
  let sp := sp - sp % 16
  let m := setLongs m sp (va.take argc)
  let sp := sp - 4
  let m := setLong m sp 0
  let m := setLong m (ucp + .ofNat 32 (abi.uc_xmcontext + Mc.mc_eip.offset)) func
  setLong m (ucp + .ofNat 32 (abi.uc_xmcontext + Mc.mc_esp.offset)) sp

/-- The fields of the task at `t` that `taskalloc(fn, arg, stack)` sets before it calls
`getcontext`: the task gets the number `id`, and `mask` is what `sigprocmask` stores. -/
def taskFields (abi : Abi) (m : BitVec 32 → BitVec 8) (t fn arg stack id : BitVec 32)
    (mask : ℕ → BitVec 8) : BitVec 32 → BitVec 8 :=
  let m := fill m t abi.sizeofTask fun _ => 0
  let m := setLong m (t + .ofNat 32 abi.stk) (t + .ofNat 32 abi.sizeofTask)
  let m := setLong m (t + .ofNat 32 abi.stksize) stack
  let m := setLong m (t + .ofNat 32 abi.id) id
  let m := setLong m (t + .ofNat 32 abi.startfn) fn
  let m := setLong m (t + .ofNat 32 abi.startarg) arg
  let m := fill m (t + .ofNat 32 Abi.context) abi.sizeofXucontext fun _ => 0
  fill m (t + .ofNat 32 Abi.context) abi.sigset mask

/-- `taskalloc` up to the stack of the new context, when `malloc` has returned `t`. -/
def taskallocInit (abi : Abi) (s : Machine) (next t fn arg stack id : BitVec 32)
    (mask : ℕ → BitVec 8) : Option (BitVec 32 → BitVec 8) :=
  let uc := t + .ofNat 32 Abi.context
  let s := getcontext abi { s with mem := taskFields abi s.mem t fn arg stack id mask } uc next
  if (s.reg .eax).toInt < 0 then none
  else
    let m := s.mem
    let m := setLong m (uc + .ofNat 32 (abi.uc_stack + abi.ss_sp))
      (long m (t + .ofNat 32 abi.stk) + 8)
    some (setLong m (uc + .ofNat 32 (abi.uc_stack + abi.ss_size))
      (long m (t + .ofNat 32 abi.stksize) - 64))

/-- `taskalloc`, with `taskstart` at the address `start`. -/
def taskalloc (abi : Abi) (s : Machine) (next t fn arg stack id start : BitVec 32)
    (mask : ℕ → BitVec 8) : Option (BitVec 32 → BitVec 8) :=
  (taskallocInit abi s next t fn arg stack id mask).map fun m =>
    let z := t
    let y := z
    let z := z >>> 16
    let x := z >>> 16
    makecontext abi m (t + .ofNat 32 Abi.context) start 2 [y, x]

/-- The pointer that `taskstart(y, x)` works on. -/
def taskstart (y x : BitVec 32) : BitVec 32 :=
  let z := x <<< 16
  let z := z <<< 16
  z ||| y

end Libtask.Ucontext
