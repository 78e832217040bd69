import Libtask.Abstract.Snapshot
import Libtask.Base.Runs

/-! The contexts of a running program on one processor: the one of the scheduler and those of the
tasks, which `taskalloc` makes and `contextswitch` leaves and enters. -/
namespace Libtask.Ucontext

open I386 ByteMemory Function

abbrev Memory := BitVec 32 → BitVec 8

/-- What runs on the processor: the scheduler, on the stack of `main`, and the tasks, each given by
its block and the size of its stack. -/
inductive Thread
  | scheduler
  | task (t stack : BitVec 32)
  deriving DecidableEq

/-- The program in memory: the layout of its structures, the code of `taskstart`, the context of the
scheduler, and the stack that the scheduler is on. -/
structure Image where
  abi : Abi
  taskstart : BitVec 32
  taskschedcontext : BitVec 32
  stack : BitVec 32
  size : ℕ
  apart : Apart (taskschedcontext + .ofNat 32 abi.uc_xmcontext) 80 stack size

namespace Image
variable (A : Image)

/-- The context of a thread, without the signal mask in front of the registers. -/
def ctx : Thread → BitVec 32
  | .scheduler => A.taskschedcontext + .ofNat 32 A.abi.uc_xmcontext
  | .task t _ => t + .ofNat 32 Abi.context + .ofNat 32 A.abi.uc_xmcontext

def stk : Thread → BitVec 32
  | .scheduler => A.stack
  | .task t _ => t + .ofNat 32 A.abi.sizeofTask

def stksize : Thread → ℕ
  | .scheduler => A.size
  | .task _ stack => stack.toNat

/-- The bytes of a thread: its registers in its context, and its stack. -/
def Own (i : Thread) (x : BitVec 32) : Prop :=
  Within (A.ctx i) 80 x ∨ Within (A.stk i) (A.stksize i) x

/-- The `n` bytes below `esp` are on the stack of the thread. -/
def Room (i : Thread) (esp : BitVec 32) (n : ℕ) : Prop :=
  ∀ x, Within (esp - .ofNat 32 n) n x → Within (A.stk i) (A.stksize i) x

end Image

/-- The registers that the context at `p` holds. -/
def Snapshot.ofContext (m : Memory) (p : BitVec 32) : Snapshot where
  reg r := long m (p + .ofNat 32 (Mc.ofReg r).offset)
  seg r := word m (p + .ofNat 32 (Mc.ofSeg r).offset)
  eip := long m (p + .ofNat 32 Mc.mc_eip.offset)

/-- A thread that is not on the processor: the registers it is to go on with, and the memory as it
was left. A fresh one has never run. -/
structure Parked where
  fresh : Bool
  cpu : Snapshot
  mem : Memory

/-- The processor, the thread on it and the others. -/
structure Threads where
  machine : Machine
  current : Thread
  parked : Thread → Option Parked

namespace Threads

def Exists (S : Threads) (i : Thread) : Prop := i = S.current ∨ S.parked i ≠ none

/-- The bytes of the threads that are not on the processor are the same in `m` and `m'`. -/
def Spares (A : Image) (S : Threads) (m m' : Memory) : Prop :=
  ∀ i, S.parked i ≠ none → ∀ x, A.Own i x → m' x = m x

/-- The first return of `getcontext` in `swapcontext`, which `S` is about to call. -/
def saved (S : Threads) (next : BitVec 32) : Machine := (S.machine.call next).run getxmcontext

/-- The thread on the processor calls `swapcontext` for itself and `j`: it is at the call of
`getxmcontext`, and once that has returned 0, at the first instruction of `setxmcontext` in the
state `e`. -/
structure Switches (A : Image) (S : Threads) (j : Thread) (next : BitVec 32) (e : Machine) :
    Prop where
  oucp : long S.machine.mem (S.machine.reg .esp) = A.ctx S.current
  room : A.Room S.current (S.machine.reg .esp) 4
  spares : S.Spares A (S.saved next).mem e.mem
  kept : ∀ x, Saved (A.ctx S.current) x → e.mem x = (S.saved next).mem x
  ucp : long e.mem (e.reg .esp + 4) = A.ctx j
  exists_j : S.parked j ≠ none

/-- The thread is left at the call of `getxmcontext`, to go on with the result 1. -/
def left (S : Threads) (next : BitVec 32) (e : Machine) : Parked where
  fresh := false
  cpu := ⟨update S.machine.reg .eax 1, S.machine.seg, next⟩
  mem := e.mem

/-- The block that `taskalloc` got from `malloc` for a task is in no use, and the thread on the
processor has room for the call of `getcontext`. -/
structure Gets (A : Image) (S : Threads) (t stack : BitVec 32) : Prop where
  fits : t.toNat + (A.abi.sizeofTask + stack.toNat) ≤ 2 ^ 32
  large : 128 ≤ stack.toNat
  room : A.Room S.current (S.machine.reg .esp) 8
  unused : ∀ i, S.Exists i → ∀ x, A.Own i x → ¬Within t (A.abi.sizeofTask + stack.toNat) x

/-- What happens on the processor: the current thread runs and leaves the bytes of the others alone,
it creates a task, a task that is not current is freed, or the processor is switched. -/
inductive Step (A : Image) : Threads → Threads → Prop
  | run {S : Threads} (m : Machine) (h : S.Spares A S.machine.mem m.mem) :
      Step A S { S with machine := m }
  | taskalloc {S : Threads} {t stack : BitVec 32} {m : Memory} (next fn arg id : BitVec 32)
      (mask : ℕ → BitVec 8) (h : S.Gets A t stack)
      (hm : Ucontext.taskalloc A.abi S.machine next t fn arg stack id A.taskstart mask = some m) :
      Step A S { S with
        machine := { S.machine with mem := m }
        parked := update S.parked (.task t stack)
          (some ⟨true, .ofContext m (A.ctx (.task t stack)), m⟩) }
  | free {S : Threads} (t stack : BitVec 32) (h : .task t stack ≠ S.current) :
      Step A S { S with parked := update S.parked (.task t stack) none }
  | switch {S : Threads} (j : Thread) (next : BitVec 32) (e : Machine)
      (h : S.Switches A j next e) :
      Step A S {
        machine := e.run setxmcontext
        current := j
        parked := update (update S.parked S.current (some (S.left next e))) j none }

/-- The program starts with the scheduler alone. -/
def Initial (S : Threads) : Prop := S.current = .scheduler ∧ ∀ i, S.parked i = none

end Threads
end Libtask.Ucontext
