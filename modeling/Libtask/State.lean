import Libtask.Events
import Mathlib.Logic.Function.Basic

/-! The library's data: tasks and their link fields, locks, rendezvous points, channels
with their alt arrays, the poll table, and the globals of task.c and fd.c. -/
namespace Libtask

/-- The addresses of the `Tasklist`s a program has: the two globals and the list fields
of each lock and each rendezvous point. -/
inductive TasklistRef
  | taskrunqueue
  | sleeping
  | qwaiting (l : ℕ)
  | rwaiting (l : ℕ)
  | wwaiting (l : ℕ)
  | rendez (r : ℕ)
  deriving DecidableEq

structure Tasklist where
  head : Option TaskPtr
  tail : Option TaskPtr
  deriving DecidableEq

/-- All `Tasklist`s together with the one `next`/`prev` pair each task has. -/
structure Links where
  next : TaskPtr → Option TaskPtr
  prev : TaskPtr → Option TaskPtr
  list : TasklistRef → Tasklist

/-- The same lists as sequences, for the abstract states. -/
abbrev Queues := TasklistRef → List TaskPtr

inductive Startfn
  | user
  | fdtask
  deriving DecidableEq

/-- Where a task that is switched out goes on: the call it is in, with the local variables
that call still reads. -/
inductive Context
  | taskstart
  | taskyield (n : BitVec 32)
  | fdtask (n : BitVec 32)
  | qlock (l : ℕ)
  | sleepqlock (r l : ℕ)
  | rlock (l : ℕ)
  | wlock (l : ℕ)
  | tasksleep (r : ℕ)
  | chanalt (base : ℕ)
  | taskdelay (now : UInt64)
  | fdwait
  | taskexit
  deriving DecidableEq

structure Task where
  context : Context
  alarmtime : UInt64
  id : ℕ
  exiting : Bool
  alltaskslot : ℕ
  system : Bool
  ready : Bool
  startfn : Startfn
  deriving DecidableEq

/-- A `QLock`; its `waiting` list is `TasklistRef.qwaiting`. -/
structure QLock where
  owner : Option TaskPtr
  deriving DecidableEq

/-- An `RWLock`; its lists are `TasklistRef.rwaiting` and `TasklistRef.wwaiting`. The C
`int` count is kept as an integer, signed overflow being undefined there. -/
structure RWLock where
  readers : ℤ
  writer : Option TaskPtr
  deriving DecidableEq

/-- A `Rendez`; its `waiting` list is `TasklistRef.rendez`. -/
structure Rendez where
  l : Option ℕ
  deriving DecidableEq

inductive Op
  | CHANEND
  | CHANSND
  | CHANRCV
  | CHANNOP
  | CHANNOBLK
  deriving DecidableEq, Inhabited

structure Alt where
  c : ℕ
  v : Option ℕ
  op : Op
  task : TaskPtr
  xalt : AltPtr
  deriving DecidableEq

/-- A `Channel`. The unsigned fields hold values below `2 ^ 32`; `buf` is indexed by byte;
an `Altarray` is the sequence of its `n` entries. -/
structure Channel where
  bufsize : ℕ
  elemsize : ℕ
  buf : ℕ → UInt8
  nbuf : ℕ
  off : ℕ
  asend : List AltPtr
  arecv : List AltPtr

structure Pollfd where
  fd : ℤ
  events : ℕ
  revents : ℕ
  deriving DecidableEq

/-- The places in the source that call `abort`. -/
inductive Abort
  | taskallocMalloc
  | qlockOops
  | qunlockOwner
  | wunlockNotLocked
  | wunlockReaders
  | altdequeueOp
  | altdequeueSelf
  | assertFailed
  | tooManyPollfds
  deriving DecidableEq

/-- How the process ends: `exit`, `abort`, undefined behaviour, or a loop that never ends. -/
inductive Halt
  | exit (v : ℤ)
  | abort (a : Abort)
  | fault
  | diverge
  deriving DecidableEq

/-- Who has control: the head of the scheduler loop, a task resuming inside the call it
was switched out of, a task between two calls, or nobody any more. -/
inductive Control
  | scheduler
  | resume
  | user
  | halted (h : Halt)
  deriving DecidableEq

/-- The state of a program: heap, globals, control, and the ghost fields `live` (the task
blocks obtained from `malloc` and not yet freed) and `log` (newest event first). -/
structure Sys (σ : Type) where
  links : σ
  task : TaskPtr → Task
  live : Finset TaskPtr
  alltask : ℕ → TaskPtr
  nalltask : ℕ
  alltaskcap : ℕ
  taskidgen : ℕ
  taskcount : ℤ
  tasknswitch : BitVec 32
  taskexitval : ℤ
  taskrunning : Option TaskPtr
  control : Control
  qlock : ℕ → QLock
  rwlock : ℕ → RWLock
  rendez : ℕ → Rendez
  chan : ℕ → Channel
  alts : ℕ → List Alt
  mem : ℕ → UInt8
  pollfd : ℕ → Pollfd
  polltask : ℕ → TaskPtr
  npollfd : ℕ
  startedfdtask : Bool
  sleepingcounted : ℤ
  log : List Event

/-- How a library call comes back to its caller, if it does before the next switch. -/
inductive Return
  | switched
  | void
  | value (v : ℤ)
  deriving DecidableEq

variable {σ : Type}

/-- The state with another representation of its task lists. -/
def Sys.withLinks {τ : Type} (s : Sys σ) (links : τ) : Sys τ := { s with links }

def Sys.emit (e : Event) (s : Sys σ) : Sys σ := { s with log := e :: s.log }

def Sys.setTask (t : TaskPtr) (f : Task → Task) (s : Sys σ) : Sys σ :=
  { s with task := Function.update s.task t (f (s.task t)) }

/-- `*p` for a pointer into an alt array. -/
def Sys.alt? (s : Sys σ) (p : AltPtr) : Option Alt := (s.alts p.base)[p.idx]?

end Libtask
