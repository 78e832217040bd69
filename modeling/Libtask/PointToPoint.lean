import Libtask.Base.Dataflow
import Libtask.ChannelBlock
import Libtask.Machine

/-! Tasks that interact by `chansend` and `chanrecv` only, over channels with one sender and one
receiver each, each task deterministic in what it has sent and received so far. Which of the ready
tasks is dispatched is left open. An element that would be copied from or to a place outside the
block of its channel ends the run by a fault. -/
namespace Libtask
open Function Runs Dataflow

variable {σ : Type}

/-- One turn of `taskscheduler`, if the ready task it picks is `t`. -/
def taskschedulerPick (t : TaskPtr) (s : Sys Links) : Sys Links :=
  if s.taskcount = 0 then { s with control := .halted (.exit s.taskexitval) }
  else
    let s := deltask .taskrunqueue t s
    let s := s.setTask t fun x => { x with ready := false }
    { s with
      taskrunning := some t
      tasknswitch := s.tasknswitch + 1
      control := .resume }.emit (.dispatch t)

/-- The library picks the first task of the run queue. -/
theorem taskscheduler_eq_pick {t : TaskPtr} {s : Sys Links} (h : head .taskrunqueue s = some t) :
    taskscheduler s = taskschedulerPick t s := by
  rw [taskscheduler, taskschedulerPick, h]

/-- From `s` to `s'` `altcopy` went only to slots inside the blocks of their channels. -/
def InBlocks (s s' : Sys σ) : Prop :=
  ∀ c evs, s'.log.filterMap (chanEvent c) = evs ++ s.log.filterMap (chanEvent c) →
    ∀ i ∈ (s.chan c).slots evs, (s.chan c).Inside i

/-- The tasks of a program: the ends of its channels, what each task does next, and the memory
that it may write. -/
structure PointToPoint extends Net TaskPtr ℕ (List UInt8) where
  writes : TaskPtr → Set ℕ

namespace PointToPoint
variable (N : PointToPoint)

/-- The transfer that `t` takes part in by an event. -/
def doneBy (t : TaskPtr) : Event → Option (Done ℕ (List UInt8))
  | .chan c (.sent _ b) => if N.sender c = t then some (.sent c b) else none
  | .chan c (.rcvd _ b) => if N.receiver c = t then some (.rcvd c b) else none
  | _ => none

/-- What each task has sent and received, by a log. -/
def history (log : List Event) : History TaskPtr ℕ (List UInt8) := fun t => hist (N.doneBy t) log

/-- It is for `t` to do the operation `op` on channel `c`, with its element at `v`: no other task
writes the element that it sends, and it may write where it receives one. -/
structure Due (s : Sys σ) (t : TaskPtr) (c : ℕ) (op : Op) (v : Option ℕ) : Prop where
  queued : op.queued
  source : op = .CHANSND → ∀ u ≠ t, ClearOf (N.writes u) v (s.chan c).elemsize
  dest : op = .CHANRCV → bytesAt v (s.chan c).elemsize ⊆ N.writes t
  send : op = .CHANSND →
    N.next t (N.history s.log t) = .send c (amoveSource s.mem v (s.chan c).elemsize)
  recv : op = .CHANRCV → N.next t (N.history s.log t) = .recv c

/-- The calls that are open to `t`: the transfer that is due, to write memory, to let
others run, and to exit when there is nothing left to do. -/
inductive Allows (s : Sys σ) (t : TaskPtr) : Call → Prop
  | chansend {base c : ℕ} {v : Option ℕ} {junk : Alt} (h : N.Due s t c .CHANSND v) :
      Allows s t (chansend base c v junk)
  | chanrecv {base c : ℕ} {v : Option ℕ} {junk : Alt} (h : N.Due s t c .CHANRCV v) :
      Allows s t (chanrecv base c v junk)
  | write {mem : ℕ → UInt8} (h : ∀ x ∉ N.writes t, mem x = s.mem x) : Allows s t (.write mem)
  | taskyield : Allows s t .taskyield
  | taskexit {val : ℤ} (h : N.next t (N.history s.log t) = .stop) : Allows s t (.taskexit val)

/-- The steps of the program: those of the library, as far as the copying of elements stays in the
blocks of the channels, and those it would make if another task was first in the run queue. -/
inductive Step (s : Sys Links) : Sys Links → Prop
  | step {e : Env} {act : Action} {s' : Sys Links}
      (hact : ∀ c, act = .call c → ∃ t, s.taskrunning = some t ∧ N.Allows s t c)
      (hs : step (e, act) s = some s') (hin : InBlocks s s') : Step s s'
  | fault {e : Env} {act : Action} {s' : Sys Links}
      (hact : ∀ c, act = .call c → ∃ t, s.taskrunning = some t ∧ N.Allows s t c)
      (hs : step (e, act) s = some s') (hout : ¬InBlocks s s') :
      Step s { s with control := .halted .fault }
  | pick {t : TaskPtr} (hc : s.control = .scheduler) (ht : t ∈ s.live)
      (hr : (s.task t).ready = true) : Step s (taskschedulerPick t s)

/-- The tasks of the program are there, and none has begun a call on a channel. A channel that its
block is too small for is as `chancreate` left it. -/
structure Start (s : Sys Links) : Prop where
  reachable : Reachable s
  unused : ∀ c, 48 + (s.chan c).bufsize * (s.chan c).elemsize < 2 ^ 32 ∨
    s.log.filterMap (chanEvent c) = [] ∧ (s.chan c).nbuf = 0 ∧ (s.chan c).off = 0
  task : ∀ t ∈ s.live, (s.taskrunning = some t ∧ s.control = .user) ∨
    ((s.task t).context = .taskstart ∧ (s.task t).startfn = .user) ∨
    ∃ n, (s.task t).context = .taskyield n
  gone : ∀ t ∉ s.live, N.next t (N.history s.log t) = .stop

end PointToPoint

/-- What was received from channel `c`, oldest first. -/
def received (c : ℕ) (s : Sys σ) : List (List UInt8) :=
  hist ChanEvent.rcvdBytes (s.log.filterMap (chanEvent c))

/-- No task runs or is ready to. -/
def Stopped (s : Sys σ) : Prop := s.taskrunning = none ∧ ∀ t ∈ s.live, (s.task t).ready = false

end Libtask
