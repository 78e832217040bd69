import Libtask.Channel
import Libtask.Lock

/-! The poller `fdtask`, timers and descriptor waits (fd.c). -/
namespace Libtask
open Function

variable {σ : Type}

def MAXFD : ℕ := 1024

def POLLIN : ℕ := 1
def POLLOUT : ℕ := 4

/-- What `poll` does: fail with `EINTR`, fail otherwise, or set the `revents`. -/
inductive Poll
  | eintr
  | fail
  | done (revents : ℕ → ℕ)

/-- What a step gets from outside: the block `malloc` returns (0 for nil), two values of
`rand`, two readings of `nsec`, and the result of `poll`. -/
structure Env where
  malloc : TaskPtr
  rand₁ : ℕ
  rand₂ : ℕ
  nsec₁ : UInt64
  nsec₂ : UInt64
  poll : Poll

/-- The call `taskyield()` of the loop of `fdtask`, up to its switch. -/
def fdtaskYield (t : TaskPtr) (s : Sys Links) : Sys Links :=
  taskswitch (.fdtask s.tasknswitch) t (taskready t s)

/-- `fdtask` up to its first switch. -/
def fdtask (t : TaskPtr) (s : Sys Links) : Sys Links := fdtaskYield t (tasksystem t s)

/-- The timeout `fdtask` passes to `poll`, from the head of `sleeping`. -/
def pollms (now : UInt64) (first : Option TaskPtr) (s : Sys σ) : ℤ :=
  match first with
  | none => -1
  | some t =>
    let alarmtime := (s.task t).alarmtime
    if now ≥ alarmtime then 0
    else if now + 5 * 1000 * 1000 * 1000 ≥ alarmtime then
      (BitVec.ofNat 32 ((alarmtime - now) / 1000000).toNat).toInt
    else 5000

/-- The inner loop over slot `i` of the poll table; every turn takes one entry off, so
`npollfd` turns are enough. -/
def pollWakeSlot (i : ℕ) : (fuel : ℕ) → Sys Links → Sys Links
  | 0, s => s
  | fuel + 1, s =>
    if i < s.npollfd ∧ (s.pollfd i).revents ≠ 0 then
      let s := taskready (s.polltask i) s
      let s := { s with npollfd := s.npollfd - 1 }
      pollWakeSlot i fuel { s with
        pollfd := update s.pollfd i (s.pollfd s.npollfd)
        polltask := update s.polltask i (s.polltask s.npollfd) }
    else s

/-- The outer loop over the poll table from slot `i` on; it has at most `npollfd` turns. -/
def pollWake : (fuel : ℕ) → (i : ℕ) → Sys Links → Sys Links
  | 0, _, s => s
  | fuel + 1, i, s =>
    if i < s.npollfd then pollWake fuel (i + 1) (pollWakeSlot i s.npollfd s) else s

/-- The loop of `fdtask` that wakes the sleepers that are due. -/
def timerWake (now : UInt64) : (fuel : ℕ) → Sys Links → Except Halt (Sys Links)
  | 0, _ => .error .diverge
  | fuel + 1, s =>
    match head .sleeping s with
    | none => .ok s
    | some t =>
      if now ≥ (s.task t).alarmtime then
        let s := deltask .sleeping t s
        let s := if (s.task t).system then s
          else
            let s := { s with sleepingcounted := s.sleepingcounted - 1 }
            if s.sleepingcounted = 0 then { s with taskcount := s.taskcount - 1 } else s
        timerWake now fuel (taskready t s)
      else .ok s

/-- One pass of `fdtask` from `poll` to the next `taskyield`. -/
def fdtaskPass (e : Env) (t : TaskPtr) (s : Sys Links) : Except Halt (Sys Links × Return) := do
  let s := s.emit (.poll e.nsec₁ (pollms e.nsec₁ (head .sleeping s) s))
  match e.poll with
  | .eintr => return (fdtaskYield t s, .switched)
  | .fail => throw (.exit 0)
  | .done revents =>
    let s := { s with pollfd := fun i =>
      if i < s.npollfd then { s.pollfd i with revents := revents i } else s.pollfd i }
    let s := (pollWake s.npollfd 0 s).emit (.pollout e.nsec₂)
    let s ← timerWake e.nsec₂ (s.live.card + 1) s
    return (fdtaskYield t s, .switched)

/-- `fdtask` back from its `taskyield()`. -/
def fdtaskBack (e : Env) (n : BitVec 32) (t : TaskPtr) (s : Sys Links) :
    Except Halt (Sys Links × Return) :=
  if 0 < (taskyieldResult n s).toInt then .ok (fdtaskYield t s, .switched)
  else fdtaskPass e t s

/-- How `taskdelay` and `fdwait` begin. -/
def startfdtask (e : Env) (s : Sys Links) : Except Halt (Sys Links) :=
  if s.startedfdtask then .ok s
  else taskcreate .fdtask e.malloc { s with startedfdtask := true }

/-- `taskdelay` up to its switch. -/
def taskdelay (e : Env) (ms : UInt32) (t : TaskPtr) (s : Sys Links) :
    Except Halt (Sys Links × Return) := do
  let s ← startfdtask e s
  let now := e.nsec₁
  let deadline := now + ms.toUInt64 * 1000000
  match s.links.delayscan (fun u => (s.task u).alarmtime) deadline (s.live.card + 1)
      (head .sleeping s) with
  | none => throw .diverge
  | some u =>
    let s := { s with links := s.links.splice .sleeping t u }
    let s := s.setTask t fun x => { x with alarmtime := deadline }
    let s := if (s.task t).system then s
      else
        let s := { s with sleepingcounted := s.sleepingcounted + 1 }
        if s.sleepingcounted = 1 then { s with taskcount := s.taskcount + 1 } else s
    return (taskswitch (.taskdelay now) t (s.emit (.delay t now ms)), .switched)

/-- `taskdelay` after its switch. -/
def taskdelayBack (e : Env) (now : UInt64) (t : TaskPtr) (s : Sys σ) : Sys σ × Return :=
  let v := ((e.nsec₁ - now) / 1000000).toUInt32
  (s.emit (.delayed t e.nsec₁ v), .value v.toNat)

/-- `fdwait` up to its switch. -/
def fdwait (e : Env) (fd : ℤ) (rw : Char) (t : TaskPtr) (s : Sys Links) :
    Except Halt (Sys Links × Return) := do
  let s ← startfdtask e s
  if s.npollfd ≥ MAXFD then throw (.abort .tooManyPollfds)
  let bits := if rw = 'r' then POLLIN else if rw = 'w' then POLLOUT else 0
  let s := { s with
    polltask := update s.polltask s.npollfd t
    pollfd := update s.pollfd s.npollfd { fd := fd, events := bits, revents := 0 }
    npollfd := s.npollfd + 1 }
  return (taskswitch .fdwait t (s.emit (.fdwait t fd bits)), .switched)

end Libtask
