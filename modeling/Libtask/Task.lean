import Libtask.Tasklist

/-! Creating, scheduling and ending tasks (task.c). The argument `t` of a function is the
value of `taskrunning` when it is called. -/
namespace Libtask
open Function

variable {σ : Type}

def taskready (t : TaskPtr) (s : Sys Links) : Sys Links :=
  addtask .taskrunqueue t
    ((s.setTask t fun x => { x with ready := true }).emit (.ready t))

/-- `taskalloc`, with `p` the block `malloc` returns and 0 for nil. -/
def taskalloc (fn : Startfn) (p : TaskPtr) (s : Sys Links) : Except Halt (Sys Links) :=
  if p = 0 then .error (.abort .taskallocMalloc)
  else .ok { s with
    links := (s.links.setNext p none).setPrev p none
    task := update s.task p
      { context := .taskstart, alarmtime := 0, id := s.taskidgen + 1, exiting := false,
        alltaskslot := 0, system := false, ready := false, startfn := fn }
    live := insert p s.live
    taskidgen := s.taskidgen + 1 }

def taskcreate (fn : Startfn) (p : TaskPtr) (s : Sys Links) : Except Halt (Sys Links) := do
  let s ← taskalloc fn p s
  let s := { s with taskcount := s.taskcount + 1 }
  let s := if s.nalltask % 64 = 0 then { s with alltaskcap := s.nalltask + 64 } else s
  let s := s.setTask p fun x => { x with alltaskslot := s.nalltask }
  let s := { s with alltask := update s.alltask s.nalltask p, nalltask := s.nalltask + 1 }
  return taskready p s

def tasksystem (t : TaskPtr) (s : Sys σ) : Sys σ :=
  if (s.task t).system then s
  else { s.setTask t fun x => { x with system := true } with taskcount := s.taskcount - 1 }

/-- What the scheduler does with an exiting task when it gets control back from it. -/
def taskfree (t : TaskPtr) (s : Sys σ) : Sys σ :=
  let s := if (s.task t).system then s else { s with taskcount := s.taskcount - 1 }
  let i := (s.task t).alltaskslot
  let s := { s with nalltask := s.nalltask - 1 }
  let s := { s with alltask := update s.alltask i (s.alltask s.nalltask) }
  let s := s.setTask (s.alltask i) fun x => { x with alltaskslot := i }
  { s with live := s.live.erase t }.emit (.free t)

/-- `taskswitch` called where the task will go on at `c`, up to the head of the scheduler
loop. -/
def taskswitch (c : Context) (t : TaskPtr) (s : Sys σ) : Sys σ :=
  let s := { s.setTask t fun x => { x with context := c } with
    taskrunning := none, control := .scheduler }
  if (s.task t).exiting then taskfree t s else s

def taskyield (t : TaskPtr) (s : Sys Links) : Sys Links :=
  taskswitch (.taskyield s.tasknswitch) t (taskready t s)

/-- What `taskyield` returns, `n` being `tasknswitch` when it was called. -/
def taskyieldResult (n : BitVec 32) (s : Sys σ) : BitVec 32 := s.tasknswitch - n - 1

def taskexit (val : ℤ) (t : TaskPtr) (s : Sys σ) : Sys σ :=
  taskswitch .taskexit t
    { s.setTask t fun x => { x with exiting := true } with taskexitval := val }

def anyready (s : Sys Links) : ℤ := if (head .taskrunqueue s).isSome then 1 else 0

/-- One turn of `taskscheduler`, up to the switch to the task it picks. -/
def taskscheduler (s : Sys Links) : Sys Links :=
  if s.taskcount = 0 then { s with control := .halted (.exit s.taskexitval) }
  else match head .taskrunqueue s with
    | none => { s with control := .halted (.exit 1) }
    | some t =>
      let s := deltask .taskrunqueue t s
      let s := s.setTask t fun x => { x with ready := false }
      { s with
        taskrunning := some t
        tasknswitch := s.tasknswitch + 1
        control := .resume }.emit (.dispatch t)

end Libtask
