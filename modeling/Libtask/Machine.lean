import Libtask.Base.Runs
import Libtask.Fd

/-! The whole program as a step function. Between two switches a task runs alone, so one
step is one turn of the scheduler, one resumption inside a library call, or one call by the
running task; everything the environment decides comes in as `Env`. -/
namespace Libtask
open Function

variable {σ : Type}

/-- What user code does between two switches. `chanalt` is given its array, which the caller
has just filled in; `write` is any store to the caller's own memory. -/
inductive Call
  | taskcreate (fn : Startfn)
  | tasksystem
  | taskyield
  | taskexit (val : ℤ)
  | taskexitall (val : ℤ)
  | anyready
  | qlock (l : ℕ)
  | canqlock (l : ℕ)
  | qunlock (l : ℕ)
  | rlock (l : ℕ)
  | canrlock (l : ℕ)
  | runlock (l : ℕ)
  | wlock (l : ℕ)
  | canwlock (l : ℕ)
  | wunlock (l : ℕ)
  | tasksleep (r : ℕ)
  | taskwakeup (r : ℕ)
  | taskwakeupall (r : ℕ)
  | chanalt (base : ℕ) (as : List Alt)
  | taskdelay (ms : UInt32)
  | fdwait (fd : ℤ) (rw : Char)
  | fdtask
  | write (mem : ℕ → UInt8)

/-- `_chanop` and its blocking and non-blocking forms are calls of `chanalt` on a
two-element array on the caller's stack. -/
def chanop (base c : ℕ) (op : Op) (p : Option ℕ) (canblock : Bool) (junk : Alt) : Call :=
  .chanalt base (chanopArray c op p canblock junk)

def chansend (base c : ℕ) (v : Option ℕ) (junk : Alt) : Call :=
  chanop base c .CHANSND v true junk

def channbsend (base c : ℕ) (v : Option ℕ) (junk : Alt) : Call :=
  chanop base c .CHANSND v false junk

def chanrecv (base c : ℕ) (v : Option ℕ) (junk : Alt) : Call :=
  chanop base c .CHANRCV v true junk

def channbrecv (base c : ℕ) (v : Option ℕ) (junk : Alt) : Call :=
  chanop base c .CHANRCV v false junk

/-- `sizeof(void *)` and `sizeof(ulong)`. -/
def sizeofWord : ℕ := 4

/-- The receives by value; their local variable is at `v`. -/
def chanrecvp (base c v : ℕ) (junk : Alt) : Call := chanrecv base c (some v) junk

def channbrecvp (base c v : ℕ) (junk : Alt) : Call := channbrecv base c (some v) junk

def chanrecvul (base c v : ℕ) (junk : Alt) : Call := chanrecv base c (some v) junk

def channbrecvul (base c v : ℕ) (junk : Alt) : Call := channbrecv base c (some v) junk

/-- The local variable at `v`; a receive by value returns it whatever `_chanop` has returned. -/
def Sys.word (v : ℕ) (s : Sys σ) : List UInt8 := readBytes s.mem v sizeofWord

inductive Action
  | schedule
  | resume
  | call (c : Call)

/-- The library call `c` by the running task, up to its return or its first switch. -/
def call (e : Env) (c : Call) (t : TaskPtr) (s : Sys Links) : Except Halt (Sys Links × Return) :=
  match c with
  | .taskcreate fn => do
    let s ← taskcreate fn e.malloc s
    return (s, .value (s.task e.malloc).id)
  | .tasksystem => .ok (tasksystem t s, .void)
  | .taskyield => .ok (taskyield t s, .switched)
  | .taskexit val => .ok (taskexit val t s, .switched)
  | .taskexitall val => .error (.exit val)
  | .anyready => .ok (s, .value (anyready s))
  | .qlock l => .ok (qlock l t s)
  | .canqlock l => .ok (canqlock l t s)
  | .qunlock l => do return (← qunlock l t s, .void)
  | .rlock l => .ok (rlock l t s)
  | .canrlock l => .ok (canrlock l t s)
  | .runlock l => .ok (runlock l t s, .void)
  | .wlock l => .ok (wlock l t s)
  | .canwlock l => .ok (canwlock l t s)
  | .wunlock l => do return (← wunlock l t s, .void)
  | .tasksleep r => tasksleep r t s
  | .taskwakeup r => do
    let (s, n) ← taskwakeup r s
    return (s, .value n)
  | .taskwakeupall r => do
    let (s, n) ← taskwakeupall r s
    return (s, .value n)
  | .chanalt base as =>
    chanalt base e.rand₁ e.rand₂ t
      ({ s with alts := update s.alts base as }.emit (.altcall t base))
  | .taskdelay ms => taskdelay e ms t s
  | .fdwait fd rw => fdwait e fd rw t s
  | .fdtask => .ok (fdtask t s, .switched)
  | .write mem => .ok ({ s with mem }, .void)

/-- The task just dispatched goes on where it was switched out. -/
def resume (e : Env) (t : TaskPtr) (s : Sys Links) : Except Halt (Sys Links × Return) :=
  match (s.task t).context with
  | .taskstart =>
    match (s.task t).startfn with
    | .user => .ok (s, .void)
    | .fdtask => .ok (fdtask t s, .switched)
  | .taskyield n => .ok (s, .value (taskyieldResult n s).toInt)
  | .fdtask n => fdtaskBack e n t s
  | .qlock l => qlockBack l t s
  | .sleepqlock r l => do
    let (s, _) ← qlockBack l t s
    return (s.emit (.rendez r (.awake t)), .void)
  | .rlock l => .ok (s.emit (.rw l (.rback t)), .value 1)
  | .wlock l => .ok (s.emit (.rw l (.wback t)), .value 1)
  | .tasksleep r => .ok (tasksleepBack r t s)
  | .chanalt base => chanaltBack base t s
  | .taskdelay now => .ok (taskdelayBack e now t s)
  | .fdwait => .ok (s, .void)
  | .taskexit => .error .fault

/-- Control goes back to the caller, to the scheduler, or nowhere. -/
def finish (t : TaskPtr) (s : Sys σ) : Except Halt (Sys σ × Return) → Sys σ
  | .error h => { s with control := .halted h }
  | .ok (s, .switched) => s
  | .ok (s, .void) => { s with control := .user }
  | .ok (s, .value v) => { s with control := .user }.emit (.ret t v)

/-- An alt array ends in a terminator and is not the array of another call in progress. -/
def AltArray (s : Sys σ) (base : ℕ) (as : List Alt) : Prop :=
  (∃ x ∈ as, isAltend x.op) ∧
    ∀ u ∈ s.live, s.taskrunning ≠ some u → (s.task u).context ≠ .chanalt base

instance (s : Sys σ) (base : ℕ) (as : List Alt) : Decidable (AltArray s base as) :=
  @instDecidableAnd _ _ inferInstance Finset.decidableDforallFinset

/-- `malloc` returns nil or an aligned block that is not in use; `chanalt` gets a proper
array. -/
def Admits (s : Sys σ) (e : Env) (a : Action) : Prop :=
  (e.malloc = 0 ∨ e.malloc % 4 = 0 ∧ e.malloc ∉ s.live) ∧
  match a with
  | .call (.chanalt base as) => AltArray s base as
  | _ => True

instance (s : Sys σ) (e : Env) (a : Action) : Decidable (Admits s e a) := by
  unfold Admits
  split <;> infer_instance

def step (i : Env × Action) (s : Sys Links) : Option (Sys Links) :=
  if Admits s i.1 i.2 then
    match i.2, s.control, s.taskrunning with
    | .schedule, .scheduler, _ => some (taskscheduler s)
    | .resume, .resume, some t => some (finish t s (resume i.1 t s))
    | .call c, .user, some t => some (finish t s (call i.1 c t s))
    | _, _, _ => none
  else none

section
variable {s s' : Sys Links} {t : TaskPtr} {e : Env}

theorem step_cases {act : Action} (hs : step (e, act) s = some s') :
    (act = .schedule ∧ s.control = .scheduler ∧ s' = taskscheduler s) ∨
    (∃ t, act = .resume ∧ s.taskrunning = some t ∧ s.control = .resume ∧
      s' = finish t s (resume e t s)) ∨
    ∃ c t, act = .call c ∧ s.taskrunning = some t ∧ s.control = .user ∧ Admits s e (.call c) ∧
      s' = finish t s (call e c t s) := by
  unfold step at hs
  split at hs
  · rename_i hadm
    split at hs
    · rename_i hact hc
      exact .inl ⟨hact, hc, (Option.some.inj hs).symm⟩
    · rename_i t hact hc hr
      exact .inr (.inl ⟨t, hact, hr, hc, (Option.some.inj hs).symm⟩)
    · rename_i c t hact hc hr
      obtain rfl : act = .call c := hact
      exact .inr (.inr ⟨c, t, rfl, hr, hc, hadm, (Option.some.inj hs).symm⟩)
    · cases hs
  · cases hs

theorem step_resume (ht : s.taskrunning = some t) (hs : step (e, .resume) s = some s') :
    s' = finish t s (resume e t s) := by
  obtain ⟨hact, _⟩ | ⟨u, _, hu, _, hs'⟩ | ⟨_, _, hact, _⟩ := step_cases hs
  · cases hact
  · rwa [← Option.some.inj (hu.symm.trans ht)]
  · cases hact

theorem step_call {c : Call} (ht : s.taskrunning = some t) (hs : step (e, .call c) s = some s') :
    s' = finish t s (call e c t s) := by
  obtain ⟨hact, _⟩ | ⟨_, hact, _⟩ | ⟨_, u, hact, hu, _, _, hs'⟩ := step_cases hs
  · cases hact
  · cases hact
  · cases hact
    rwa [← Option.some.inj (hu.symm.trans ht)]

theorem step_of_call {c : Call} (ht : s.taskrunning = some t) (hc : s.control = .user)
    (hadm : Admits s e (.call c)) : step (e, .call c) s = some (finish t s (call e c t s)) := by
  simp only [step, if_pos hadm, hc, ht]

end

/-- What a program fixes before it runs: the sizes of its channels, the lock of each of its
rendezvous points, the initial memory, and the block of its first task. A channel, lock or
rendezvous point is untouched until the program creates it, so all exist from the start. -/
structure Program where
  elemsize : ℕ → ℕ
  bufsize : ℕ → ℕ
  elemsize_lt : ∀ c, elemsize c < 2 ^ 31
  bufsize_lt : ∀ c, bufsize c < 2 ^ 31
  chanbuf : ℕ → ℕ → UInt8
  rendezl : ℕ → Option ℕ
  mem : ℕ → UInt8
  taskmain : TaskPtr
  taskmain_ne : taskmain ≠ 0
  taskmain_aligned : taskmain % 4 = 0

/-- The globals as the program is loaded. -/
def Program.globals (P : Program) : Sys Links where
  links := { next := fun _ => none, prev := fun _ => none, list := fun _ => ⟨none, none⟩ }
  task := fun _ =>
    { context := .taskstart, alarmtime := 0, id := 0, exiting := false, alltaskslot := 0,
      system := false, ready := false, startfn := .user }
  live := ∅
  alltask := fun _ => 0
  nalltask := 0
  alltaskcap := 0
  taskidgen := 0
  taskcount := 0
  tasknswitch := 0
  taskexitval := 0
  taskrunning := none
  control := .scheduler
  qlock := fun _ => { owner := none }
  rwlock := fun _ => { readers := 0, writer := none }
  rendez := fun r => { l := P.rendezl r }
  chan := fun c => chancreate (P.elemsize c) (P.bufsize c) (P.chanbuf c)
  alts := fun _ => []
  mem := P.mem
  pollfd := fun _ => { fd := 0, events := 0, revents := 0 }
  polltask := fun _ => 0
  npollfd := 0
  startedfdtask := false
  sleepingcounted := 0
  log := []

/-- `main` up to its call of `taskscheduler`. -/
def Program.boot (P : Program) : Sys Links :=
  match taskcreate .user P.taskmain P.globals with
  | .ok s => s
  | .error h => { P.globals with control := .halted h }

/-- A step that is a call satisfies `ok`. -/
def Keeps (ok : Sys Links → Call → Prop) (s : Sys Links) (i : Env × Action) : Prop :=
  match i.2 with
  | .call c => ok s c
  | _ => True

instance (ok : Sys Links → Call → Prop) [∀ s c, Decidable (ok s c)] (s : Sys Links)
    (i : Env × Action) : Decidable (Keeps ok s i) := by
  unfold Keeps
  split <;> infer_instance

/-- Reachable by a run of some program in which every call satisfies `ok`. -/
def ReachableBy (ok : Sys Links → Call → Prop) : Sys Links → Prop :=
  Runs.Reach (Runs.Step step (Keeps ok)) fun s => ∃ P : Program, s = P.boot

/-- Reachable by any run of any program. -/
def Reachable : Sys Links → Prop := ReachableBy fun _ _ => True

theorem ReachableBy.reachable {ok : Sys Links → Call → Prop} {s : Sys Links}
    (h : ReachableBy ok s) : Reachable s :=
  h.mono fun _ _ ⟨i, _, hs⟩ => ⟨i, by unfold Keeps; split <;> trivial, hs⟩

theorem Reachable.snoc {s s' : Sys Links} {i : Env × Action} (h : Reachable s)
    (hs : step i s = some s') : Reachable s' :=
  Runs.Reach.snoc h ⟨i, by unfold Keeps; split <;> trivial, hs⟩

/-- What the inputs `is` lead to from the start, if each call among them satisfies `ok`. -/
def Program.after (P : Program) (ok : Sys Links → Call → Prop) [∀ s c, Decidable (ok s c)]
    (is : List (Env × Action)) : Option (Sys Links) :=
  Runs.execBy step (Keeps ok) is P.boot

theorem Program.reachableBy_after {P : Program} {ok : Sys Links → Call → Prop}
    [∀ s c, Decidable (ok s c)] {is : List (Env × Action)} {s : Sys Links}
    (h : P.after ok is = some s) : ReachableBy ok s :=
  ⟨P.boot, ⟨P, rfl⟩, Runs.path_of_execBy h⟩

/-- A program with one task to begin with and channels of one byte each. -/
def Program.small : Program where
  elemsize _ := 1
  bufsize _ := 1
  elemsize_lt _ := by decide
  bufsize_lt _ := by decide
  chanbuf _ _ := 0
  rendezl r := some r
  mem _ := 0
  taskmain := 4096
  taskmain_ne := by decide
  taskmain_aligned := by decide

/-- An environment in which nothing but `malloc` matters. -/
def Env.still (malloc : TaskPtr) : Env where
  malloc := malloc
  rand₁ := 0
  rand₂ := 0
  nsec₁ := 0
  nsec₂ := 0
  poll := .eintr

end Libtask
