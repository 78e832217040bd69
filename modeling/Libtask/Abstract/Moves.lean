import Libtask.Machine

/-! The abstract machine: task lists are sequences, and a run is a sequence of indivisible
moves. Each move says everything it can do, with the guard under which it happens; the
pointer-level machine is shown to make only such moves. -/
namespace Libtask
open Function

namespace Sys

def enq (k : TasklistRef) (t : TaskPtr) (a : Sys Queues) : Sys Queues :=
  { a with links := update a.links k (a.links k ++ [t]) }

def deq (k : TasklistRef) (a : Sys Queues) : Sys Queues :=
  { a with links := update a.links k (a.links k).tail }

/-- Make a task ready: it goes to the end of the run queue. -/
def ready (t : TaskPtr) (a : Sys Queues) : Sys Queues :=
  ((a.setTask t fun x => { x with ready := true }).emit (.ready t)).enq .taskrunqueue t

/-- Move the first task of a waiting list to the run queue. -/
def wake (k : TasklistRef) (t : TaskPtr) (a : Sys Queues) : Sys Queues := (a.deq k).ready t

/-- `taskswitch` by a task that has not called `taskexit`. -/
def switch {σ : Type} (c : Context) (t : TaskPtr) (a : Sys σ) : Sys σ :=
  { a.setTask t fun x => { x with context := c } with taskrunning := none, control := .scheduler }

section Switch
variable {σ : Type} {c : Context} {t u : TaskPtr} {a : Sys σ}

@[simp] theorem switch_self : (a.switch c t).task t = { a.task t with context := c } := by
  simp [switch, setTask]

theorem switch_of_ne (hu : u ≠ t) : (a.switch c t).task u = a.task u := by
  simp [switch, setTask, hu]

@[simp] theorem switch_ready : ((a.switch c t).task u).ready = (a.task u).ready := by
  by_cases hu : u = t
  · rw [hu, switch_self]
  · rw [switch_of_ne hu]

@[simp] theorem switch_exiting : ((a.switch c t).task u).exiting = (a.task u).exiting := by
  by_cases hu : u = t
  · rw [hu, switch_self]
  · rw [switch_of_ne hu]

end Switch

def create (fn : Startfn) (p : TaskPtr) (a : Sys Queues) : Sys Queues :=
  ready p { a with
    task := update a.task p
      { context := .taskstart, alarmtime := 0, id := a.taskidgen + 1, exiting := false,
        alltaskslot := a.nalltask, system := false, ready := false, startfn := fn }
    live := insert p a.live
    taskidgen := a.taskidgen + 1
    taskcount := a.taskcount + 1
    alltaskcap := if a.nalltask % 64 = 0 then a.nalltask + 64 else a.alltaskcap
    alltask := update a.alltask a.nalltask p
    nalltask := a.nalltask + 1 }

def dispatch (t : TaskPtr) (a : Sys Queues) : Sys Queues :=
  { (a.deq .taskrunqueue).setTask t fun x => { x with ready := false } with
    taskrunning := some t
    tasknswitch := a.tasknswitch + 1
    control := .resume }.emit (.dispatch t)

/-- Release a lock: its first waiter, if any, becomes the owner and is made ready. -/
def unlock (l : ℕ) (t : TaskPtr) (a : Sys Queues) : Sys Queues :=
  let a := (a.emit (.q l (.release t))).setOwner l (a.links (.qwaiting l)).head?
  match a.links (.qwaiting l) with
  | [] => a
  | u :: _ => (a.emit (.q l (.handoff u))).wake (.qwaiting l) u

/-- A lock without readers goes to its first waiting writer. -/
def grantWriter (l : ℕ) (a : Sys Queues) : Sys Queues :=
  match a.links (.wwaiting l) with
  | [] => a
  | u :: _ =>
    if (a.rwlock l).readers = 0 then
      ((a.emit (.rw l (.whandoff u))).setWriter l (some u)).wake (.wwaiting l) u
    else a

def readUnlock (l : ℕ) (t : TaskPtr) (a : Sys Queues) : Sys Queues :=
  ((a.setReaders l ((a.rwlock l).readers - 1)).emit (.rw l (.rrelease t))).grantWriter l

/-- Admit the waiting readers `us`, the first ones of their list, in this order. -/
def letIn (l : ℕ) : List TaskPtr → Sys Queues → Sys Queues
  | [], a => a
  | u :: us, a =>
    letIn l us (((a.emit (.rw l (.rhandoff u))).setReaders l
      ((a.rwlock l).readers + 1)).wake (.rwaiting l) u)

/-- Release a write hold: all waiting readers get in, or else the first waiting writer. -/
def writeUnlock (l : ℕ) (t : TaskPtr) (a : Sys Queues) : Sys Queues :=
  let a := (a.setWriter l none).emit (.rw l (.wrelease t))
  if a.links (.rwaiting l) = [] then a.grantWriter l
  else (a.emit (.rw l .rbatch)).letIn l (a.links (.rwaiting l))

section
variable {a : Sys Queues} {l : ℕ} {t u : TaskPtr} {us : List TaskPtr}

theorem unlock_nil (h : a.links (.qwaiting l) = []) :
    a.unlock l t = (a.emit (.q l (.release t))).setOwner l none := by
  simp [unlock, emit, setOwner, h]

theorem unlock_cons (h : a.links (.qwaiting l) = u :: us) : a.unlock l t =
    (((a.emit (.q l (.release t))).setOwner l (some u)).emit (.q l (.handoff u))).wake
      (.qwaiting l) u := by
  simp [unlock, emit, setOwner, h]

theorem writeUnlock_nil (h : a.links (.rwaiting l) = []) :
    a.writeUnlock l t = ((a.setWriter l none).emit (.rw l (.wrelease t))).grantWriter l := by
  simp [writeUnlock, emit, setWriter, h]

theorem writeUnlock_cons (h : a.links (.rwaiting l) = u :: us) : a.writeUnlock l t =
    (((a.setWriter l none).emit (.rw l (.wrelease t))).emit (.rw l .rbatch)).letIn l (u :: us) := by
  simp [writeUnlock, emit, setWriter, h]

end

/-- Go to sleep on a rendezvous point, releasing its lock. -/
def sleep (r : ℕ) (t : TaskPtr) (a : Sys Queues) : Sys Queues :=
  let a := (a.emit (.rendez r (.sleep t))).enq (.rendez r) t
  match (a.rendez r).l with
  | none => a
  | some l => a.unlock l t

/-- Unlocking and entering the list of sleepers touch different lists. -/
theorem enq_unlock (a : Sys Queues) (l r : ℕ) (t u : TaskPtr) :
    (a.enq (.rendez r) u).unlock l t = (a.unlock l t).enq (.rendez r) u := by
  cases hq : a.links (.qwaiting l) with
  | nil =>
    rw [unlock_nil hq, unlock_nil (by simpa [enq] using hq)]
    rfl
  | cons v vs =>
    rw [unlock_cons hq, unlock_cons (by simpa [enq] using hq)]
    simp only [wake, deq, ready, enq, emit, setTask, setOwner]
    congr 1
    funext k
    by_cases h₁ : k = .taskrunqueue <;> by_cases h₂ : k = .qwaiting l <;>
      by_cases h₃ : k = .rendez r <;> simp_all

theorem sleep_none {a : Sys Queues} {r : ℕ} {t : TaskPtr} (h : (a.rendez r).l = none) :
    a.sleep r t = (a.emit (.rendez r (.sleep t))).enq (.rendez r) t := by
  simp [sleep, emit, enq, h]

theorem sleep_some {a : Sys Queues} {r l : ℕ} {t : TaskPtr} (h : (a.rendez r).l = some l) :
    a.sleep r t = ((a.emit (.rendez r (.sleep t))).unlock l t).enq (.rendez r) t := by
  rw [← enq_unlock]
  simp [sleep, emit, enq, h]

/-- Wake the sleepers `us`, the first ones of their list, in this order. -/
def wakeAll (r : ℕ) : List TaskPtr → Sys Queues → Sys Queues
  | [], a => a
  | u :: us, a => wakeAll r us ((a.emit (.rendez r (.woken u))).wake (.rendez r) u)

def altenter {σ : Type} (base : ℕ) (as : List Alt) (t : TaskPtr) (a : Sys σ) : Sys σ :=
  altstamp base t ({ a with alts := update a.alts base as }.emit (.altcall t base))

def readyOpt : Option TaskPtr → Sys Queues → Sys Queues
  | none, a => a
  | some t, a => a.ready t

/-- Where a task that sleeps until `deadline` goes in the list of sleepers. -/
def insertSleeper (deadline : UInt64) (t : TaskPtr) (a : Sys Queues) : List TaskPtr :=
  let due (u : TaskPtr) : Bool := (a.task u).alarmtime < deadline
  (a.links .sleeping).takeWhile due ++ t :: (a.links .sleeping).dropWhile due

/-- One more counted sleeper: the first adds one to `taskcount`. -/
def countSleeper {σ : Type} (t : TaskPtr) (a : Sys σ) : Sys σ :=
  { a with
    sleepingcounted := if (a.task t).system then a.sleepingcounted else a.sleepingcounted + 1
    taskcount :=
      if ¬(a.task t).system ∧ a.sleepingcounted + 1 = 1 then a.taskcount + 1 else a.taskcount }

def uncountSleeper {σ : Type} (t : TaskPtr) (a : Sys σ) : Sys σ :=
  { a with
    sleepingcounted := if (a.task t).system then a.sleepingcounted else a.sleepingcounted - 1
    taskcount :=
      if ¬(a.task t).system ∧ a.sleepingcounted - 1 = 0 then a.taskcount - 1 else a.taskcount }

def delay (deadline : UInt64) (t : TaskPtr) (a : Sys Queues) : Sys Queues :=
  countSleeper t ({ a with
    links := update a.links .sleeping (a.insertSleeper deadline t) }.setTask t
      fun x => { x with alarmtime := deadline })

/-- Take slot `i` out of the poll table, the last slot moving into its place. -/
def pollRemove {σ : Type} (i : ℕ) (a : Sys σ) : Sys σ :=
  { a with
    npollfd := a.npollfd - 1
    pollfd := update a.pollfd i (a.pollfd (a.npollfd - 1))
    polltask := update a.polltask i (a.polltask (a.npollfd - 1)) }

def halt {σ : Type} (h : Halt) (a : Sys σ) : Sys σ := { a with control := .halted h }

/-- `t` runs user code. -/
def User {σ : Type} (t : TaskPtr) (a : Sys σ) : Prop :=
  a.taskrunning = some t ∧ a.control = .user

/-- `t` has just been dispatched and goes on at `c`. -/
def Resuming {σ : Type} (t : TaskPtr) (c : Context) (a : Sys σ) : Prop :=
  a.taskrunning = some t ∧ a.control = .resume ∧ (a.task t).context = c

end Sys

/-- A task in this context is inside the `_qlock` of `l`. -/
def Context.inQlock (l : ℕ) (c : Context) : Prop := c = .qlock l ∨ ∃ r, c = .sleepqlock r l

/-- Contexts a task goes back to user code from without more ado. -/
def Context.returns (fn : Startfn) : Context → Prop
  | .taskstart => fn = .user
  | .taskyield _ | .taskdelay _ | .fdwait => True
  | _ => False

/-- Events that only report a value returned or a clock reading. -/
def Event.neutral : Event → Bool
  | .ret _ _ | .delayed _ _ _ | .pollout _ => true
  | _ => false

open Sys in
/-- The moves on queuing locks and rendezvous points; the label names the call, where its
caller owes the library something. -/
inductive QMove : Option Call → Sys Queues → Sys Queues → Prop
  | qback {a : Sys Queues} {t : TaskPtr} {l : ℕ} (h : a.Resuming t (.qlock l))
      (ho : (a.qlock l).owner = some t) :
      QMove none a { a.emit (.q l (.back t)) with control := .user }
  | sleepback {a : Sys Queues} {t : TaskPtr} {r l : ℕ} (h : a.Resuming t (.sleepqlock r l))
      (ho : (a.qlock l).owner = some t) :
      QMove none a
        { (a.emit (.q l (.back t))).emit (.rendez r (.awake t)) with control := .user }
  | awake {a : Sys Queues} {t : TaskPtr} {r : ℕ} (h : a.Resuming t (.tasksleep r))
      (hl : (a.rendez r).l = none) :
      QMove none a { a.emit (.rendez r (.awake t)) with control := .user }
  | reacquire {a : Sys Queues} {t : TaskPtr} {r l : ℕ} (h : a.Resuming t (.tasksleep r))
      (hl : (a.rendez r).l = some l) (ho : (a.qlock l).owner = none) :
      QMove none a { ((a.setOwner l (some t)).emit (.q l (.acquire t))).emit
        (.rendez r (.awake t)) with control := .user }
  | qacquire {a : Sys Queues} {t : TaskPtr} {l : ℕ} (h : a.User t)
      (ho : (a.qlock l).owner = none) :
      QMove none a ((a.setOwner l (some t)).emit (.q l (.acquire t)))
  | qblock {a : Sys Queues} {t : TaskPtr} {l : ℕ} {c : Context}
      (h : a.User t ∧ c = .qlock l ∨
        ∃ r, a.Resuming t (.tasksleep r) ∧ c = .sleepqlock r l ∧ (a.rendez r).l = some l)
      (ho : (a.qlock l).owner ≠ none) :
      QMove none a (((a.emit (.q l (.block t))).enq (.qwaiting l) t).switch c t)
  | qunlock {a : Sys Queues} {t : TaskPtr} {l : ℕ} (h : a.User t)
      (ho : (a.qlock l).owner ≠ none) : QMove (some (.qunlock l)) a (a.unlock l t)
  | tasksleep {a : Sys Queues} {t : TaskPtr} {r : ℕ} (h : a.User t)
      (ho : ∀ l, (a.rendez r).l = some l → (a.qlock l).owner ≠ none) :
      QMove (some (.tasksleep r)) a ((a.sleep r t).switch (.tasksleep r) t)
  | wakeup {a : Sys Queues} {t u : TaskPtr} {r : ℕ} {us : List TaskPtr} (h : a.User t)
      (hq : a.links (.rendez r) = u :: us) :
      QMove none a ((a.emit (.rendez r (.woken u))).wake (.rendez r) u)

open Sys in
/-- The moves on reader-writer locks. -/
inductive RWMove : Option Call → Sys Queues → Sys Queues → Prop
  | rback {a : Sys Queues} {t : TaskPtr} {l : ℕ} (h : a.Resuming t (.rlock l)) :
      RWMove none a { a.emit (.rw l (.rback t)) with control := .user }
  | wback {a : Sys Queues} {t : TaskPtr} {l : ℕ} (h : a.Resuming t (.wlock l)) :
      RWMove none a { a.emit (.rw l (.wback t)) with control := .user }
  | racquire {a : Sys Queues} {t : TaskPtr} {l : ℕ} {c : Call} (h : a.User t)
      (hw : (a.rwlock l).writer = none) (hq : a.links (.wwaiting l) = [])
      (hc : c = .rlock l ∨ c = .canrlock l) :
      RWMove (some c) a ((a.setReaders l ((a.rwlock l).readers + 1)).emit (.rw l (.racquire t)))
  | rblock {a : Sys Queues} {t : TaskPtr} {l : ℕ} (h : a.User t)
      (hw : ¬((a.rwlock l).writer = none ∧ a.links (.wwaiting l) = [])) :
      RWMove none a (((a.emit (.rw l (.rblock t))).enq (.rwaiting l) t).switch (.rlock l) t)
  | runlock {a : Sys Queues} {t : TaskPtr} {l : ℕ} (h : a.User t) :
      RWMove (some (.runlock l)) a (a.readUnlock l t)
  | wacquire {a : Sys Queues} {t : TaskPtr} {l : ℕ} (h : a.User t)
      (hw : (a.rwlock l).writer = none) (hr : (a.rwlock l).readers = 0) :
      RWMove none a ((a.setWriter l (some t)).emit (.rw l (.wacquire t)))
  | wblock {a : Sys Queues} {t : TaskPtr} {l : ℕ} (h : a.User t)
      (hw : ¬((a.rwlock l).writer = none ∧ (a.rwlock l).readers = 0)) :
      RWMove none a (((a.emit (.rw l (.wblock t))).enq (.wwaiting l) t).switch (.wlock l) t)
  | wunlock {a : Sys Queues} {t : TaskPtr} {l : ℕ} (h : a.User t)
      (hw : (a.rwlock l).writer ≠ none) (hr : (a.rwlock l).readers = 0) :
      RWMove (some (.wunlock l)) a (a.writeUnlock l t)

open Sys in
/-- The moves by which tasks come and go. -/
inductive LifeMove : Option Call → Sys Queues → Sys Queues → Prop
  | create {a : Sys Queues} {t p : TaskPtr} (fn : Startfn) (h : a.User t) (h0 : p ≠ 0)
      (ha : p % 4 = 0) (hp : p ∉ a.live) : LifeMove (some (.taskcreate fn)) a (a.create fn p)
  | startfd {a : Sys Queues} {t p : TaskPtr} (h : a.User t) (h0 : p ≠ 0) (ha : p % 4 = 0)
      (hp : p ∉ a.live) (hs : a.startedfdtask = false) :
      LifeMove none a ({ a with startedfdtask := true }.create .fdtask p)
  | taskexit {a : Sys Queues} {t : TaskPtr} (v : ℤ) (h : a.User t) :
    LifeMove none a (taskexit v t a)

/-- Since the poller read the clock as `now` it has only made tasks ready. -/
def JustRead (now : UInt64) (log : List Event) : Prop :=
  ∃ new old, log = new ++ .pollout now :: old ∧ ∀ e ∈ new, ∃ t, e = .ready t

open Sys in
/-- The moves of the poller, and of the tasks that wait for it. -/
inductive FdMove : Option Call → Sys Queues → Sys Queues → Prop
  | fdcall {a : Sys Queues} {t : TaskPtr} (h : a.User t) :
      FdMove (some .fdtask) a (((tasksystem t a).ready t).switch (.fdtask a.tasknswitch) t)
  | fdyield {a : Sys Queues} {t : TaskPtr}
      (h : a.Resuming t .taskstart ∧ (a.task t).startfn = .fdtask ∨ ∃ n, a.Resuming t (.fdtask n)) :
      FdMove none a ((a.ready t).switch (.fdtask a.tasknswitch) t)
  | taskdelay {a : Sys Queues} {t : TaskPtr} (now : UInt64) (ms : UInt32) (h : a.User t)
      (hs : a.startedfdtask = true) :
      FdMove none a (((a.delay (now + ms.toUInt64 * 1000000) t).emit (.delay t now ms)).switch
        (.taskdelay now) t)
  | fdwait {a : Sys Queues} {t : TaskPtr} (fd : ℤ) (events : ℕ) (h : a.User t)
      (hs : a.startedfdtask = true) (hn : a.npollfd < MAXFD) :
      FdMove none a (({ a with
        polltask := update a.polltask a.npollfd t
        pollfd := update a.pollfd a.npollfd { fd, events, revents := 0 }
        npollfd := a.npollfd + 1 } : Sys Queues).emit (.fdwait t fd events) |>.switch .fdwait t)
  | poll {a : Sys Queues} {t : TaskPtr} {n : BitVec 32} (now : UInt64)
      (h : a.Resuming t (.fdtask n)) (hn : ¬0 < (taskyieldResult n a).toInt) :
      FdMove none a (a.emit (.poll now (pollms now (a.links .sleeping).head? a)))
  | revents {a : Sys Queues} {t : TaskPtr} {n : BitVec 32} (revents : ℕ → ℕ)
      (h : a.Resuming t (.fdtask n)) :
      FdMove none a { a with pollfd := fun i =>
        if i < a.npollfd then { a.pollfd i with revents := revents i } else a.pollfd i }
  | pollwake {a : Sys Queues} {t : TaskPtr} {n : BitVec 32} {i : ℕ}
      (h : a.Resuming t (.fdtask n)) (hi : i < a.npollfd) (hr : (a.pollfd i).revents ≠ 0) :
      FdMove none a ((a.ready (a.polltask i)).pollRemove i)
  | timerwake {a : Sys Queues} {t u : TaskPtr} {n : BitVec 32} {us : List TaskPtr} (now : UInt64)
      (h : a.Resuming t (.fdtask n)) (hp : JustRead now a.log) (hq : a.links .sleeping = u :: us)
      (hd : now ≥ (a.task u).alarmtime) :
      FdMove none a ((a.uncountSleeper u).wake .sleeping u)

open Sys in
/-- The moves of the abstract machine. -/
inductive Move : Option Call → Sys Queues → Sys Queues → Prop
  -- the scheduler
  | exit {a : Sys Queues} (hc : a.control = .scheduler) (h : a.taskcount = 0) :
      Move none a (a.halt (.exit a.taskexitval))
  | stall {a : Sys Queues} (hc : a.control = .scheduler) (h : a.taskcount ≠ 0)
      (hq : a.links .taskrunqueue = []) : Move none a (a.halt (.exit 1))
  | dispatch {a : Sys Queues} {t : TaskPtr} {ts : List TaskPtr} (hc : a.control = .scheduler)
      (h : a.taskcount ≠ 0) (hq : a.links .taskrunqueue = t :: ts) : Move none a (a.dispatch t)
  -- ends of the process
  | exitall {a : Sys Queues} {t : TaskPtr} (v : ℤ) (h : a.User t ∨ ∃ n, a.Resuming t (.fdtask n)) :
      Move none a (a.halt (.exit v))
  | nomem {a : Sys Queues} {t : TaskPtr} (h : a.User t) :
      Move none a (a.halt (.abort .taskallocMalloc))
  | toomany {a : Sys Queues} {t : TaskPtr} (h : a.User t) (hn : a.npollfd ≥ MAXFD) :
      Move none a (a.halt (.abort .tooManyPollfds))
  | unowned {a : Sys Queues} {t : TaskPtr} {l : ℕ} {c : Call} (h : a.User t)
      (ho : (a.qlock l).owner = none)
      (hc : c = .qunlock l ∨ ∃ r, c = .tasksleep r ∧ (a.rendez r).l = some l) :
      Move (some c) a (a.halt (.abort .qunlockOwner))
  | oops {a : Sys Queues} {t : TaskPtr} {l : ℕ} {c : Context} (h : a.Resuming t c)
      (hc : c.inQlock l) (ho : (a.qlock l).owner ≠ some t) :
      Move none a (a.halt (.abort .qlockOops))
  | unwritten {a : Sys Queues} {t : TaskPtr} {l : ℕ} (h : a.User t)
      (hw : (a.rwlock l).writer = none) :
      Move (some (.wunlock l)) a (a.halt (.abort .wunlockNotLocked))
  | hasreaders {a : Sys Queues} {t : TaskPtr} {l : ℕ} (h : a.User t)
      (hw : (a.rwlock l).writer ≠ none) (hr : (a.rwlock l).readers ≠ 0) :
      Move (some (.wunlock l)) a (a.halt (.abort .wunlockReaders))
  -- returning to user code
  | note {a : Sys Queues} (e : Event) (he : e.neutral = true) :
      Move none a (a.emit e)
  | back {a : Sys Queues} {t : TaskPtr} {c : Context} (h : a.Resuming t c)
      (hc : c.returns (a.task t).startfn) : Move none a { a with control := .user }
  | altback {a : Sys Queues} {t : TaskPtr} {base : ℕ} {x : Alt} (h : a.Resuming t (.chanalt base))
      (hx : a.alt? ⟨base, 0⟩ = some x) (hb : x.xalt.base = base) :
      Move none a { a.emit (.altret t base x.xalt.idx) with control := .user }
  -- tasks
  | life {lab : Option Call} {a b : Sys Queues} (m : LifeMove lab a b) : Move lab a b
  | tasksystem {a : Sys Queues} {t : TaskPtr}
      (h : a.User t ∨ a.Resuming t .taskstart ∧ (a.task t).startfn = .fdtask) :
      Move none a (tasksystem t a)
  | taskyield {a : Sys Queues} {t : TaskPtr} (h : a.User t) :
      Move none a ((a.ready t).switch (.taskyield a.tasknswitch) t)
  -- locks and rendezvous points
  | queuing {lab : Option Call} {a b : Sys Queues} (m : QMove lab a b) : Move lab a b
  | rw {lab : Option Call} {a b : Sys Queues} (m : RWMove lab a b) : Move lab a b
  -- channels
  | altrun {a b : Sys Queues} {t : TaskPtr} {base i rand₁ rand₂ : ℕ} {as : List Alt}
      {u : Option TaskPtr} (h : a.User t) (has : ∃ x ∈ as, isAltend x.op)
      (hbase : ∀ v ∈ a.live, a.taskrunning ≠ some v → (a.task v).context ≠ .chanalt base)
      (hi : altpick base (a.altenter base as t) (altlen as) rand₁ = some i)
      (hx : altexecMatch ⟨base, i⟩ rand₂ (a.altenter base as t) = .ok (b, u)) :
      Move none a ((b.readyOpt u).emit (.altret t base i))
  | altfail {a : Sys Queues} {t : TaskPtr} {base rand₁ : ℕ} {as : List Alt} (h : a.User t)
      (has : ∃ x ∈ as, isAltend x.op)
      (hbase : ∀ v ∈ a.live, a.taskrunning ≠ some v → (a.task v).context ≠ .chanalt base)
      (hi : altpick base (a.altenter base as t) (altlen as) rand₁ = none)
      (hn : ((as[altlen as]?).any fun x => x.op = .CHANEND) = false) :
      Move none a ((a.altenter base as t).emit (.altret t base (-1)))
  | altblock {a b : Sys Queues} {t : TaskPtr} {base rand₁ : ℕ} {as : List Alt} (h : a.User t)
      (has : ∃ x ∈ as, isAltend x.op)
      (hbase : ∀ v ∈ a.live, a.taskrunning ≠ some v → (a.task v).context ≠ .chanalt base)
      (hi : altpick base (a.altenter base as t) (altlen as) rand₁ = none)
      (hn : ((as[altlen as]?).any fun x => x.op = .CHANEND) = true)
      (hq : altqueueAll base (List.range (altlen as)) (a.altenter base as t) = .ok b) :
      Move none a (b.switch (.chanalt base) t)
  | write {a : Sys Queues} {t : TaskPtr} (mem : ℕ → UInt8) (h : a.User t) :
      Move none a { a with mem }
  | fd {lab : Option Call} {a b : Sys Queues} (m : FdMove lab a b) : Move lab a b

end Libtask
