import Libtask.Refine.Fd
import Libtask.Refine.Locks
import Libtask.Machine

/-! What goes through channels is of no concern to the rest of the library: its functions commute
with any change of channels, alt arrays and memory. -/
namespace Libtask
open Function

variable {σ : Type}

/-- The part of the state that channel.c and user code work on. -/
structure Data where
  chan : ℕ → Channel
  alts : ℕ → List Alt
  mem : ℕ → UInt8

def Sys.data (s : Sys σ) : Data := ⟨s.chan, s.alts, s.mem⟩

/-- The state with other data. -/
def Sys.withData (d : Data) (s : Sys σ) : Sys σ :=
  { s with chan := d.chan, alts := d.alts, mem := d.mem }

/-- What a call comes back with, on other data. -/
def Return.withData {α : Type} (d : Data) (r : Sys σ × α) : Sys σ × α := (r.1.withData d, r.2)

section Updates
variable (s : Sys σ) (d : Data)

@[simp] theorem withData_task : (s.withData d).task = s.task := rfl
@[simp] theorem withData_live : (s.withData d).live = s.live := rfl
@[simp] theorem withData_qlock : (s.withData d).qlock = s.qlock := rfl
@[simp] theorem withData_rwlock : (s.withData d).rwlock = s.rwlock := rfl
@[simp] theorem withData_rendez : (s.withData d).rendez = s.rendez := rfl
@[simp] theorem withData_control : (s.withData d).control = s.control := rfl
@[simp] theorem withData_taskrunning : (s.withData d).taskrunning = s.taskrunning := rfl
@[simp] theorem withData_emit (e : Event) : (s.withData d).emit e = (s.emit e).withData d := rfl
@[simp] theorem withData_setOwner (l : ℕ) (o : Option TaskPtr) :
    (s.withData d).setOwner l o = (s.setOwner l o).withData d := rfl
@[simp] theorem withData_setReaders (l : ℕ) (n : ℤ) :
    (s.withData d).setReaders l n = (s.setReaders l n).withData d := rfl
@[simp] theorem withData_setWriter (l : ℕ) (o : Option TaskPtr) :
    (s.withData d).setWriter l o = (s.setWriter l o).withData d := rfl

end Updates

section Lists
variable (s : Sys Links) (d : Data) (k : TasklistRef) (t : TaskPtr)

@[simp] theorem withData_head : head k (s.withData d) = head k s := rfl
@[simp] theorem withData_addtask : addtask k t (s.withData d) = (addtask k t s).withData d := rfl
@[simp] theorem withData_deltask : deltask k t (s.withData d) = (deltask k t s).withData d := rfl
@[simp] theorem withData_taskready : taskready t (s.withData d) = (taskready t s).withData d := rfl

end Lists

section
variable {s : Sys Links} {d : Data} {t u : TaskPtr}

@[simp] theorem withData_taskswitch (c : Context) (s : Sys σ) :
    taskswitch c t (s.withData d) = (taskswitch c t s).withData d := by
  by_cases h : (s.task t).exiting
  · by_cases h' : (s.task t).system <;>
      simp [taskswitch, taskfree, Sys.withData, h, h', Sys.setTask, Sys.emit]
  · simp [taskswitch, Sys.withData, h, Sys.setTask]

theorem taskswitch_data (c : Context) (s : Sys σ) : (taskswitch c t s).data = s.data := by
  have h := withData_taskswitch (t := t) (d := s.data) c s
  rw [show s.withData s.data = s from rfl] at h
  rw [h]
  rfl

@[simp] theorem withData_tasksystem (s : Sys σ) :
    tasksystem t (s.withData d) = (tasksystem t s).withData d := by
  by_cases h : (s.task t).system <;> simp [tasksystem, Sys.withData, h, Sys.setTask]

theorem withData_taskscheduler : taskscheduler (s.withData d) = (taskscheduler s).withData d := by
  unfold taskscheduler
  by_cases h : s.taskcount = 0
  · rw [if_pos (show (s.withData d).taskcount = 0 from h), if_pos h]
    rfl
  · rw [if_neg (show ¬(s.withData d).taskcount = 0 from h), if_neg h, withData_head]
    cases head .taskrunqueue s <;> rfl

@[simp] theorem withData_taskcreate (fn : Startfn) (p : TaskPtr) :
    taskcreate fn p (s.withData d) = (taskcreate fn p s).map (Sys.withData d) := by
  by_cases h : p = 0
  · simp [taskcreate, taskalloc, h, bind, Except.bind, Except.map]
  · rw [taskcreate_eq fn h, taskcreate_eq fn h]
    rfl

theorem withData_taskexit (v : ℤ) (s : Sys σ) :
    taskexit v t (s.withData d) = (taskexit v t s).withData d := by
  rw [taskexit_eq, taskexit_eq]
  rfl

theorem withData_qlockWith (l : ℕ) (block : Bool) (c : Context) :
    qlockWith l block c t (s.withData d) = Return.withData d (qlockWith l block c t s) := by
  unfold qlockWith
  rw [apply_ite (Return.withData d), apply_ite (Return.withData d)]
  simp only [Return.withData, ← withData_taskswitch]
  rfl

theorem withData_rlockWith (l : ℕ) (block : Bool) :
    rlockWith l block t (s.withData d) = Return.withData d (rlockWith l block t s) := by
  unfold rlockWith
  rw [apply_ite (Return.withData d), apply_ite (Return.withData d)]
  simp only [Return.withData, ← withData_taskswitch]
  rfl

theorem withData_wlockWith (l : ℕ) (block : Bool) :
    wlockWith l block t (s.withData d) = Return.withData d (wlockWith l block t s) := by
  unfold wlockWith
  rw [apply_ite (Return.withData d), apply_ite (Return.withData d)]
  simp only [Return.withData, ← withData_taskswitch]
  rfl

theorem withData_qunlock (l : ℕ) :
    qunlock l t (s.withData d) = (qunlock l t s).map (Sys.withData d) := by
  by_cases h : (s.qlock l).owner = none
  · simp [qunlock, h, Except.map]
  · simp only [qunlock, withData_qlock, h, if_false, withData_head,
      withData_emit, withData_setOwner]
    split <;> rfl

theorem withData_wgrant (l : ℕ) : wgrant l (s.withData d) = (wgrant l s).withData d := by
  by_cases h : (s.rwlock l).readers = 0
  · simp only [wgrant, withData_rwlock, h, if_true, withData_head, withData_emit, withData_deltask,
      withData_setWriter, withData_taskready]
    split <;> rfl
  · simp only [wgrant, withData_rwlock, h, if_false]

theorem withData_runlock (l : ℕ) : runlock l t (s.withData d) = (runlock l t s).withData d := by
  simp [runlock, withData_wgrant]

theorem withData_wunlockReaders (l fuel : ℕ) :
    wunlockReaders l fuel (s.withData d) = (wunlockReaders l fuel s).map (Sys.withData d) := by
  induction fuel generalizing s with
  | zero => rfl
  | succ fuel ih =>
    simp only [wunlockReaders, withData_head, withData_emit, withData_deltask, withData_rwlock,
      withData_setReaders, withData_taskready, ih]
    split <;> rfl

theorem map_wgrant (l : ℕ) (r : Except Halt (Sys Links)) :
    (r.map (Sys.withData d)).map (wgrant l) = (r.map (wgrant l)).map (Sys.withData d) := by
  cases r with
  | error h => rfl
  | ok s => exact congrArg Except.ok (withData_wgrant l)

theorem withData_wunlock (l : ℕ) :
    wunlock l t (s.withData d) = (wunlock l t s).map (Sys.withData d) := by
  by_cases hw : (s.rwlock l).writer = none
  · rw [wunlock_unwritten hw, wunlock_unwritten (s := s.withData d) hw]
    rfl
  by_cases hr : (s.rwlock l).readers = 0
  · rw [wunlock_eq hw hr, wunlock_eq (s := s.withData d) hw hr]
    cases hh : (head (.rwaiting l) s).isSome
    · simp only [withData_head, hh, Bool.false_eq_true, if_false, withData_setWriter,
        withData_emit, withData_live, withData_wunlockReaders, map_wgrant]
    · simp only [withData_head, hh, if_true, withData_setWriter, withData_emit, withData_live,
        withData_wunlockReaders, map_wgrant]
  · rw [wunlock_hasreaders hw hr, wunlock_hasreaders (s := s.withData d) hw hr]
    rfl

theorem withData_tasksleep (r : ℕ) :
    tasksleep r t (s.withData d) = (tasksleep r t s).map (Return.withData d) := by
  simp only [tasksleep, withData_emit, withData_addtask, withData_rendez]
  cases ((addtask (.rendez r) t (s.emit (.rendez r (.sleep t)))).rendez r).l with
  | none => simp [bind, Except.bind, pure, Except.pure, Except.map, Return.withData]
  | some l =>
    simp only [withData_qunlock]
    cases qunlock l t (addtask (.rendez r) t (s.emit (.rendez r (.sleep t)))) with
    | error h => rfl
    | ok s' => simp [bind, Except.bind, pure, Except.pure, Except.map, Return.withData]

theorem withData_tasksleepBack (r : ℕ) :
    tasksleepBack r t (s.withData d) = Return.withData d (tasksleepBack r t s) := by
  simp only [tasksleepBack, withData_rendez, withData_qlockWith]
  cases (s.rendez r).l with
  | none => rfl
  | some l =>
    simp only [Return.withData]
    obtain ⟨s', v⟩ := qlockWith l true (.sleepqlock r l) t s
    cases v <;> rfl

theorem withData_taskwakeupWith (r : ℕ) (all : Bool) (fuel i : ℕ) :
    taskwakeupWith r all fuel i (s.withData d) =
      (taskwakeupWith r all fuel i s).map (Return.withData d) := by
  induction fuel generalizing s i with
  | zero => rfl
  | succ fuel ih =>
    simp only [taskwakeupWith, withData_head, withData_emit, withData_deltask,
      withData_taskready, ih]
    split
    · rfl
    · split <;> rfl

theorem withData_fdtaskYield : fdtaskYield t (s.withData d) = (fdtaskYield t s).withData d :=
  withData_taskswitch (.fdtask s.tasknswitch) (taskready t s)

theorem withData_pollWakeSlot (i fuel : ℕ) :
    pollWakeSlot i fuel (s.withData d) = (pollWakeSlot i fuel s).withData d := by
  induction fuel generalizing s with
  | zero => rfl
  | succ fuel ih =>
    unfold pollWakeSlot
    rw [apply_ite (Sys.withData d)]
    simp only [← ih]
    rfl

theorem withData_pollWake (fuel i : ℕ) :
    pollWake fuel i (s.withData d) = (pollWake fuel i s).withData d := by
  induction fuel generalizing s i with
  | zero => rfl
  | succ fuel ih =>
    unfold pollWake
    rw [apply_ite (Sys.withData d), ← ih, ← withData_pollWakeSlot]
    rfl

theorem withData_timerWake (now : UInt64) (fuel : ℕ) :
    timerWake now fuel (s.withData d) = (timerWake now fuel s).map (Sys.withData d) := by
  induction fuel generalizing s with
  | zero => rfl
  | succ fuel ih =>
    cases hu : head .sleeping s with
    | none =>
      have hu' : head .sleeping (s.withData d) = none := hu
      simp only [timerWake, hu, hu']
      rfl
    | some u =>
      have hu' : head .sleeping (s.withData d) = some u := hu
      by_cases hd : now ≥ (s.task u).alarmtime
      · rw [timerWake_due hu hd, timerWake_due hu' hd, ← ih]
        rfl
      · have hd' : ¬now ≥ ((s.withData d).task u).alarmtime := hd
        simp only [timerWake, hu, hu', if_neg hd, if_neg hd']
        rfl

theorem withData_polled (e : Env) (revents : ℕ → ℕ) :
    polled e revents (s.withData d) = (polled e revents s).withData d := by
  unfold polled
  rw [← withData_emit, ← withData_pollWake]
  rfl

theorem withData_fdtaskPass (e : Env) :
    fdtaskPass e t (s.withData d) = (fdtaskPass e t s).map (Return.withData d) := by
  cases hp : e.poll with
  | eintr =>
    simp only [fdtaskPass, hp, withData_emit, withData_head]
    exact congrArg (fun s => Except.ok (s, Return.switched)) withData_fdtaskYield
  | fail =>
    simp only [fdtaskPass, hp]
    rfl
  | done revents =>
    have hms : pollms e.nsec₁ (head .sleeping (s.withData d)) (s.withData d) =
        pollms e.nsec₁ (head .sleeping s) s := rfl
    rw [fdtaskPass_done hp, fdtaskPass_done hp]
    simp only [hms, withData_emit, withData_polled, withData_live, withData_timerWake]
    generalize timerWake _ _ _ = r
    cases r with
    | error h => rfl
    | ok s => exact congrArg (fun s => Except.ok (s, Return.switched)) withData_fdtaskYield

theorem withData_fdtaskBack (e : Env) (n : BitVec 32) :
    fdtaskBack e n t (s.withData d) = (fdtaskBack e n t s).map (Return.withData d) := by
  unfold fdtaskBack
  rw [apply_ite (Except.map (Return.withData d)), ← withData_fdtaskPass]
  have hyield : (Except.ok (fdtaskYield t s, Return.switched) : Except Halt _).map
    (Return.withData d) =
      .ok (fdtaskYield t (s.withData d), .switched) := by
    rw [withData_fdtaskYield]
    rfl
  rw [hyield]
  rfl

theorem withData_startfdtask (e : Env) :
    startfdtask e (s.withData d) = (startfdtask e s).map (Sys.withData d) := by
  unfold startfdtask
  rw [apply_ite (Except.map (Sys.withData d)), ← withData_taskcreate]
  rfl

theorem withData_taskdelay (e : Env) (ms : UInt32) :
    taskdelay e ms t (s.withData d) = (taskdelay e ms t s).map (Return.withData d) := by
  have hstart := withData_startfdtask (s := s) (d := d) e
  cases h : startfdtask e s with
  | error v =>
    rw [h] at hstart
    simp only [taskdelay, h, hstart]
    rfl
  | ok s₁ =>
    rw [h] at hstart
    rw [taskdelay_ok h, taskdelay_ok hstart]
    simp only [withData_head, withData_task, withData_live]
    rw [show (s₁.withData d).links = s₁.links from rfl]
    cases s₁.links.delayscan _ _ _ _ with
    | none => rfl
    | some u =>
      simp only [Except.map, Return.withData, ← withData_taskswitch]
      rfl

theorem withData_fdwait (e : Env) (fd : ℤ) (rw : Char) :
    fdwait e fd rw t (s.withData d) = (fdwait e fd rw t s).map (Return.withData d) := by
  simp only [fdwait, withData_startfdtask]
  cases startfdtask e s with
  | error h => rfl
  | ok s =>
    by_cases hn : s.npollfd ≥ MAXFD
    · have hn' : (s.withData d).npollfd ≥ MAXFD := hn
      simp only [Except.map, bind, Except.bind, if_pos hn, if_pos hn']
      rfl
    · have hn' : ¬(s.withData d).npollfd ≥ MAXFD := hn
      simp only [Except.map, bind, Except.bind, if_neg hn, if_neg hn', pure, Except.pure,
        Return.withData, ← withData_taskswitch]
      rfl

/-- Nothing of a call goes through channels or to the caller's own memory. -/
def Call.offData : Call → Prop
  | .chanalt _ _ | .write _ => False
  | _ => True

theorem withData_call (e : Env) {c : Call} (hc : c.offData) :
    call e c t (s.withData d) = (call e c t s).map (Return.withData d) := by
  cases c with
  | taskcreate fn =>
    simp only [call, withData_taskcreate]
    cases taskcreate fn e.malloc s <;> rfl
  | tasksystem => exact congrArg (fun s => Except.ok (s, Return.void)) (withData_tasksystem s)
  | taskyield =>
    exact congrArg (fun s => Except.ok (s, Return.switched))
      (withData_taskswitch (.taskyield s.tasknswitch) (taskready t s))
  | taskexit val =>
    exact congrArg (fun s => Except.ok (s, Return.switched))
      (withData_taskexit val s)
  | taskexitall | anyready => rfl
  | qlock l | canqlock l => exact congrArg Except.ok (withData_qlockWith ..)
  | qunlock l =>
    simp only [call, withData_qunlock]
    cases qunlock l t s <;> rfl
  | rlock l | canrlock l => exact congrArg Except.ok (withData_rlockWith ..)
  | runlock l => exact congrArg (fun s => Except.ok (s, Return.void)) (withData_runlock l)
  | wlock l | canwlock l => exact congrArg Except.ok (withData_wlockWith ..)
  | wunlock l =>
    simp only [call, withData_wunlock]
    cases wunlock l t s <;> rfl
  | tasksleep r => exact withData_tasksleep r
  | taskwakeup r =>
    simp only [call, taskwakeup, withData_taskwakeupWith, withData_live]
    cases taskwakeupWith r false (s.live.card + 1) 0 s <;> rfl
  | taskwakeupall r =>
    simp only [call, taskwakeupall, withData_taskwakeupWith, withData_live]
    cases taskwakeupWith r true (s.live.card + 1) 0 s <;> rfl
  | taskdelay ms => exact withData_taskdelay e ms
  | fdwait fd rw => exact withData_fdwait e fd rw
  | fdtask =>
    have h : fdtask t (s.withData d) = (fdtask t s).withData d := by
      rw [fdtask, withData_tasksystem, withData_fdtaskYield]
      rfl
    exact congrArg (fun s => Except.ok (s, Return.switched)) h
  | chanalt | write => exact hc.elim

theorem withData_qlockBack (l : ℕ) :
    qlockBack l t (s.withData d) = (qlockBack l t s).map (Return.withData d) := by
  unfold qlockBack
  rw [apply_ite (Except.map (Return.withData d))]
  rfl

/-- A task that goes on in `chanalt` looks at the alt arrays only. -/
theorem withData_resume (e : Env) (hd : d.alts = s.alts) :
    resume e t (s.withData d) = (resume e t s).map (Return.withData d) := by
  unfold resume
  rw [withData_task]
  cases (s.task t).context with
  | taskstart =>
    cases (s.task t).startfn with
    | user =>
      simp only
      rfl
    | fdtask =>
      simp only
      exact withData_call e (c := .fdtask) trivial
  | taskyield n | rlock l | wlock l | taskdelay now | fdwait | taskexit => rfl
  | fdtask n => exact withData_fdtaskBack e n
  | qlock l => exact withData_qlockBack l
  | sleepqlock r l =>
    simp only [withData_qlockBack]
    cases qlockBack l t s <;> rfl
  | tasksleep r => exact congrArg Except.ok (withData_tasksleepBack r)
  | chanalt base =>
    have halt : (s.withData d).deref ⟨base, 0⟩ = s.deref ⟨base, 0⟩ := by
      rw [Sys.deref, Sys.deref, Sys.alt?, Sys.alt?, show (s.withData d).alts = s.alts from hd]
    simp only [chanaltBack, halt]
    cases s.deref ⟨base, 0⟩ with
    | error v => rfl
    | ok x =>
      by_cases hb : x.xalt.base = base
      · simp [hb, bind, Except.bind, pure, Except.pure, Except.map, Return.withData]
      · simp [hb, bind, Except.bind, throw, throwThe, MonadExceptOf.throw, Except.map]

theorem withData_finish (r : Except Halt (Sys Links × Return)) :
    finish t (s.withData d) (r.map (Return.withData d)) = (finish t s r).withData d := by
  cases r with
  | error v => rfl
  | ok r =>
    obtain ⟨s', v⟩ := r
    cases v <;> rfl

/-- A step in which nothing goes through channels or to memory. -/
def Action.offData : Action → Prop
  | .call c => c.offData
  | _ => True

theorem Action.offData_or (a : Action) : a.offData ∨ (∃ base as, a = .call (.chanalt base as)) ∨
    ∃ mem, a = .call (.write mem) := by
  cases a with
  | schedule | resume => exact .inl trivial
  | call c =>
    cases c with
    | chanalt base as => exact .inr (.inl ⟨base, as, rfl⟩)
    | write mem => exact .inr (.inr ⟨mem, rfl⟩)
    | _ => exact .inl trivial

theorem withData_step {i : Env × Action} (hi : i.2.offData) (hd : d.alts = s.alts) :
    step i (s.withData d) = (step i s).map (Sys.withData d) := by
  obtain ⟨e, a⟩ := i
  have hadm : Admits (s.withData d) e a ↔ Admits s e a := by
    unfold Admits
    refine and_congr Iff.rfl ?_
    split
    · exact hi.elim
    · rfl
  unfold step
  by_cases h : Admits s e a
  · rw [if_pos (hadm.mpr h), if_pos h]
    simp only [withData_control, withData_taskrunning]
    split
    · exact congrArg some withData_taskscheduler
    · rw [withData_resume e hd, withData_finish]
      rfl
    · rw [withData_call e hi, withData_finish]
      rfl
    · rfl
  · rw [if_neg (mt hadm.mp h), if_neg h]
    rfl

theorem step_data {i : Env × Action} {s' : Sys Links} (hi : i.2.offData) (hs : step i s = some s') :
    s'.data = s.data := by
  have h := withData_step (s := s) (d := s.data) hi rfl
  rw [show s.withData s.data = s from rfl, hs] at h
  have heq : s' = s'.withData s.data := Option.some.inj h
  rw [heq]
  rfl

end
end Libtask
