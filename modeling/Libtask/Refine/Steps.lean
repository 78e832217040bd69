import Libtask.Refine.Chanalt
import Libtask.Refine.Fd
import Libtask.Refine.Locks

/-! The refinement: every step of the pointer-level machine is a walk of the abstract one, so
all its runs are runs of the abstract machine. -/
namespace Libtask
open Function Relation Runs

section Step
variable {s s' : Sys Links} {a : Sys Queues} {pl : Placement} {t : TaskPtr} {e : Env}

theorem Walks.weaken (h : Walks none a s) (o : Option Call) : Walks o a s := by
  obtain ⟨b, hw, hs⟩ := h
  exact ⟨b, (Walk.refl o a).append hw, hs⟩

/-- The scheduler switches to the first task of the run queue. -/
theorem sim_taskscheduler {ts : List TaskPtr} (h : Sim s a) (h0 : a.taskcount ≠ 0)
    (hq : a.links .taskrunqueue = t :: ts) : Sim (taskscheduler s) (a.dispatch t) := by
  have hcount : s.taskcount = a.taskcount ∧ s.tasknswitch = a.tasknswitch := by
    obtain ⟨q, hq, rfl⟩ := h
    exact ⟨rfl, rfl⟩
  rw [taskscheduler, if_neg (hcount.1 ▸ h0), h.head, hq]
  obtain ⟨q, hrep, hsim⟩ := (h.deltask hq).setTask t fun x => { x with ready := false }
  refine ⟨q, hrep, ?_⟩
  rw [Sys.dispatch, hsim, ← hcount.2]
  rfl

theorem walks_taskscheduler (h : Sim s a) (hc : a.control = .scheduler) :
    Walks none a (taskscheduler s) := by
  have hcount : s.taskcount = a.taskcount ∧ s.taskexitval = a.taskexitval := by
    obtain ⟨q, hq, rfl⟩ := h
    exact ⟨rfl, rfl⟩
  by_cases h0 : a.taskcount = 0
  · rw [taskscheduler, if_pos (hcount.1.trans h0)]
    exact ⟨_, .one (.exit hc h0), hcount.2 ▸ h.setControl _⟩
  · cases hq : a.links .taskrunqueue with
    | nil =>
      rw [taskscheduler, if_neg (hcount.1 ▸ h0), h.head, hq]
      exact ⟨_, .one (.stall hc h0 hq), h.setControl _⟩
    | cons t ts => exact ⟨_, .one (.dispatch hc h0 hq), sim_taskscheduler h h0 hq⟩

theorem walks_call {c : Call} (h : Sim s a) (hI : Inv a pl) (ht : a.User t)
    (hadm : Admits s e (.call c)) : Walks (some c) a (finish t s (call e c t s)) := by
  obtain ⟨hm, hadm⟩ := hadm
  cases c with
  | taskcreate fn =>
    by_cases h0 : e.malloc = 0
    · have herr : call e (.taskcreate fn) t s = .error (.abort .taskallocMalloc) := by
        simp [call, taskcreate, taskalloc, h0, bind, Except.bind]
      rw [herr]
      exact finish_error (.one (.nomem ht)) h
    · obtain ⟨ha, hp⟩ := hm.resolve_left h0
      rw [h.live] at hp
      obtain ⟨s', hok, hs'⟩ := h.taskcreate hI fn h0 hp
      simp only [call, hok]
      exact finish_value (.call (.life (.create fn ht h0 ha hp))) hs' ht.2
  | tasksystem =>
    refine Walks.weaken (finish_void (.one (.tasksystem (.inl ht))) (h.tasksystem t) ?_) _
    unfold tasksystem
    split <;> exact ht.2
  | taskyield =>
    have hn : s.tasknswitch = a.tasknswitch := by
      obtain ⟨q, hq, rfl⟩ := h
      rfl
    refine Walks.weaken (finish_switched (.one (.taskyield ht)) ?_) _
    rw [taskyield, hn]
    refine (h.taskready (hI.off_lists (hI.user ht) (.inl rfl))).taskswitch _ ?_
    rw [Inv.ready_exiting]
    exact hI.not_exiting (hI.user ht)
  | taskexit v =>
    exact Walks.weaken
      (finish_switched (.one (.life (.taskexit v ht))) (h.taskexit v t)) _
  | taskexitall v => exact Walks.weaken (finish_error (.one (.exitall v (.inl ht))) h) _
  | anyready => exact Walks.weaken (finish_value (.refl _ a) h ht.2) _
  | qlock l => exact (walks_qlockWith h hI ht true).weaken _
  | canqlock l => exact (walks_qlockWith h hI ht false).weaken _
  | qunlock l => exact walks_qunlock h ht
  | rlock l => exact walks_rlockWith h hI ht true
  | canrlock l => exact walks_rlockWith h hI ht false
  | runlock l => exact walks_runlock h ht
  | wlock l => exact (walks_wlockWith h hI ht true).weaken _
  | canwlock l => exact (walks_wlockWith h hI ht false).weaken _
  | wunlock l => exact walks_wunlock h hI ht
  | tasksleep r => exact walks_tasksleep h hI ht
  | taskwakeup r => exact (walks_taskwakeup h hI ht).weaken _
  | taskwakeupall r => exact (walks_taskwakeupall h hI ht).weaken _
  | chanalt base as =>
    refine (walks_chanalt h hI ht hadm.1 ?_).weaken _
    obtain ⟨q, hq, rfl⟩ := h
    exact hadm.2
  | taskdelay ms => exact (walks_taskdelay h hI ht hm ms).weaken _
  | fdwait fd rw => exact (walks_fdwait h hI ht hm fd rw).weaken _
  | fdtask => exact walks_fdcall h hI ht
  | write mem =>
    have hsim : Sim { s with mem } { a with mem } := by
      obtain ⟨q, hq, rfl⟩ := h
      exact ⟨q, hq, rfl⟩
    exact Walks.weaken (finish_void (.one (.write mem ht)) hsim ht.2) _

/-- A dispatched task goes on in the call it was switched out of. -/
theorem walks_resume (h : Sim s a) (hI : Inv a pl) (hr : a.taskrunning = some t)
    (hc : a.control = .resume) : Walks none a (finish t s (resume e t s)) := by
  have hres : ∀ {c}, (a.task t).context = c → a.Resuming t c := fun hx => ⟨hr, hc, hx⟩
  have hg : (a.task t).context.granted a t := hI.fits t _ (hI.resuming (hres rfl))
  unfold resume
  rw [h.task]
  cases hx : (a.task t).context with
  | taskstart =>
    cases hf : (a.task t).startfn with
    | user =>
      exact back_void (.back (hres hx) hf) h
    | fdtask =>
      exact walks_fdtask h hI (hres hx) hf
  | taskyield n => exact back_value (.back (hres hx) trivial) h
  | fdtask n => exact walks_fdtaskBack h hI (hres hx)
  | qlock l => exact walks_qlockBack h (hres hx)
  | sleepqlock r l => exact walks_sleepBack h (hres hx)
  | rlock l => exact back_value (.rw (.rback (hres hx))) (h.emit _)
  | wlock l => exact back_value (.rw (.wback (hres hx))) (h.emit _)
  | tasksleep r => exact walks_tasksleepBack h hI (hres hx)
  | chanalt base => exact walks_chanaltBack h hI (hres hx)
  | taskdelay now =>
    exact ⟨_, ((Walk.one (.back (hres hx) trivial)).tail (.note (.delayed t _ _) rfl)).tail
      (.note (.ret t _) rfl), ((h.setControl .user).emit _).emit _⟩
  | fdwait => exact back_void (.back (hres hx) trivial) h
  | taskexit => exact absurd hg (by rw [hx]; exact id)

/-- What a step calls. -/
def Action.call? : Action → Option Call
  | .call c => some c
  | _ => none

theorem walks_step {act : Action} (h : Sim s a) (hI : Inv a pl)
    (hs : step (e, act) s = some s') : Walks act.call? a s' := by
  have hctl : s.control = a.control ∧ s.taskrunning = a.taskrunning := by
    obtain ⟨q, hq, rfl⟩ := h
    exact ⟨rfl, rfl⟩
  rcases step_cases hs with ⟨rfl, hc, rfl⟩ | ⟨t, rfl, hr, hc, rfl⟩ | ⟨c, t, rfl, hr, hc, hadm, rfl⟩
  · exact (walks_taskscheduler h (hctl.1 ▸ hc)).weaken _
  · exact (walks_resume h hI (hctl.2 ▸ hr) (hctl.1 ▸ hc)).weaken _
  · exact walks_call h hI ⟨hctl.2 ▸ hr, hctl.1 ▸ hc⟩ hadm

theorem sim_boot (P : Program) : Sim P.boot P.start := by
  have hrep : Sim P.globals P.empty := by
    refine ⟨fun _ => [],
      ⟨fun k => ⟨rfl, rfl⟩, fun _ => List.nodup_nil, fun _ _ _ h => absurd h (by simp)⟩, rfl⟩
  obtain ⟨s, hok, hs⟩ := hrep.taskcreate P.inv_empty .user P.taskmain_ne
    (by simp [Program.empty, Program.globals, Sys.withLinks])
  rw [Program.boot, hok]
  exact hs

end Step

/-- What the abstract machine reaches from the start of some program, its labelled moves
keeping to `ok`. -/
def ReachedBy (ok : Sys Queues → Call → Prop) : Sys Queues → Prop :=
  Reach (MoveBy ok) fun a => ∃ P : Program, a = P.start

section Runs
variable {ok : Sys Links → Call → Prop} {ok' : Sys Queues → Call → Prop} {s s' : Sys Links}
  {a : Sys Queues}

theorem ReachedBy.inv (h : ReachedBy ok' a) : ∃ pl, Inv a pl := by
  induction h using Reach.induct with
  | init h =>
    obtain ⟨P, rfl⟩ := h
    exact P.inv_start
  | step _ hs ih =>
    obtain ⟨pl, hI⟩ := ih
    obtain ⟨l, m, _⟩ := hs
    exact m.inv hI

/-- A step is matched by moves that keep to what the step's call keeps to. -/
theorem step_simulated (hok : ∀ s a c, Sim s a → ok s c → ok' a c) (h : Sim s a)
    (ha : ReachedBy ok' a) (hs : Step step (Keeps ok) s s') :
    ∃ b, ReflTransGen (MoveBy ok') a b ∧ Sim s' b := by
  obtain ⟨⟨e, act⟩, hact, hs⟩ := hs
  obtain ⟨pl, hI⟩ := ha.inv
  obtain ⟨b, hw, hb⟩ := walks_step h hI hs
  refine ⟨b, ReflTransGen.mono ?_ _ _ hw, hb⟩
  rintro x y ⟨l, m, hl⟩
  refine ⟨l, m, fun c hc => ?_⟩
  obtain ⟨rfl, hcall⟩ := hl c hc
  cases act with
  | call d =>
    obtain rfl : d = c := Option.some.inj hcall
    exact hok _ _ _ h hact
  | _ => cases hcall

/-- Whatever a program reaches, the abstract machine reaches. -/
theorem ReachableBy.sim (hok : ∀ s a c, Sim s a → ok s c → ok' a c) (h : ReachableBy ok s) :
    ∃ a, ReachedBy ok' a ∧ Sim s a := by
  refine Reach.simulate (fun s hs => ?_) (fun s t a _ ha hR hst => ?_) h
  · obtain ⟨P, rfl⟩ := hs
    exact ⟨P.start, ⟨P, rfl⟩, sim_boot P⟩
  · exact step_simulated hok hR ha hst

theorem Reachable.sim (h : Reachable s) :
    ∃ a pl, ReachedBy (fun _ _ => True) a ∧ Inv a pl ∧ Sim s a := by
  obtain ⟨a, ha, hs⟩ : ∃ a, ReachedBy (fun _ _ => True) a ∧ Sim s a :=
    ReachableBy.sim (fun _ _ _ _ _ => trivial) h
  obtain ⟨pl, hI⟩ := ha.inv
  exact ⟨a, pl, ha, hI, hs⟩

theorem Sim.running {pl : TaskPtr → Option Loc} {t : TaskPtr} (h : Sim s a) (hI : Inv a pl)
    (ht : s.taskrunning = some t) : t ∈ s.live ∧ (s.task t).exiting = false := by
  obtain ⟨q, _, rfl⟩ := h
  obtain ⟨loc, hloc, _⟩ := (hI.onCpu.running t).mp ht
  exact ⟨hI.mem_live hloc, hI.not_exiting hloc⟩

theorem Reachable.running {t : TaskPtr} (h : Reachable s) (ht : s.taskrunning = some t) :
    t ∈ s.live ∧ (s.task t).exiting = false := by
  obtain ⟨a, pl, _, hI, hs⟩ := h.sim
  exact hs.running hI ht

/-- Whatever a program does from a state on, the abstract machine does. -/
theorem path_simulated (hok : ∀ s a c, Sim s a → ok s c → ok' a c) (hs : ReachableBy ok s)
    (h : Sim s a) (ha : ReachedBy ok' a)
    (hp : ReflTransGen (Step step (Keeps ok)) s s') :
    ∃ b, ReflTransGen (MoveBy ok') a b ∧ Sim s' b :=
  Runs.ReflTransGen.simulate (R := Sim) (fun _ _ _ _ ha hR hst => step_simulated hok hR ha hst)
    hs ha h hp

end Runs
end Libtask
