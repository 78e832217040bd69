import Libtask.Abstract.Objects
import Libtask.Abstract.Resumed
import Libtask.Properties.Placement

/-! A `QLock` excludes and is handed over in order, as long as only its owner releases it. -/
namespace Libtask
open Function Runs Relation

/-- The call releases `l` only if the caller owns it. -/
def QClient {σ : Type} (l : ℕ) (s : Sys σ) : Call → Prop
  | .qunlock l' => l' = l → (s.qlock l).owner = s.taskrunning
  | .tasksleep r => (s.rendez r).l = some l → (s.qlock l).owner = s.taskrunning
  | _ => True

instance {σ : Type} (l : ℕ) (s : Sys σ) (c : Call) : Decidable (QClient l s c) := by
  unfold QClient
  split <;> infer_instance

/-- The lock keeps its invariant, and a task it was handed to is still in its call. -/
structure QState (l : ℕ) (a : Sys Queues) : Prop where
  lock : HandoffLock.Inv (a.qview l)
  asleep : ∀ t, HandoffLock.Handed t (a.qlog l) →
    t ∈ a.live ∧ (a.task t).context.inQlock l ∧ ¬a.User t

section
variable {lab : Option Call} {l : ℕ} {a b : Sys Queues} {pl : Placement} {t : TaskPtr}

theorem qview_unlock (a : Sys Queues) (l : ℕ) (t : TaskPtr) :
    (a.unlock l t).qview l = match a.links (.qwaiting l) with
      | [] => ⟨none, [], .release t :: a.qlog l⟩
      | u :: us => ⟨some u, us, .handoff u :: .release t :: a.qlog l⟩ := by
  cases hq : a.links (.qwaiting l) with
  | nil =>
    rw [Sys.unlock_nil hq]
    simp [Sys.qview, Sys.handoffLock, Sys.qlog, Sys.emit, Sys.setOwner, qEvent, hq]
  | cons u us =>
    rw [Sys.unlock_cons hq]
    simp [Sys.qview, Sys.handoffLock, Sys.qlog, Sys.wake, Sys.ready, Sys.enq, Sys.deq, Sys.setTask,
      Sys.emit, Sys.setOwner, qEvent, List.filterMap_cons, hq]

/-- The owner releases the lock. -/
theorem step_unlock (ho : (a.qlock l).owner = some t) (hn : ¬HandoffLock.Handed t (a.qlog l)) :
    HandoffLock.Step (a.qview l) ((a.unlock l t).qview l) := by
  rw [qview_unlock]
  cases hq : a.links (.qwaiting l) with
  | nil =>
    have hs := HandoffLock.Step.release (s := a.qview l) t ho hn hq
    simpa [Sys.qview, Sys.handoffLock, hq] using hs
  | cons u us => exact .handoff t u us ho hn hq

/-- What a move on queuing locks or rendezvous points does to the lock `l`. -/
theorem QMove.qview (m : QMove lab a b) (hlab : ∀ c, lab = some c → QClient l a c)
    (hn : ∀ t, a.User t → ¬HandoffLock.Handed t (a.qlog l)) :
    b.qview l = a.qview l ∨ HandoffLock.Step (a.qview l) (b.qview l) := by
  have hother : ∀ {c d : Sys Queues} {o : Obj}, LockOps o c d → o ≠ .qlock l →
      SameAt (.qlock l) c d := fun h ho => h.sameAt ho
  cases m with
  | @qback _ t l' h ho =>
    by_cases hl : l' = l
    · subst hl
      have hs := HandoffLock.Step.back (s := a.qview l') t ho
      right
      simpa [Sys.qview, Sys.handoffLock, Sys.qlog, Sys.emit, qEvent] using hs
    · left
      refine SameAt.qview ((hother (.single (.emit (.q l' _) rfl)) ?_).control _)
      simpa using hl
  | @sleepback _ t r l' h ho =>
    by_cases hl : l' = l
    · subst hl
      have hs := HandoffLock.Step.back (s := a.qview l') t ho
      right
      simpa [Sys.qview, Sys.handoffLock, Sys.qlog, Sys.emit, qEvent, List.filterMap_cons] using hs
    · left
      have hq : SameAt (.qlock l) a (a.emit (.q l' (.back t))) :=
        hother (.single (.emit (.q l' _) rfl)) (by simpa using hl)
      exact SameAt.qview ((hq.trans
        (hother (.single (.emit (.rendez r _) rfl)) (by simp))).control _)
  | @awake _ t r h hl =>
    left
    exact SameAt.qview ((hother (.single (.emit (.rendez r _) rfl)) (by simp)).control _)
  | @reacquire _ t r l' h hr ho =>
    by_cases hl : l' = l
    · subst hl
      have hs := HandoffLock.Step.acquire (s := a.qview l') t ho
      right
      simpa [Sys.qview, Sys.handoffLock, Sys.qlog, Sys.emit, Sys.setOwner, qEvent,
        List.filterMap_cons] using hs
    · left
      have hq : SameAt (.qlock l) a ((a.setOwner l' (some t)).emit (.q l' (.acquire t))) :=
        hother (.tail (.single (.setOwner l' _ rfl)) (.emit (.q l' _) rfl)) (by simpa using hl)
      exact SameAt.qview ((hq.trans
        (hother (.single (.emit (.rendez r _) rfl)) (by simp))).control _)
  | @qacquire _ t l' h ho =>
    by_cases hl : l' = l
    · subst hl
      have hs := HandoffLock.Step.acquire (s := a.qview l') t ho
      right
      simpa [Sys.qview, Sys.handoffLock, Sys.qlog, Sys.emit, Sys.setOwner, qEvent] using hs
    · left
      refine SameAt.qview (hother (.tail (.single (.setOwner l' _ rfl)) (.emit (.q l' _) rfl)) ?_)
      simpa using hl
  | @qblock _ t l' x h ho =>
    by_cases hl : l' = l
    · subst hl
      have hs := HandoffLock.Step.block (s := a.qview l') t ho
      right
      simpa [Sys.qview, Sys.handoffLock, Sys.qlog, Sys.emit, Sys.enq, Sys.switch, Sys.setTask,
        qEvent] using hs
    · left
      refine SameAt.qview ((hother (.tail (.single (.emit (.q l' _) rfl)) (.enq _ t rfl)) ?_).switch
        x t)
      simpa using hl
  | @qunlock _ t l' h ho =>
    by_cases hl : l' = l
    · subst hl
      have hown : (a.qlock l').owner = a.taskrunning := hlab _ rfl rfl
      exact .inr (step_unlock (hown.trans h.1) (hn t h))
    · left
      refine SameAt.qview (hother (lockOps_unlock a l' t) ?_)
      simpa using hl
  | @tasksleep _ t r h ho =>
    have hsame : SameAt (.qlock l) a ((a.emit (.rendez r (.sleep t))).enq (.rendez r) t) :=
      hother (.tail (.single (.emit (.rendez r _) rfl)) (.enq _ t rfl)) (by simp)
    cases hr : (a.rendez r).l with
    | none =>
      left
      rw [Sys.sleep_none hr]
      exact SameAt.qview (hsame.switch _ t)
    | some l' =>
      rw [Sys.sleep_some hr, ← Sys.enq_unlock]
      by_cases hl : l' = l
      · subst hl
        have hown : (a.qlock l').owner = a.taskrunning := hlab _ rfl hr
        have hs := step_unlock (l := l') (a := (a.emit (.rendez r (.sleep t))).enq (.rendez r) t)
          (hown.trans h.1) (hn t h)
        rw [SameAt.qview hsame] at hs
        exact .inr hs
      · left
        refine SameAt.qview ((hsame.trans (hother (lockOps_unlock _ l' t) ?_)).switch _ t)
        simpa using hl
  | @wakeup _ t u r us h hq =>
    left
    exact SameAt.qview (hother (.tail (.single (.emit (.rendez r _) rfl)) (.wake rfl hq)) (by simp))

/-- A task that waits for the lock, or was just handed it, leaves its call only with it. -/
theorem Move.of_inQlock (hI : Inv a pl) (m : Move lab a b) (ht : a.taskrunning = some t)
    (hu : a.control ≠ .user) (hc : (a.task t).context.inQlock l) :
    b.live = a.live ∧ b.task = a.task ∧ b.control ≠ .user ∨
      b.qlog l = .back t :: a.qlog l := by
  have hx : ∀ {x : Context}, (a.task t).context = x → x.inQlock l := fun h => h ▸ hc
  cases m.resumed hI ht hu with
  | note e he => exact .inl ⟨rfl, rfl, hu⟩
  | halt v => exact .inl ⟨rfl, rfl, by simp [Sys.halt]⟩
  | back hret =>
    rcases hc with hc | ⟨_, hc⟩ <;> rw [hc] at hret <;> exact hret.elim
  | altback _ hb => rcases hx hb with hc | ⟨_, hc⟩ <;> cases hc
  | system hs => rcases hx hs with hc | ⟨_, hc⟩ <;> cases hc
  | fd hf =>
    rcases hf with ⟨hf, _⟩ | ⟨_, hf⟩ <;> rcases hx hf with hc | ⟨_, hc⟩ <;> cases hc
  | rw _ m =>
    cases m with
    | rback h | wback h => rcases hx (h.eq ht).2 with hc | ⟨_, hc⟩ <;> cases hc
    | racquire h | rblock h | runlock h | wacquire h | wblock h | wunlock h => exact absurd h.2 hu
  | queuing _ m =>
    cases m with
    | qacquire h | qunlock h | tasksleep h | wakeup h => exact absurd h.2 hu
    | awake h | reacquire h => rcases hx (h.eq ht).2 with hc | ⟨_, hc⟩ <;> cases hc
    | qblock h =>
      rcases h with ⟨h, _⟩ | ⟨_, h, _⟩
      · exact absurd h.2 hu
      · rcases hx (h.eq ht).2 with hc | ⟨_, hc⟩ <;> cases hc
    | qback h ho =>
      right
      obtain ⟨rfl, hback⟩ := h.eq ht
      rcases hx hback with hc | ⟨_, hc⟩ <;> cases hc
      simp [Sys.qlog, Sys.emit, qEvent]
    | sleepback h ho =>
      right
      obtain ⟨rfl, hback⟩ := h.eq ht
      rcases hx hback with hc | ⟨_, hc⟩ <;> cases hc
      simp [Sys.qlog, Sys.emit, qEvent, List.filterMap_cons]

/-- Who waits in line for the lock is in a call for it, and does not run. -/
theorem Inv.in_line (hI : Inv a pl) (ht : t ∈ a.links (.qwaiting l)) :
    t ∈ a.live ∧ (a.task t).context.inQlock l ∧ a.taskrunning ≠ some t := by
  have hpl : pl t = some (.list (.qwaiting l)) := hI.placed.mem_list.mp ht
  have hhome : (a.task t).context.home = some (.list (.qwaiting l)) := (hI.fits t _ hpl).1
  refine ⟨hI.mem_live hpl, ?_, fun hr => ?_⟩
  · cases hc : (a.task t).context <;> rw [hc] at hhome <;>
      simp only [Context.home, reduceCtorEq, Option.some.injEq, Loc.list.injEq,
        TasklistRef.qwaiting.injEq] at hhome
    · exact .inl (by rw [hhome])
    · exact .inr ⟨_, by rw [hhome]⟩
  · obtain ⟨loc, hloc, hcpu⟩ := (hI.onCpu.running t).mp hr
    rw [hpl] at hloc
    cases hloc
    rcases hcpu with h | h <;> cases h

theorem QState.move (hI : Inv a pl) (h : QState l a) (m : Move lab a b)
    (hlab : ∀ c, lab = some c → QClient l a c) : QState l b := by
  have hview : b.qview l = a.qview l ∨ HandoffLock.Step (a.qview l) (b.qview l) := by
    rcases m.plain_or hI with hp | hq | hrw
    · exact .inl (hp.sameAt _).qview
    · exact hq.qview hlab fun u hu hh => (h.asleep u hh).2.2 hu
    · exact .inl (hrw.sameAt (by simp)).qview
  constructor
  case lock =>
    rcases hview with hview | hstep
    · rw [hview]
      exact h.lock
    · exact hstep.inv h.lock
  case asleep =>
    intro t ht
    have hold : t ∈ a.live ∧ (a.task t).context.inQlock l ∧ ¬a.User t := by
      rcases hview with hview | hstep
      · apply h.asleep
        have hlog : b.qlog l = a.qlog l := congrArg HandoffLock.Lock.log hview
        rwa [hlog] at ht
      · rcases hstep.handed ht with hw | hh
        · obtain ⟨hl, hc, hr⟩ := hI.in_line hw
          exact ⟨hl, hc, fun hu => hr hu.1⟩
        · exact h.asleep t hh
    obtain ⟨hl, hc, hu⟩ := hold
    by_cases hr : a.taskrunning = some t
    · have hctl : a.control ≠ .user := fun hctl => hu ⟨hr, hctl⟩
      rcases m.of_inQlock hI hr hctl hc with ⟨hlive, htask, hb⟩ | hback
      · rw [hlive, htask]
        exact ⟨hl, hc, fun hub => hb hub.2⟩
      · rw [hback] at ht
        exact absurd ht (HandoffLock.not_handed_back t _)
    · rcases m.stays_or hI hl hr with hs | ⟨_, rfl⟩
      · refine ⟨hs.live hl, ?_, fun hub => hs.idle hr hub.1⟩
        rw [hs.task.context]
        exact hc
      · refine ⟨hl, ?_, fun hub => ?_⟩
        · simpa [Sys.dispatch, Sys.emit, Sys.setTask, Sys.deq] using hc
        · cases hub.2

theorem ReachedBy.qState (h : ReachedBy (QClient l) a) : QState l a := by
  induction h using Reach.induct with
  | init h =>
    obtain ⟨P, rfl⟩ := h
    exact ⟨HandoffLock.inv_init, fun t ht => absurd ht (HandoffLock.not_handed_nil t)⟩
  | step h hs ih =>
    obtain ⟨pl, hI⟩ := ReachedBy.inv h
    obtain ⟨_, m, hlab⟩ := hs
    exact ih.move hI m hlab

end

/-- The caller `t` has released the lock to the first of those who waited, `ts`, and made it
ready. -/
structure QReleased (l : ℕ) (t : TaskPtr) (ts : List TaskPtr) (s s' : Sys Links) : Prop where
  owner : (s'.qlock l).owner = ts.head?
  line : WellLinked s'.links (.qwaiting l) ts.tail
  log : s'.qlog l = ts.head?.toList.map .handoff ++ .release t :: s.qlog l
  ready : ∀ u, ts.head? = some u → (s'.task u).ready = true

/-- What a call for the lock by `t` does at once, with `ts` in line. The caller is back with 1
if and only if it took a free lock; `canqlock` is back with 0 and did nothing. -/
structure QLockCalls (l : ℕ) (t : TaskPtr) (ts : List TaskPtr) (s : Sys Links) : Prop where
  takes : (s.qlock l).owner = none → ∀ e c s', c = .qlock l ∨ c = .canqlock l →
    step (e, .call c) s = some s' →
    s'.control = .user ∧ (s'.qlock l).owner = some t ∧ WellLinked s'.links (.qwaiting l) ts ∧
      s'.log = .ret t 1 :: .q l (.acquire t) :: s.log
  waits : (s.qlock l).owner ≠ none → ∀ e s', step (e, .call (.qlock l)) s = some s' →
    s'.control = .scheduler ∧ (s'.task t).context = .qlock l ∧ s'.qlock = s.qlock ∧
      WellLinked s'.links (.qwaiting l) (ts ++ [t]) ∧ s'.log = .q l (.block t) :: s.log
  fails : (s.qlock l).owner ≠ none → ∀ e s', step (e, .call (.canqlock l)) s = some s' →
    s' = s.emit (.ret t 0)
  unlocks : (s.qlock l).owner = some t → ∀ e s', step (e, .call (.qunlock l)) s = some s' →
    s'.control = .user ∧ QReleased l t ts s s'
  sleeps : (s.qlock l).owner = some t → ∀ e r s', (s.rendez r).l = some l →
    step (e, .call (.tasksleep r)) s = some s' →
    s'.control = .scheduler ∧ (s'.task t).context = .tasksleep r ∧ QReleased l t ts s s'

/-- The lock excludes, is handed over in order and is never forgotten; a call for it is back in
user code with 1 if and only if the caller owns it, be it at once or after it was blocked. -/
structure QLockSafe (l : ℕ) (s : Sys Links) : Prop where
  lock : ∃ ts, WellLinked s.links (.qwaiting l) ts ∧ HandoffLock.Inv (s.handoffLock l ts) ∧
    ∀ t, s.taskrunning = some t → s.control = .user → QLockCalls l t ts s
  back : ∀ t, s.taskrunning = some t → s.control = .resume → (s.task t).context.inQlock l →
    (s.qlock l).owner = some t ∧ ∀ e s', step (e, .resume) s = some s' →
      s'.control = .user ∧ s'.qlock = s.qlock ∧
        ((s.task t).context = .qlock l → s'.log = .ret t 1 :: .q l (.back t) :: s.log)

section
variable {l r : ℕ} {s s' : Sys Links} {a b : Sys Queues} {pl : Placement} {t : TaskPtr} {e : Env}

/-- A resumed call for a lock that the task owns returns. -/
theorem step_resume_qlock (ht : s.taskrunning = some t) (hx : (s.task t).context.inQlock l)
    (ho : (s.qlock l).owner = some t) (hs : step (e, .resume) s = some s') :
    s'.control = .user ∧ s'.qlock = s.qlock ∧
      ((s.task t).context = .qlock l → s'.log = .ret t 1 :: .q l (.back t) :: s.log) := by
  have hs' := step_resume ht hs
  have hback : qlockBack l t s = .ok (s.emit (.q l (.back t)), .value 1) := by
    unfold qlockBack
    rw [if_neg (not_not.mpr ho)]
  rcases hx with hx | ⟨r, hx⟩
  · have hres : resume e t s = qlockBack l t s := by simp only [resume, hx]
    rw [hs', hres, hback]
    exact ⟨rfl, rfl, fun _ => rfl⟩
  · have hres : resume e t s =
        .ok ((s.emit (.q l (.back t))).emit (.rendez r (.awake t)), .void) := by
      simp only [resume, hx, hback]
      rfl
    rw [hs', hres]
    refine ⟨rfl, rfl, fun hc => ?_⟩
    rw [hx] at hc
    cases hc

theorem unlock_ready (a : Sys Queues) (l : ℕ) (t u : TaskPtr)
    (hu : (a.links (.qwaiting l)).head? = some u) : ((a.unlock l t).task u).ready = true := by
  obtain ⟨us, hq⟩ := List.head?_eq_some_iff.mp hu
  rw [Sys.unlock_cons hq]
  simp [Sys.wake, Sys.ready, Sys.enq, Sys.emit, Sys.setTask]

theorem Sim.qReleased (h : Sim s' b) (hq : b.qview l = (a.unlock l t).qview l)
    (htask : ∀ u, (b.task u).ready = ((a.unlock l t).task u).ready)
    (hlog : a.qlog l = s.qlog l) : QReleased l t (a.links (.qwaiting l)) s s' := by
  have hrel : b.qview l = ⟨(a.links (.qwaiting l)).head?, (a.links (.qwaiting l)).tail,
      (a.links (.qwaiting l)).head?.toList.map .handoff ++ .release t :: a.qlog l⟩ := by
    rw [hq, qview_unlock]
    cases a.links (.qwaiting l) <;> rfl
  constructor
  case owner =>
    rw [h.qlock]
    exact congrArg HandoffLock.Lock.owner hrel
  case line =>
    have hline : b.links (.qwaiting l) = (a.links (.qwaiting l)).tail :=
      congrArg HandoffLock.Lock.waiting hrel
    rw [← hline]
    exact h.wellLinked _
  case log =>
    have hb : s'.qlog l = b.qlog l := by rw [Sys.qlog, Sys.qlog, h.log]
    rw [hb, ← hlog]
    exact congrArg HandoffLock.Lock.log hrel
  case ready =>
    intro u hu
    rw [h.task, htask]
    exact unlock_ready a l t u hu

theorem qLockCalls (h : Sim s a) (hI : Inv a pl) (ht : s.taskrunning = some t)
    (hc : s.control = .user) : QLockCalls l t (a.links (.qwaiting l)) s := by
  have hu : a.User t := by
    obtain ⟨q, hq, rfl⟩ := h
    exact ⟨ht, hc⟩
  have hlog : a.qlog l = s.qlog l := by rw [Sys.qlog, Sys.qlog, h.log]
  constructor
  case takes =>
    intro ho e c s' hcall hs
    have hcases : ∀ block, ∃ s₁, qlockWith l block (.qlock l) t s = (s₁, .value 1) ∧
        Sim s₁ ((a.setOwner l (some t)).emit (.q l (.acquire t))) := by
      intro block
      obtain ⟨_, h₁⟩ | ⟨hn, _⟩ | ⟨hn, _⟩ := qlockWith_cases (l := l) h hI hu block
      · exact h₁
      · exact absurd ho hn
      · exact absurd ho hn
    have hres : ∃ s₁, call e c t s = .ok (s₁, .value 1) ∧
        Sim s₁ ((a.setOwner l (some t)).emit (.q l (.acquire t))) := by
      rcases hcall with rfl | rfl
      · obtain ⟨s₁, heq, hs₁⟩ := hcases true
        exact ⟨s₁, congrArg Except.ok heq, hs₁⟩
      · obtain ⟨s₁, heq, hs₁⟩ := hcases false
        exact ⟨s₁, congrArg Except.ok heq, hs₁⟩
    obtain ⟨s₁, hok, hs₁⟩ := hres
    rw [step_call ht hs, hok]
    refine ⟨rfl, ?_, hs₁.wellLinked _, ?_⟩
    · show (s₁.qlock l).owner = some t
      simp [hs₁.qlock, Sys.setOwner, Sys.emit]
    · show .ret t 1 :: s₁.log = _
      rw [← hs₁.log, ← h.log]
      rfl
  case waits =>
    intro ho e s' hs
    obtain ⟨hn, _⟩ | ⟨_, hb, _⟩ | ⟨_, _, s₁, heq, hs₁⟩ := qlockWith_cases (l := l) h hI hu true
    · exact absurd hn ho
    · cases hb
    · have hok : call e (.qlock l) t s = .ok (s₁, .switched) := congrArg Except.ok heq
      rw [step_call ht hs, hok]
      refine ⟨hs₁.control, ?_, hs₁.qlock.trans h.qlock.symm, ?_, ?_⟩
      · show (s₁.task t).context = .qlock l
        simp [hs₁.task]
      · show WellLinked s₁.links (.qwaiting l) _
        have hline := hs₁.wellLinked (.qwaiting l)
        simpa [Sys.switch, Sys.enq, Sys.emit, Sys.setTask] using hline
      · show s₁.log = _
        rw [← hs₁.log, ← h.log]
        rfl
  case fails =>
    intro ho e s' hs
    obtain ⟨hn, _⟩ | ⟨_, _, heq⟩ | ⟨_, hb, _⟩ := qlockWith_cases (l := l) h hI hu false
    · exact absurd hn ho
    · have hok : call e (.canqlock l) t s = .ok (s, .value 0) := congrArg Except.ok heq
      rw [step_call ht hs, hok, finish, ← hc]
    · cases hb
  case unlocks =>
    intro ho e s' hs
    obtain ⟨s₁, heq, hs₁⟩ := sim_unlock (l := l) (t := t) h (by rw [← h.qlock, ho]; simp)
    have hok : call e (.qunlock l) t s = .ok (s₁, .void) := by
      simp only [call, heq]
      rfl
    rw [step_call ht hs, hok]
    exact ⟨rfl, (hs₁.setControl .user).qReleased rfl (fun _ => rfl) hlog⟩
  case sleeps =>
    intro ho e r s' hr hs
    have hra : (a.rendez r).l = some l := by
      obtain ⟨q, hq, rfl⟩ := h
      exact hr
    obtain ⟨s₁, heq, hs₁⟩ := sim_sleep (r := r) h hI hu (fun l' hl' => by
      rw [hra] at hl'
      cases hl'
      rw [← h.qlock, ho]
      simp)
    have hok : call e (.tasksleep r) t s = .ok (s₁, .switched) := heq
    rw [step_call ht hs, hok]
    refine ⟨hs₁.control, ?_, ?_⟩
    · show (s₁.task t).context = .tasksleep r
      simp [hs₁.task]
    · have hsame : SameAt (.qlock l) a ((a.emit (.rendez r (.sleep t))).enq (.rendez r) t) :=
        LockOps.sameAt (.tail (.single (.emit (.rendez r _) rfl)) (.enq _ t rfl)) (by simp)
      rw [Sys.sleep_some hra, ← Sys.enq_unlock] at hs₁
      have hq := hs₁.qReleased (s := s) (l := l) (t := t)
        (a := (a.emit (.rendez r (.sleep t))).enq (.rendez r) t) rfl (fun u => Sys.switch_ready)
        ((congrArg HandoffLock.Lock.log hsame.qview).trans hlog)
      rw [hsame.links (.qwaiting l) rfl] at hq
      exact hq

/-- As long as only its owner releases it, a `QLock` has at most one holder, its owner; it goes
to those who block in their order, by hand-over before anybody else can take it; and nobody
waits on a free lock, or is woken without owning it. -/
theorem qlock_handoff (h : ReachableBy (QClient l) s) : QLockSafe l s := by
  have hclient : ∀ (s : Sys Links) (a : Sys Queues) c, Sim s a → QClient l s c → QClient l a c := by
    intro s a c hs hc
    obtain ⟨q, hq, rfl⟩ := hs
    exact hc
  obtain ⟨a, ha, hs⟩ := ReachableBy.sim hclient h
  obtain ⟨pl, hI⟩ := ha.inv
  have hstate := ha.qState
  constructor
  case lock =>
    refine ⟨a.links (.qwaiting l), hs.wellLinked _, ?_, fun t ht hc => qLockCalls hs hI ht hc⟩
    obtain ⟨q, hq, rfl⟩ := hs
    exact hstate.lock
  case back =>
    obtain ⟨q, hq, rfl⟩ := hs
    intro t ht hc hx
    have hres : (s.withLinks q).Resuming t (s.task t).context := ⟨ht, hc, rfl⟩
    have hgranted := hI.fits t _ (hI.resuming hres)
    have hhanded : HandoffLock.Handed t (s.qlog l) := by
      have hgranted : (s.task t).context.granted (s.withLinks q) t := hgranted
      rcases hx with hx | ⟨r, hx⟩
      · rw [hx] at hgranted
        exact hgranted
      · rw [hx] at hgranted
        exact hgranted.1
    have hown : (s.qlock l).owner = some t := hstate.lock.handed t hhanded
    exact ⟨hown, fun e s' hs => step_resume_qlock ht hx hown hs⟩

end

/-- The first task blocks on a lock that the task it created holds, and is handed it. -/
def handoffRun : List (Env × Action) :=
  [(.still 0, .schedule), (.still 0, .resume), (.still 8192, .call (.taskcreate .user)),
    (.still 0, .call .taskyield), (.still 0, .schedule), (.still 0, .resume),
    (.still 0, .call (.qlock 0)), (.still 0, .call .taskyield), (.still 0, .schedule),
    (.still 0, .resume), (.still 0, .call (.qlock 0)), (.still 0, .schedule),
    (.still 0, .resume), (.still 0, .call (.qunlock 0))]

theorem qlock_handoff_small : ∃ s, Program.small.after (QClient 0) handoffRun = some s ∧
    (s.qlock 0).owner = some 4096 ∧ QLockSafe 0 s := by
  have hrun : (Program.small.after (QClient 0) handoffRun).map (fun s => (s.qlock 0).owner) =
      some (some 4096) := by decide
  obtain ⟨s, hs, howner⟩ := Option.map_eq_some_iff.mp hrun
  exact ⟨s, hs, howner, qlock_handoff (Program.reachableBy_after hs)⟩

end Libtask
