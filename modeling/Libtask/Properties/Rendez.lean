import Libtask.Abstract.Objects
import Libtask.Properties.Placement

/-! A `Rendez` is a condition variable: no wakeup is lost, and none is spurious. -/
namespace Libtask
open Function Runs Relation

section
variable {lab : Option Call} {r : ℕ} {a b : Sys Queues} {pl : Placement} {t : TaskPtr}

/-- What a move on queuing locks or rendezvous points does to the rendezvous point `r`. -/
theorem QMove.rendezview (hI : Inv a pl) (m : QMove lab a b) :
    b.rendezview r = a.rendezview r ∨ CondVar.Step (a.rendezview r) (b.rendezview r) := by
  have hother : ∀ {c d : Sys Queues} {o : Obj}, LockOps o c d → o ≠ .rendez r →
      SameAt (.rendez r) c d := fun h ho => h.sameAt ho
  have hgranted : ∀ {u : TaskPtr} {c : Context}, a.Resuming u c → c.granted a u := by
    intro u c h
    have hg := hI.fits u _ (hI.resuming h)
    rw [← h.2.2]
    exact hg
  cases m with
  | @qback _ t l h ho =>
    left
    exact SameAt.rendezview ((hother (.single (.emit (.q l _) rfl)) (by simp)).control _)
  | @sleepback _ t r' l h ho =>
    by_cases hr : r' = r
    · subst hr
      have hs := CondVar.Step.awake (s := a.rendezview r') t (hgranted h).2.2
      right
      simpa [Sys.rendezview, Sys.condVar, Sys.rendezlog, Sys.emit, rendezEvent,
        List.filterMap_cons] using hs
    · left
      have hq : SameAt (.rendez r) a (a.emit (.q l (.back t))) :=
        hother (.single (.emit (.q l _) rfl)) (by simp)
      refine SameAt.rendezview
        ((hq.trans (hother (.single (.emit (.rendez r' _) rfl)) ?_)).control _)
      simpa using hr
  | @awake _ t r' h hl =>
    by_cases hr : r' = r
    · subst hr
      have hs := CondVar.Step.awake (s := a.rendezview r') t (hgranted h)
      right
      simpa [Sys.rendezview, Sys.condVar, Sys.rendezlog, Sys.emit, rendezEvent] using hs
    · left
      refine SameAt.rendezview ((hother (.single (.emit (.rendez r' _) rfl)) ?_).control _)
      simpa using hr
  | @reacquire _ t r' l h hl ho =>
    by_cases hr : r' = r
    · subst hr
      have hs := CondVar.Step.awake (s := a.rendezview r') t (hgranted h)
      right
      simpa [Sys.rendezview, Sys.condVar, Sys.rendezlog, Sys.emit, Sys.setOwner, rendezEvent,
        List.filterMap_cons] using hs
    · left
      have hq : SameAt (.rendez r) a ((a.setOwner l (some t)).emit (.q l (.acquire t))) :=
        hother (.tail (.single (.setOwner l _ rfl)) (.emit (.q l _) rfl)) (by simp)
      refine SameAt.rendezview
        ((hq.trans (hother (.single (.emit (.rendez r' _) rfl)) ?_)).control _)
      simpa using hr
  | @qacquire _ t l h ho =>
    left
    exact SameAt.rendezview (hother (.tail (.single (.setOwner l _ rfl)) (.emit (.q l _) rfl))
      (by simp))
  | @qblock _ t l x h ho =>
    left
    exact SameAt.rendezview ((hother (.tail (.single (.emit (.q l _) rfl)) (.enq _ t rfl))
      (by simp)).switch x t)
  | @qunlock _ t l h ho =>
    left
    exact SameAt.rendezview (hother (lockOps_unlock a l t) (by simp))
  | @tasksleep _ t r' h ho =>
    have hunlock : SameAt (.rendez r) ((a.emit (.rendez r' (.sleep t))).enq (.rendez r') t)
        (a.sleep r' t) := by
      cases hl : (a.rendez r').l with
      | none =>
        rw [Sys.sleep_none hl]
        exact .refl _ _
      | some l =>
        rw [Sys.sleep_some hl, ← Sys.enq_unlock]
        exact hother (lockOps_unlock _ l t) (by simp)
    by_cases hr : r' = r
    · subst hr
      have hs := CondVar.Step.sleep (s := a.rendezview r') t
      right
      rw [SameAt.rendezview (hunlock.switch _ t)]
      simpa [Sys.rendezview, Sys.condVar, Sys.rendezlog, Sys.emit, Sys.enq, rendezEvent] using hs
    · left
      refine SameAt.rendezview (((hother (.tail (.single (.emit (.rendez r' _) rfl))
        (.enq (.rendez r') t rfl)) ?_).trans hunlock).switch _ t)
      simpa using hr
  | @wakeup _ t u r' us h hq =>
    by_cases hr : r' = r
    · subst hr
      have hs := CondVar.Step.wake (s := a.rendezview r') u us hq
      right
      simpa [Sys.rendezview, Sys.condVar, Sys.rendezlog, Sys.wake, Sys.ready, Sys.enq, Sys.deq,
        Sys.setTask, Sys.emit, rendezEvent, List.filterMap_cons, hq] using hs
    · left
      refine SameAt.rendezview
        (hother (.tail (.single (.emit (.rendez r' _) rfl)) (.wake rfl hq)) ?_)
      simpa using hr

/-- A task that has just come back from `tasksleep` owns the lock. -/
def AwakeOwner (r : ℕ) (a : Sys Queues) : Prop :=
  ∀ t l, a.log.head? = some (.rendez r (.awake t)) → (a.rendez r).l = some l →
    (a.qlock l).owner = some t

/-- Of `r` nothing was logged, and unless something else was no lock has another owner. -/
theorem AwakeOwner.of_sameAt {P : Event → Prop} (h : AwakeOwner r a) (hlog : LogExt P a b)
    (hsame : ∀ o, (∀ l, o ≠ .rwlock l) → SameAt o a b) (hl : b.rendez = a.rendez) :
    AwakeOwner r b := by
  intro t l ht hr
  obtain ⟨new, hb, _⟩ := hlog
  rw [hl] at hr
  cases new with
  | nil =>
    rw [hb] at ht
    rw [(hsame (.qlock l) (by simp)).qlock l rfl]
    exact h t l ht hr
  | cons e new =>
    have hf := (hsame (.rendez r) (by simp)).log
    rw [hb] at ht hf
    obtain rfl : e = .rendez r (.awake t) := by simpa using ht
    have hlen := congrArg List.length hf
    simp [Event.obj] at hlen
    omega

theorem head_unlock (a : Sys Queues) (l : ℕ) (t : TaskPtr) :
    (a.unlock l t).log.head? = some (.q l (.release t)) ∨
      ∃ u, (a.unlock l t).log.head? = some (.ready u) := by
  cases hq : a.links (.qwaiting l) with
  | nil =>
    left
    rw [Sys.unlock_nil hq]
    rfl
  | cons u us =>
    right
    rw [Sys.unlock_cons hq]
    exact ⟨u, rfl⟩

/-- Something else than the return of a sleeper was logged last. -/
theorem AwakeOwner.of_head {e : Event} (hb : b.log.head? = some e)
    (he : ∀ t, e ≠ .rendez r (.awake t)) : AwakeOwner r b := by
  intro t l ht
  rw [hb] at ht
  exact absurd (Option.some.inj ht) (he t)

theorem QMove.awakeOwner (hI : Inv a pl) (m : QMove lab a b) : AwakeOwner r b := by
  have hunlock : ∀ (c : Sys Queues) (l : ℕ) (t : TaskPtr), AwakeOwner r (c.unlock l t) := by
    intro c l t
    rcases head_unlock c l t with h | ⟨u, h⟩
    · exact .of_head h (by simp)
    · exact .of_head h (by simp)
  cases m with
  | @qback _ t l => exact .of_head (e := .q l (.back t)) rfl (by simp)
  | @qacquire _ t l => exact .of_head (e := .q l (.acquire t)) rfl (by simp)
  | @qblock _ t l => exact .of_head (e := .q l (.block t)) rfl (by simp)
  | @wakeup _ t u => exact .of_head (e := .ready u) rfl (by simp)
  | qunlock => exact hunlock _ _ _
  | @tasksleep _ t r' =>
    cases hl : (a.rendez r').l with
    | none =>
      rw [Sys.sleep_none hl]
      exact .of_head (e := .rendez r' (.sleep t)) rfl (by simp)
    | some l =>
      rw [Sys.sleep_some hl]
      exact hunlock _ l t
  | @awake _ t r' h hl =>
    intro u l hu hr
    simp only [Sys.emit, List.head?_cons, Option.some.injEq, Event.rendez.injEq] at hu
    rw [← hu.1] at hr
    exact absurd (hl.symm.trans hr) (by simp)
  | @sleepback _ t r' l' h ho =>
    intro u l hu hr
    simp only [Sys.emit, List.head?_cons, Option.some.injEq, Event.rendez.injEq] at hu
    obtain ⟨rfl, hu⟩ := hu
    have hg := hI.fits t _ (hI.resuming h)
    rw [Loc.fits, h.2.2] at hg
    obtain rfl : l' = l := Option.some.inj (hg.2.1.symm.trans hr)
    obtain rfl := CondVar.Event.awake.inj hu
    exact ho
  | @reacquire _ t r' l' h hl ho =>
    intro u l hu hr
    simp only [Sys.emit, List.head?_cons, Option.some.injEq, Event.rendez.injEq] at hu
    obtain ⟨rfl, hu⟩ := hu
    obtain rfl : l' = l := Option.some.inj (hl.symm.trans hr)
    obtain rfl := CondVar.Event.awake.inj hu
    simp [Sys.emit, Sys.setOwner]

/-- What is known of the rendezvous point `r` in every state. -/
structure RendezState (r : ℕ) (a : Sys Queues) : Prop where
  cond : CondVar.Inv (a.rendezview r)
  owner : AwakeOwner r a

theorem RendezState.move (hI : Inv a pl) (h : RendezState r a) (m : Move lab a b) :
    RendezState r b := by
  rcases m.plain_or hI with hp | hq | hrw
  · constructor
    · rw [(hp.sameAt _).rendezview]
      exact h.cond
    · exact h.owner.of_sameAt hp.log (fun o _ => hp.sameAt o) hp.rendez
  · constructor
    · rcases hq.rendezview (r := r) hI with hsame | hstep
      · rw [hsame]
        exact h.cond
      · exact hstep.inv h.cond
    · exact hq.awakeOwner hI
  · constructor
    · rw [(hrw.sameAt (by simp)).rendezview]
      exact h.cond
    · exact h.owner.of_sameAt hrw.objMove.logExt (fun o ho => hrw.sameAt ho) hrw.objMove.rendez

theorem ReachedBy.rendezState {ok : Sys Queues → Call → Prop} (h : ReachedBy ok a) :
    RendezState r a := by
  induction h using Reach.induct with
  | init h =>
    obtain ⟨P, rfl⟩ := h
    exact ⟨CondVar.inv_init, .of_head (e := .ready P.taskmain) rfl (by simp)⟩
  | step h hs ih =>
    obtain ⟨pl, hI⟩ := ReachedBy.inv h
    obtain ⟨_, m, _⟩ := hs
    exact ih.move hI m

end

section
variable {r : ℕ} {a : Sys Queues} {t : TaskPtr}

/-- What waking `us` logs, newest event first. -/
def wokenEvents (r : ℕ) (us : List TaskPtr) : List Event :=
  us.reverse.flatMap fun u => [.ready u, .rendez r (.woken u)]

/-- The sleepers `us` go from the front of their list to the end of the run queue. -/
theorem wakeAll_eq (us rest : List TaskPtr) (hq : a.links (.rendez r) = us ++ rest) :
    a.wakeAll r us = { a with
      links := fun k => if k = .rendez r then rest
        else if k = .taskrunqueue then a.links .taskrunqueue ++ us else a.links k
      task := fun u => if u ∈ us then { a.task u with ready := true } else a.task u
      log := wokenEvents r us ++ a.log } := by
  induction us generalizing a with
  | nil =>
    have hlinks : (fun k => if k = .rendez r then rest
        else if k = .taskrunqueue then a.links .taskrunqueue else a.links k) = a.links := by
      funext k
      by_cases hk : k = .rendez r
      · simp [hk, hq]
      · by_cases hk' : k = .taskrunqueue <;> simp [hk, hk']
    simp only [Sys.wakeAll, wokenEvents, List.append_nil, hlinks, List.not_mem_nil, if_false,
      List.reverse_nil, List.flatMap_nil, List.nil_append]
  | cons u us ih =>
    have hrest : ((a.emit (.rendez r (.woken u))).wake (.rendez r) u).links (.rendez r) =
        us ++ rest := by
      simp [Sys.wake, Sys.ready, Sys.enq, Sys.emit, Sys.setTask, Sys.deq, hq]
    rw [Sys.wakeAll, ih hrest]
    simp only [Sys.wake, Sys.ready, Sys.enq, Sys.emit, Sys.setTask, Sys.deq]
    congr 1
    · funext k
      by_cases hk : k = .rendez r
      · simp [hk]
      · by_cases hk' : k = .taskrunqueue <;> simp [hk, hk']
    · funext v
      by_cases hv : v = u <;> by_cases hvs : v ∈ us <;> simp [hv, hvs]
    · simp [wokenEvents]

end

/-- From `s` to `s'` the call of `t` that returns wakes the first sleepers `us` of `r`, in their
order, and nothing else. -/
structure Wakes (r : ℕ) (t : TaskPtr) (us : List TaskPtr) (s s' : Sys Links) : Prop where
  lists : ∃ q : Queues, (∀ k, WellLinked s.links k (q k)) ∧ us <+: q (.rendez r) ∧
    ∀ k, WellLinked s'.links k (if k = .rendez r then (q k).drop us.length
      else if k = .taskrunqueue then q k ++ us else q k)
  rest : s' = { s with
    links := s'.links
    task := fun u => if u ∈ us then { s.task u with ready := true } else s.task u
    log := .ret t us.length :: (wokenEvents r us ++ s.log) }

section
variable {r : ℕ} {s s' : Sys Links} {a : Sys Queues} {pl : Placement} {t : TaskPtr} {e : Env}

theorem Wakes.of_sim (us : List TaskPtr) (h : Sim s a) (hc : s.control = .user)
    (hus : us <+: a.links (.rendez r)) (hs : Sim s' (a.wakeAll r us)) :
    Wakes r t us s (finish t s (.ok (s', .value us.length))) := by
  obtain ⟨rest, hrest⟩ := hus
  rw [wakeAll_eq us rest hrest.symm] at hs
  obtain ⟨q, hq, rfl⟩ := h
  obtain ⟨q', hq', hs'⟩ := hs
  have hq0 : q (.rendez r) = us ++ rest := hrest.symm
  constructor
  case lists =>
    refine ⟨q, fun k => wellLinked_of_isList (hq.isList k), ⟨rest, hrest⟩, fun k => ?_⟩
    have hk : q' k = if k = .rendez r then (q k).drop us.length
        else if k = .taskrunqueue then q k ++ us else q k := by
      have hl : q' = _ := (congrArg Sys.links hs').symm
      rw [hl]
      by_cases hr : k = .rendez r
      · simp [hr, hq0]
      · by_cases hrun : k = .taskrunqueue <;> simp [hr, hrun, Sys.withLinks]
    rw [← hk]
    exact wellLinked_of_isList (hq'.isList k)
  case rest =>
    have hs'' : s' = { s with
        links := s'.links
        task := fun u => if u ∈ us then { s.task u with ready := true } else s.task u
        log := wokenEvents r us ++ s.log } := by
      have hl := congrArg (fun x => Sys.withLinks x s'.links) hs'
      exact hl.symm
    rw [hs'']
    simp [finish, Sys.emit, ← hc]

/-- `taskwakeup` wakes the first sleeper if there is one. -/
theorem wakes_taskwakeup (h : Sim s a) (hI : Inv a pl) (ht : s.taskrunning = some t)
    (hc : s.control = .user) (hs : step (e, .call (.taskwakeup r)) s = some s') :
    Wakes r t ((a.links (.rendez r)).take 1) s s' := by
  have hu : a.User t := by
    obtain ⟨q, hq, rfl⟩ := h
    exact ⟨ht, hc⟩
  rw [step_call ht hs]
  cases hq : a.links (.rendez r) with
  | nil =>
    have hres : call e (.taskwakeup r) t s = .ok (s, .value (0 : ℕ)) := by
      simp only [call, taskwakeup, taskwakeup_nil h false hq]
      rfl
    rw [hres]
    exact .of_sim [] h hc List.nil_prefix h
  | cons u us =>
    obtain ⟨s₁, hok, hs₁⟩ := sim_wakeup h hq
      (h.live ▸ Finset.card_pos.mpr ⟨t, hI.mem_live (hI.user hu)⟩)
    have hres : call e (.taskwakeup r) t s = .ok (s₁, .value (1 : ℕ)) := by
      simp only [call, hok]
      rfl
    rw [hres]
    exact .of_sim [u] h hc ⟨us, hq.symm⟩ hs₁

/-- `taskwakeupall` ends, and wakes all sleepers. -/
theorem wakes_taskwakeupall (h : Sim s a) (hI : Inv a pl) (ht : s.taskrunning = some t)
    (hc : s.control = .user) (hs : step (e, .call (.taskwakeupall r)) s = some s') :
    Wakes r t (a.links (.rendez r)) s s' := by
  have hlen : (a.links (.rendez r)).length < s.live.card + 1 := by
    rw [h.live]
    exact Nat.lt_succ_of_le (hI.length_le _)
  obtain ⟨s₁, hok, hs₁⟩ := sim_wakeupall (r := r) 0 h rfl hlen
  rw [Nat.zero_add] at hok
  have hres : call e (.taskwakeupall r) t s =
      .ok (s₁, .value (a.links (.rendez r)).length) := by
    simp only [call, taskwakeupall, hok]
    rfl
  rw [step_call ht hs, hres]
  exact .of_sim _ h hc (List.prefix_refl _) hs₁

theorem tasksleep_switches {x : Sys Links × Return} (h : tasksleep r t s = .ok x) :
    ∃ c s₁, x = (taskswitch c t s₁, .switched) := by
  unfold tasksleep at h
  dsimp only at h
  split at h
  · obtain ⟨s₁, _, h⟩ := bind_ok h
    cases h
    exact ⟨_, _, rfl⟩
  · cases h
    exact ⟨_, _, rfl⟩

theorem tasksleep_blocks (h : step (e, .call (.tasksleep r)) s = some s') :
    s'.control ≠ .user := by
  rcases step_cases h with ⟨hact, _⟩ | ⟨_, hact, _⟩ | ⟨c, t, hact, _, _, _, rfl⟩
  · cases hact
  · cases hact
  · cases hact
    exact finish_blocks fun x => tasksleep_switches

end

/-- Sleepers are woken in their order, each once before it returns, and then own the lock; a
wakeup by anybody finds whoever went to sleep and was not woken since. No sleep is over at once. -/
structure RendezSafe (r : ℕ) (s : Sys Links) : Prop where
  sleep : ∀ e s', step (e, .call (.tasksleep r)) s = some s' → s'.control ≠ .user
  owner : ∀ t l log, s.log = .rendez r (.awake t) :: log → (s.rendez r).l = some l →
    (s.qlock l).owner = some t
  sleepers : ∃ ts, WellLinked s.links (.rendez r) ts ∧ CondVar.Inv (s.condVar r ts) ∧
    ∀ t e s', s.taskrunning = some t → s.control = .user →
      (step (e, .call (.taskwakeup r)) s = some s' → Wakes r t (ts.take 1) s s') ∧
      (step (e, .call (.taskwakeupall r)) s = some s' → Wakes r t ts s s')

/-- A `Rendez` loses no wakeup and has none that is spurious. -/
theorem rendez_monitor (r : ℕ) {s : Sys Links} (h : Reachable s) : RendezSafe r s := by
  obtain ⟨a, pl, ha, hI, hs⟩ := h.sim
  have hstate : RendezState r a := ha.rendezState
  constructor
  case sleep => exact fun e s' => tasksleep_blocks
  case owner =>
    obtain ⟨q, hq, rfl⟩ := hs
    intro t l log hlog hl
    exact hstate.owner t l (congrArg List.head? hlog) hl
  case sleepers =>
    refine ⟨a.links (.rendez r), ?_, ?_, fun t e s' ht hc => ⟨fun hst => ?_, fun hst => ?_⟩⟩
    · obtain ⟨q, hq, rfl⟩ := hs
      exact wellLinked_of_isList (hq.isList _)
    · obtain ⟨q, hq, rfl⟩ := hs
      exact hstate.cond
    · exact wakes_taskwakeup hs hI ht hc hst
    · exact wakes_taskwakeupall hs hI ht hc hst

/-- The first task sleeps on a rendezvous point whose lock it has, and is woken. -/
def rendezRun : List (Env × Action) :=
  [(.still 0, .schedule), (.still 0, .resume), (.still 8192, .call (.taskcreate .user)),
    (.still 0, .call (.qlock 0)), (.still 0, .call (.tasksleep 0)), (.still 0, .schedule),
    (.still 0, .resume), (.still 0, .call (.taskwakeup 0)), (.still 0, .call .taskyield),
    (.still 0, .schedule), (.still 0, .resume)]

theorem rendez_monitor_small : ∃ s, Program.small.after (fun _ _ => True) rendezRun = some s ∧
    s.log.head? = some (.rendez 0 (.awake 4096)) ∧ RendezSafe 0 s := by
  have hrun : (Program.small.after (fun _ _ => True) rendezRun).map (fun s => s.log.head?) =
      some (some (.rendez 0 (.awake 4096))) := by decide
  obtain ⟨s, hs, hlog⟩ := Option.map_eq_some_iff.mp hrun
  exact ⟨s, hs, hlog, rendez_monitor 0 (Program.reachableBy_after hs)⟩

end Libtask
