import Libtask.Refine.Steps

/-! Only `taskexit` ends a task: what else the library does leaves the tasks that there are. -/
namespace Libtask
open Function

/-- No task comes or goes from `s` to `s'`, and none begins to exit. -/
structure Lasts (s s' : Sys Links) : Prop where
  live : s'.live = s.live
  exiting : ∀ u, (s'.task u).exiting = (s.task u).exiting

section
variable {s s' s'' : Sys Links} {t u : TaskPtr} {e : Env} {c : Context} {n : BitVec 32} {r : Return}

namespace Lasts

theorem refl (s : Sys Links) : Lasts s s := ⟨rfl, fun _ => rfl⟩

theorem congr (h : Lasts s s') (hl : s''.live = s'.live) (ht : s''.task = s'.task) :
    Lasts s s'' :=
  ⟨hl.trans h.live, fun u => by rw [ht, h.exiting]⟩

theorem emit (h : Lasts s s') (e : Event) : Lasts s (s'.emit e) := h.congr rfl rfl

theorem addtask (h : Lasts s s') (k : TasklistRef) (t : TaskPtr) : Lasts s (addtask k t s') :=
  h.congr rfl rfl

theorem setTask (h : Lasts s s') (t : TaskPtr) (f : Task → Task)
    (hf : ∀ x, (f x).exiting = x.exiting) : Lasts s (s'.setTask t f) := by
  refine ⟨h.live, fun u => ?_⟩
  by_cases hu : u = t
  · subst hu
    simp [Sys.setTask, hf, h.exiting]
  · simp [Sys.setTask, hu, h.exiting]

theorem taskready (h : Lasts s s') (t : TaskPtr) : Lasts s (taskready t s') :=
  (h.setTask t (fun x => { x with ready := true }) fun _ => rfl).congr rfl rfl

theorem taskswitch (h : Lasts s s') (ht : (s.task t).exiting = false) (c : Context) :
    Lasts s (taskswitch c t s') := by
  have hset : Lasts s (s'.setTask t fun x => { x with context := c }) := h.setTask t _ fun _ => rfl
  have hex : ((s'.setTask t fun x => { x with context := c }).task t).exiting = false :=
    (hset.exiting t).trans ht
  simp only [Libtask.taskswitch, hex, Bool.false_eq_true, if_false]
  exact hset.congr rfl rfl

theorem tasksystem (h : Lasts s s') (t : TaskPtr) : Lasts s (tasksystem t s') := by
  unfold Libtask.tasksystem
  split
  · exact h
  · exact (h.setTask t (fun x => { x with system := true }) fun _ => rfl).congr rfl rfl

theorem fdtaskYield (h : Lasts s s') (ht : (s.task t).exiting = false) :
    Lasts s (fdtaskYield t s') :=
  (h.taskready t).taskswitch ht _

theorem pollWakeSlot (h : Lasts s s') (i fuel : ℕ) : Lasts s (pollWakeSlot i fuel s') := by
  induction fuel generalizing s' with
  | zero => exact h
  | succ fuel ih =>
    unfold Libtask.pollWakeSlot
    split
    · exact ih ((h.taskready _).congr rfl rfl)
    · exact h

theorem pollWake (h : Lasts s s') (fuel i : ℕ) : Lasts s (pollWake fuel i s') := by
  induction fuel generalizing i s' with
  | zero => exact h
  | succ fuel ih =>
    unfold Libtask.pollWake
    split
    · exact ih (h.pollWakeSlot i _) _
    · exact h

theorem timerWake {now : UInt64} {fuel : ℕ} (h : Lasts s s')
    (hw : timerWake now fuel s' = .ok s'') : Lasts s s'' := by
  induction fuel generalizing s' with
  | zero => cases hw
  | succ fuel ih =>
    unfold Libtask.timerWake at hw
    split at hw
    · cases hw
      exact h
    · rename_i u _
      split at hw
      · refine ih (Lasts.taskready ?_ u) hw
        dsimp only
        split
        · exact h.congr rfl rfl
        · split
          · exact h.congr rfl rfl
          · exact h.congr rfl rfl
      · cases hw
        exact h

theorem fdtaskBack (ht : (s.task t).exiting = false) (h : fdtaskBack e n t s = .ok (s', r)) :
    Lasts s s' := by
  unfold Libtask.fdtaskBack fdtaskPass at h
  split at h
  · cases h
    exact (refl s).fdtaskYield ht
  · split at h
    · cases h
      exact Lasts.fdtaskYield ((refl s).congr rfl rfl) ht
    · cases h
    · simp only [bind, Except.bind] at h
      split at h
      · cases h
      · rename_i s₁ hw
        cases h
        refine (Lasts.timerWake (Lasts.emit (Lasts.pollWake ?_ _ 0) _) hw).fdtaskYield ht
        exact (refl s).congr rfl rfl

theorem qlockWith {l : ℕ} {b : Bool} (ht : (s.task t).exiting = false) :
    Lasts s (qlockWith l b c t s).1 := by
  unfold Libtask.qlockWith
  split
  · exact (refl s).congr rfl rfl
  · split
    · exact refl s
    · exact (((refl s).emit _).addtask _ t).taskswitch ht c

theorem tasksleepBack {q : ℕ} (ht : (s.task t).exiting = false) :
    Lasts s (tasksleepBack q t s).1 := by
  unfold Libtask.tasksleepBack
  split
  · exact (refl s).congr rfl rfl
  · rename_i l _
    have hq : Lasts s (Libtask.qlockWith l true (.sleepqlock q l) t s).1 := .qlockWith ht
    split
    · rename_i s₁ hs₁
      rwa [hs₁] at hq
    · rename_i s₁ _ _ hs₁
      rw [hs₁] at hq
      exact hq.congr rfl rfl

theorem resume (ht : (s.task t).exiting = false) (h : resume e t s = .ok (s', r)) :
    Lasts s s' := by
  unfold Libtask.resume at h
  cases hx : (s.task t).context with
  | taskstart =>
    simp only [hx] at h
    split at h
    · cases h
      exact refl s
    · cases h
      exact ((refl s).tasksystem t).fdtaskYield ht
  | fdtask n =>
    simp only [hx] at h
    exact fdtaskBack ht h
  | tasksleep q =>
    simp only [hx, Except.ok.injEq] at h
    rw [← show _ = s' from congrArg Prod.fst h]
    exact tasksleepBack ht
  | qlock l =>
    simp only [hx, qlockBack] at h
    split at h
    · cases h
    · cases h
      exact (refl s).emit _
  | sleepqlock q l =>
    simp only [hx, qlockBack, bind, Except.bind] at h
    split at h
    · cases h
    · rename_i v hv
      split at hv
      · cases hv
      · cases hv
        cases h
        exact ((refl s).emit _).emit _
  | chanalt base =>
    simp only [hx, chanaltBack, bind, Except.bind] at h
    split at h
    · cases h
    · split at h
      · cases h
      · cases h
        exact (refl s).congr rfl rfl
  | taskyield | rlock | wlock | taskdelay | fdwait =>
    simp only [hx] at h
    cases h
    exact (refl s).congr rfl rfl
  | taskexit =>
    simp only [hx] at h
    cases h

end Lasts

/-- The tasks of `s` are there in `s'` too, and exiting there if they were. -/
structure Grows (s s' : Sys Links) : Prop where
  live : s.live ⊆ s'.live
  exiting : ∀ u ∈ s.live, (s'.task u).exiting = (s.task u).exiting

theorem Lasts.grows (h : Lasts s s') : Grows s s' :=
  ⟨h.live ▸ Finset.Subset.refl s.live, fun u _ => h.exiting u⟩

theorem Grows.congr (h : Grows s s') (hl : s''.live = s'.live)
    (ht : ∀ u ∈ s.live, (s''.task u).exiting = (s'.task u).exiting) : Grows s s'' :=
  ⟨hl ▸ h.live, fun u hu => (ht u hu).trans (h.exiting u hu)⟩

theorem Grows.lasts (h : Grows s s') (h' : Lasts s' s'') : Grows s s'' :=
  h.congr h'.live fun u _ => h'.exiting u

theorem Grows.taskswitch (h : Grows s s') (ht : t ∈ s.live) (hex : (s.task t).exiting = false)
    (c : Context) : Grows s (taskswitch c t s') :=
  h.lasts ((Lasts.refl s').taskswitch ((h.exiting t ht).trans hex) c)

theorem grows_taskcreate {fn : Startfn} {p : TaskPtr} (hp : p ≠ 0 → p ∉ s.live)
    (h : taskcreate fn p s = .ok s') : Grows s s' := by
  by_cases h0 : p = 0
  · simp only [taskcreate, taskalloc, h0, if_true, bind, Except.bind] at h
    cases h
  · rw [taskcreate_eq fn h0] at h
    cases h
    refine Grows.lasts ⟨Finset.subset_insert p s.live, fun u hu => ?_⟩ ((Lasts.refl _).taskready p)
    have hne : u ≠ p := by
      rintro rfl
      exact hp h0 hu
    simp [hne]

theorem grows_startfdtask (hp : e.malloc ≠ 0 → e.malloc ∉ s.live)
    (h : startfdtask e s = .ok s') : Grows s s' := by
  unfold startfdtask at h
  split at h
  · cases h
    exact (Lasts.refl s).grows
  · have hg : Grows { s with startedfdtask := true } s' := grows_taskcreate hp h
    exact ⟨hg.live, hg.exiting⟩

theorem grows_taskdelay {ms : UInt32} (hp : e.malloc ≠ 0 → e.malloc ∉ s.live) (ht : t ∈ s.live)
    (hex : (s.task t).exiting = false) (h : taskdelay e ms t s = .ok (s', r)) : Grows s s' := by
  simp only [taskdelay, bind, Except.bind] at h
  split at h
  · cases h
  · rename_i s₁ hs₁
    split at h
    · cases h
    · cases h
      refine Grows.taskswitch (Grows.lasts (grows_startfdtask hp hs₁) ?_) ht hex _
      have hset : Lasts s₁ (s₁.setTask t fun x =>
          { x with alarmtime := e.nsec₁ + ms.toUInt64 * 1000000 }) :=
        (Lasts.refl s₁).setTask t _ fun _ => rfl
      refine Lasts.emit ?_ _
      split
      · exact hset.congr rfl rfl
      · split
        · exact hset.congr rfl rfl
        · exact hset.congr rfl rfl

theorem grows_fdwait {fd : ℤ} {rw : Char} (hp : e.malloc ≠ 0 → e.malloc ∉ s.live)
    (ht : t ∈ s.live) (hex : (s.task t).exiting = false) (h : fdwait e fd rw t s = .ok (s', r)) :
    Grows s s' := by
  simp only [fdwait, bind, Except.bind] at h
  split at h
  · cases h
  · rename_i s₁ hs₁
    split at h
    · cases h
    · cases h
      refine Grows.taskswitch (Grows.lasts (grows_startfdtask hp hs₁) ?_) ht hex _
      apply Lasts.emit
      exact (Lasts.refl s₁).congr rfl rfl

/-- Calls that create tasks, wait, or end the process. -/
def Call.waits : Call → Prop
  | .taskcreate _ | .taskdelay _ | .fdwait _ _ | .taskexitall _ => True
  | _ => False

theorem grows_call {c : Call} (hc : c.waits) (hp : e.malloc ≠ 0 → e.malloc ∉ s.live)
    (ht : t ∈ s.live) (hex : (s.task t).exiting = false) (h : call e c t s = .ok (s', r)) :
    Grows s s' := by
  cases c with
  | taskcreate fn =>
    simp only [call, bind, Except.bind] at h
    split at h
    · cases h
    · rename_i s₁ hs₁
      cases h
      exact grows_taskcreate hp hs₁
  | taskdelay ms => exact grows_taskdelay hp ht hex h
  | fdwait fd rw => exact grows_fdwait hp ht hex h
  | taskexitall v => cases h
  | _ => exact hc.elim

theorem live_finish {x : Except Halt (Sys Links × Return)}
    (h : ∀ s' r, x = .ok (s', r) → s.live ⊆ s'.live) : s.live ⊆ (finish t s x).live := by
  cases x with
  | error v => exact Finset.Subset.refl s.live
  | ok p =>
    obtain ⟨s', r⟩ := p
    cases r with
    | _ => exact h s' _ rfl

/-- Nothing but `taskexit` ends a task. -/
theorem Reachable.live_subset {act : Action} (h : Reachable s)
    (hact : ∀ c, act = .call c → c.waits) (hs : step (e, act) s = some s') : s.live ⊆ s'.live := by
  rcases step_cases hs with ⟨_, _, rfl⟩ | ⟨t, _, ht, _, rfl⟩ | ⟨c, t, rfl, ht, _, hadm, rfl⟩
  · unfold taskscheduler
    split
    · exact Finset.Subset.refl s.live
    · split
      · exact Finset.Subset.refl s.live
      · exact Finset.Subset.refl s.live
  · exact live_finish fun s' r hr => (Lasts.resume (h.running ht).2 hr).grows.live
  · apply live_finish
    intro s' r hr
    obtain ⟨hlive, hex⟩ := h.running ht
    exact (grows_call (hact c rfl) (fun h0 => (hadm.1.resolve_left h0).2) hlive hex hr).live

theorem step_taskcreate (ht : s.taskrunning = some t) (h0 : e.malloc ≠ 0)
    (hs : step (e, .call (.taskcreate .user)) s = some s') : e.malloc ∉ s.live ∧
      s'.live = insert e.malloc s.live ∧ s'.taskrunning = some t ∧ s'.control = .user := by
  obtain ⟨hact, _⟩ | ⟨_, hact, _⟩ | ⟨c, u, hact, _, _, hadm, _⟩ := step_cases hs
  · cases hact
  · cases hact
  · refine ⟨(hadm.1.resolve_left h0).2, ?_⟩
    rw [step_call ht hs]
    simp only [call, taskcreate_eq .user h0, bind, Except.bind, pure, Except.pure, finish]
    exact ⟨rfl, ht, rfl⟩

theorem step_nomem (ht : s.taskrunning = some t) (h0 : e.malloc = 0)
    (hs : step (e, .call (.taskcreate .user)) s = some s') :
    s' = { s with control := .halted (.abort .taskallocMalloc) } := by
  rw [step_call ht hs]
  simp only [call, taskcreate, taskalloc, h0, if_true, bind, Except.bind, finish]

theorem live_taskexit {v : ℤ} (ht : s.taskrunning = some t)
    (hs : step (e, .call (.taskexit v)) s = some s') : s'.live = s.live.erase t := by
  rw [step_call ht hs]
  simp only [call, finish, taskexit_eq]
  rfl

end
end Libtask
