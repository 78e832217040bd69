import Libtask.Abstract.LockOps

/-! Only `chanalt` logs anything about channels: whatever else the library does is silent on
them. -/
namespace Libtask
open Function

/-- The events of a channel, and those of a call of `chanalt`. -/
def Event.ofAlt : Event → Bool
  | .chan _ _ | .altcall _ _ | .altret _ _ _ => true
  | _ => false

/-- From `s` to `s'` nothing was logged about channels. -/
def Silent {σ : Type} (s s' : Sys σ) : Prop := LogExt (fun e => e.ofAlt = false) s s'

theorem taskfree_log {σ : Type} (t : TaskPtr) (s : Sys σ) :
    (taskfree t s).log = .free t :: s.log := by
  by_cases hs : (s.task t).system <;> simp [taskfree, Sys.emit, Sys.setTask, hs]

section
variable {s s' s'' : Sys Links} {t : TaskPtr} {e : Env} {x : Context} {l : ℕ}

namespace Silent

theorem refl (s : Sys Links) : Silent s s := .same rfl

theorem congr (h : Silent s s') (hl : s''.log = s'.log) : Silent s s'' := LogExt.trans h (.same hl)

theorem emit (h : Silent s s') (d : Event) (hd : d.ofAlt = false) : Silent s (s'.emit d) :=
  LogExt.trans h (.emit hd rfl)

theorem addtask (h : Silent s s') (k : TasklistRef) (t : TaskPtr) : Silent s (addtask k t s') :=
  h.congr rfl

theorem deltask (h : Silent s s') (k : TasklistRef) (t : TaskPtr) : Silent s (deltask k t s') :=
  h.congr rfl

theorem taskready (h : Silent s s') (t : TaskPtr) : Silent s (taskready t s') :=
  LogExt.trans h (.emit (e := .ready t) rfl rfl)

theorem taskswitch (h : Silent s s') (x : Context) (t : TaskPtr) :
    Silent s (taskswitch x t s') := by
  unfold Libtask.taskswitch
  dsimp only
  split
  · exact LogExt.trans h (.emit (e := .free t) rfl (taskfree_log t _))
  · exact h.congr rfl

theorem tasksystem (h : Silent s s') (t : TaskPtr) : Silent s (tasksystem t s') := by
  unfold Libtask.tasksystem
  split
  · exact h
  · exact h.congr rfl

theorem fdtaskYield (h : Silent s s') (t : TaskPtr) : Silent s (fdtaskYield t s') :=
  (h.taskready t).taskswitch _ t

theorem wgrant (h : Silent s s') (l : ℕ) : Silent s (wgrant l s') := by
  unfold Libtask.wgrant
  split
  · split
    · rename_i u _
      exact ((h.emit (.rw l (.whandoff u)) rfl).congr rfl).taskready u
    · exact h
  · exact h

theorem pollWakeSlot (h : Silent s s') (i fuel : ℕ) : Silent s (pollWakeSlot i fuel s') := by
  induction fuel generalizing s' with
  | zero => exact h
  | succ fuel ih =>
    unfold Libtask.pollWakeSlot
    split
    · exact ih ((h.taskready _).congr rfl)
    · exact h

theorem pollWake (h : Silent s s') (fuel i : ℕ) : Silent s (pollWake fuel i s') := by
  induction fuel generalizing i s' with
  | zero => exact h
  | succ fuel ih =>
    unfold Libtask.pollWake
    split
    · exact ih (h.pollWakeSlot i _) _
    · exact h

end Silent

/-- If `r` is a state, nothing was logged about channels up to it. -/
def Quietly {α : Type} (s : Sys Links) (f : α → Sys Links) (r : Except Halt α) : Prop :=
  ∀ v, r = .ok v → Silent s (f v)

namespace Quietly
variable {α β : Type} {f : α → Sys Links} {g : β → Sys Links} {r : Except Halt α}

theorem ok {v : α} (h : Silent s (f v)) : Quietly s f (.ok v) := by
  intro w hw
  cases hw
  exact h

theorem error (v : Halt) : Quietly s f (.error v : Except Halt α) := by
  intro w hw
  cases hw

theorem bind {k : α → Except Halt β} (h : Quietly s f r)
    (hk : ∀ v, Silent s (f v) → Quietly s g (k v)) : Quietly s g (r >>= k) := by
  cases r with
  | error v => exact .error v
  | ok v => exact hk v (h v rfl)

end Quietly

theorem quietly_taskcreate (h : Silent s s') (fn : Startfn) (p : TaskPtr) :
    Quietly s id (taskcreate fn p s') := by
  unfold taskcreate taskalloc
  split
  · exact .error _
  · refine .ok (Silent.taskready (h.congr ?_) p)
    dsimp only
    split <;> rfl

theorem quietly_startfdtask (h : Silent s s') : Quietly s id (startfdtask e s') := by
  unfold startfdtask
  split
  · exact .ok h
  · refine quietly_taskcreate ?_ _ _
    exact h.congr rfl

theorem quietly_timerWake (h : Silent s s') (now : UInt64) (fuel : ℕ) :
    Quietly s id (timerWake now fuel s') := by
  induction fuel generalizing s' with
  | zero => exact .error _
  | succ fuel ih =>
    unfold timerWake
    split
    · exact .ok h
    · split
      · refine ih (Silent.taskready (h.congr ?_) _)
        dsimp only
        split
        · rfl
        · split <;> rfl
      · exact .ok h

theorem silent_qlockWith (h : Silent s s') (l : ℕ) (block : Bool) (x : Context) (t : TaskPtr) :
    Silent s (qlockWith l block x t s').1 := by
  unfold qlockWith
  split
  · exact Silent.emit (h.congr rfl) _ rfl
  · split
    · exact h
    · exact ((h.emit (.q l (.block t)) rfl).addtask (.qwaiting l) t).taskswitch x t

theorem silent_rlockWith (h : Silent s s') (l : ℕ) (block : Bool) (t : TaskPtr) :
    Silent s (rlockWith l block t s').1 := by
  unfold rlockWith
  split
  · exact Silent.emit (h.congr rfl) _ rfl
  · split
    · exact h
    · exact ((h.emit (.rw l (.rblock t)) rfl).addtask (.rwaiting l) t).taskswitch _ t

theorem silent_wlockWith (h : Silent s s') (l : ℕ) (block : Bool) (t : TaskPtr) :
    Silent s (wlockWith l block t s').1 := by
  unfold wlockWith
  split
  · exact Silent.emit (h.congr rfl) _ rfl
  · split
    · exact h
    · exact ((h.emit (.rw l (.wblock t)) rfl).addtask (.wwaiting l) t).taskswitch _ t

theorem quietly_qunlock (h : Silent s s') (l : ℕ) (t : TaskPtr) :
    Quietly s id (qunlock l t s') := by
  have hrel := h.emit (.q l (.release t)) rfl
  unfold qunlock
  dsimp only
  split
  · exact .error _
  · split
    · rename_i u _
      have howner : Silent s (((s'.emit (.q l (.release t))).setOwner l (some u)).emit
          (.q l (.handoff u))) := Silent.emit (hrel.congr rfl) _ rfl
      exact .ok (Silent.taskready (howner.congr rfl) u)
    · exact .ok (hrel.congr rfl)

theorem quietly_wunlockReaders (h : Silent s s') (l fuel : ℕ) :
    Quietly s id (wunlockReaders l fuel s') := by
  induction fuel generalizing s' with
  | zero => exact .error _
  | succ fuel ih =>
    unfold wunlockReaders
    split
    · exact .ok h
    · rename_i u _
      exact ih (Silent.taskready ((h.emit (.rw l (.rhandoff u)) rfl).congr rfl) u)

theorem quietly_wunlock (h : Silent s s') (l : ℕ) (t : TaskPtr) :
    Quietly s id (wunlock l t s') := by
  have hrel : Silent s ((s'.setWriter l none).emit (.rw l (.wrelease t))) :=
    Silent.emit (h.congr rfl) _ rfl
  by_cases hw : (s'.rwlock l).writer = none
  · rw [wunlock, if_pos hw]
    exact .error _
  by_cases hr : (((s'.setWriter l none).emit (.rw l (.wrelease t))).rwlock l).readers = 0
  · simp only [wunlock, hw, hr, if_false, ne_eq, not_true_eq_false]
    refine Quietly.bind (f := id) ?_ fun v hv => .ok (hv.wgrant l)
    split
    · exact quietly_wunlockReaders (hrel.emit (.rw l .rbatch) rfl) _ _
    · exact quietly_wunlockReaders hrel _ _
  · simp only [wunlock, hw, hr, if_false, ne_eq, not_false_eq_true, if_true]
    exact .error _

theorem quietly_tasksleep (h : Silent s s') (r : ℕ) (t : TaskPtr) :
    Quietly s Prod.fst (tasksleep r t s') := by
  have hadd : Silent s (addtask (.rendez r) t (s'.emit (.rendez r (.sleep t)))) :=
    (h.emit (.rendez r (.sleep t)) rfl).congr rfl
  unfold tasksleep
  dsimp only
  split
  · exact (quietly_qunlock hadd _ t).bind fun v hv => .ok (hv.taskswitch _ t)
  · exact Quietly.bind (f := id) (.ok hadd) fun v hv => .ok (hv.taskswitch _ t)

theorem silent_tasksleepBack (h : Silent s s') (r : ℕ) (t : TaskPtr) :
    Silent s (tasksleepBack r t s').1 := by
  unfold tasksleepBack
  split
  · exact h.emit _ rfl
  · rename_i l _
    have hq := silent_qlockWith h l true (.sleepqlock r l) t
    split
    · rename_i s₁ hs₁
      rwa [hs₁] at hq
    · rename_i s₁ _ _ hs₁
      rw [hs₁] at hq
      exact hq.emit _ rfl

theorem quietly_taskwakeupWith (h : Silent s s') (r : ℕ) (all : Bool) (fuel i : ℕ) :
    Quietly s Prod.fst (taskwakeupWith r all fuel i s') := by
  induction fuel generalizing i s' with
  | zero => exact .error _
  | succ fuel ih =>
    unfold taskwakeupWith
    split
    · exact .ok h
    · split
      · exact .ok h
      · rename_i u _
        exact ih (((h.emit (.rendez r (.woken u)) rfl).deltask (.rendez r) u).taskready u) _

theorem quietly_taskdelay (h : Silent s s') (ms : UInt32) (t : TaskPtr) :
    Quietly s Prod.fst (taskdelay e ms t s') := by
  refine (quietly_startfdtask h).bind fun v hv => ?_
  dsimp only
  split
  · exact .error _
  · rename_i u _
    have hset : Silent s ({ v with links := v.links.splice .sleeping t u }.setTask t fun x =>
        { x with alarmtime := e.nsec₁ + ms.toUInt64 * 1000000 }) := hv.congr rfl
    refine .ok (Silent.taskswitch (Silent.emit (hset.congr ?_) (.delay t e.nsec₁ ms) rfl) _ t)
    split
    · rfl
    · split <;> rfl

theorem quietly_fdwait (h : Silent s s') (fd : ℤ) (rw : Char) (t : TaskPtr) :
    Quietly s Prod.fst (fdwait e fd rw t s') := by
  refine (quietly_startfdtask h).bind fun v hv => ?_
  dsimp only
  split
  · exact .error _
  · refine .ok (Silent.taskswitch (Silent.emit ?_ _ rfl) _ t)
    exact LogExt.trans hv (.same rfl)

theorem quietly_fdtaskBack (h : Silent s s') (n : BitVec 32) (t : TaskPtr) :
    Quietly s Prod.fst (fdtaskBack e n t s') := by
  unfold fdtaskBack fdtaskPass
  split
  · exact .ok (h.fdtaskYield t)
  · dsimp only
    split
    · exact .ok ((h.emit (.poll _ _) rfl).fdtaskYield t)
    · exact .error _
    · refine (quietly_timerWake ?_ _ _).bind fun v hv => .ok (hv.fdtaskYield t)
      refine Silent.emit (Silent.pollWake ?_ _ 0) _ rfl
      exact (h.emit (.poll e.nsec₁ (pollms e.nsec₁ (head .sleeping s') s')) rfl).congr rfl

/-- No call but `chanalt` logs anything about channels. -/
theorem quietly_call {c : Call} (hc : ∀ base as, c ≠ .chanalt base as) (t : TaskPtr)
    (s : Sys Links) : Quietly s Prod.fst (call e c t s) := by
  have h := Silent.refl s
  cases c with
  | taskcreate fn => exact (quietly_taskcreate h fn _).bind fun v hv => .ok hv
  | tasksystem => exact .ok (h.tasksystem t)
  | taskyield => exact .ok ((h.taskready t).taskswitch _ t)
  | taskexit val =>
    have hset : Silent s
        { s.setTask t fun x => { x with exiting := true } with taskexitval := val } :=
      h.congr rfl
    exact .ok (hset.taskswitch .taskexit t)
  | taskexitall => exact .error _
  | anyready => exact .ok h
  | qlock l | canqlock l => exact .ok (silent_qlockWith h l _ _ t)
  | qunlock l => exact (quietly_qunlock h l t).bind fun v hv => .ok hv
  | rlock l | canrlock l => exact .ok (silent_rlockWith h l _ t)
  | runlock l =>
    have hrel : Silent s ((s.setReaders l ((s.rwlock l).readers - 1)).emit (.rw l (.rrelease t))) :=
      Silent.emit (h.congr rfl) _ rfl
    exact .ok (hrel.wgrant l)
  | wlock l | canwlock l => exact .ok (silent_wlockWith h l _ t)
  | wunlock l => exact (quietly_wunlock h l t).bind fun v hv => .ok hv
  | tasksleep r => exact quietly_tasksleep h r t
  | taskwakeup r | taskwakeupall r =>
    exact (quietly_taskwakeupWith h r _ _ _).bind fun v hv => .ok hv
  | chanalt base as => exact absurd rfl (hc base as)
  | taskdelay ms => exact quietly_taskdelay h ms t
  | fdwait fd rw => exact quietly_fdwait h fd rw t
  | fdtask => exact .ok ((h.tasksystem t).fdtaskYield t)
  | write mem => exact .ok (h.congr rfl)

/-- Nor does a task that goes on inside a call, unless that is `chanalt`. -/
theorem quietly_resume (hx : ∀ base, (s.task t).context ≠ .chanalt base) :
    Quietly s Prod.fst (resume e t s) := by
  have h := Silent.refl s
  unfold resume
  cases hc : (s.task t).context with
  | taskstart =>
    dsimp only
    split
    · exact .ok h
    · exact .ok ((h.tasksystem t).fdtaskYield t)
  | taskyield | fdwait => exact .ok h
  | fdtask n => exact quietly_fdtaskBack h n t
  | qlock l =>
    dsimp only [qlockBack]
    split
    · exact .error _
    · exact .ok (h.emit _ rfl)
  | sleepqlock r l =>
    dsimp only [qlockBack]
    split
    · exact .error _
    · exact .ok ((h.emit (.q l (.back t)) rfl).emit _ rfl)
  | rlock | wlock | taskdelay => exact .ok (h.emit _ rfl)
  | tasksleep r => exact .ok (silent_tasksleepBack h r t)
  | chanalt base => exact absurd hc (hx base)
  | taskexit => exact .error _

theorem silent_finish {r : Except Halt (Sys Links × Return)} (h : Quietly s Prod.fst r)
    (t : TaskPtr) : Silent s (finish t s r) := by
  cases r with
  | error v => exact .same rfl
  | ok v =>
    obtain ⟨s₁, w⟩ := v
    have hs₁ : Silent s s₁ := h _ rfl
    cases w with
    | switched => exact hs₁
    | void => exact hs₁.congr rfl
    | value v => exact Silent.emit (hs₁.congr rfl) _ rfl

theorem silent_taskscheduler (s : Sys Links) : Silent s (taskscheduler s) := by
  unfold taskscheduler
  split
  · exact .same rfl
  · split
    · exact .same rfl
    · exact LogExt.emit (e := .dispatch _) rfl rfl

/-- A step that is neither a call of `chanalt` nor its end is silent on channels. -/
theorem step_silent {act : Action} (hs : step (e, act) s = some s') :
    Silent s s' ∨ (∃ t base as, act = .call (.chanalt base as) ∧ s.taskrunning = some t ∧
      s' = finish t s (call e (.chanalt base as) t s)) ∨
    ∃ t base, act = .resume ∧ s.taskrunning = some t ∧ (s.task t).context = .chanalt base ∧
      s' = finish t s (chanaltBack base t s) := by
  rcases step_cases hs with ⟨_, _, rfl⟩ | ⟨t, hact, ht, _, rfl⟩ | ⟨c, t, hact, ht, _, _, rfl⟩
  · exact .inl (silent_taskscheduler s)
  · by_cases hx : ∃ base, (s.task t).context = .chanalt base
    · obtain ⟨base, hx⟩ := hx
      refine .inr (.inr ⟨t, base, hact, ht, hx, ?_⟩)
      simp only [resume, hx]
    · push Not at hx
      exact .inl (silent_finish (quietly_resume hx) t)
  · by_cases hc : ∃ base as, c = .chanalt base as
    · obtain ⟨base, as, rfl⟩ := hc
      exact .inr (.inl ⟨t, base, as, hact, ht, rfl⟩)
    · push Not at hc
      exact .inl (silent_finish (quietly_call hc t s) t)

end
end Libtask
