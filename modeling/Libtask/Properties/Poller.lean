import Libtask.Properties.Timers
import Libtask.Properties.Yield

/-! `fdtask` calls `poll` only when nobody else is ready, and not for longer than the first
sleeper is to sleep. -/
namespace Libtask
open Function Runs Deadlines

/-- A result that switches leaves control to the scheduler. -/
def Switches (r : Except Halt (Sys Links × Return)) : Prop :=
  ∀ s, r = .ok (s, .switched) → s.control = .scheduler

section Switches
variable {s : Sys Links} {t : TaskPtr} {e : Env} {r : Except Halt (Sys Links × Return)}

theorem Switches.switch (x : Context) (t : TaskPtr) (s : Sys Links) :
    Switches (.ok (taskswitch x t s, .switched)) := by
  intro s' h
  cases h
  exact taskswitch_control x t s

theorem Switches.error (v : Halt) : Switches (.error v) := by
  intro s' h
  cases h

theorem Switches.back {v : Return} (s : Sys Links) (hv : v ≠ .switched) :
    Switches (.ok (s, v)) := by
  intro s' h
  cases h
  exact absurd rfl hv

theorem Switches.bind {α : Type} {r : Except Halt α} {f : α → Except Halt (Sys Links × Return)}
    (h : ∀ x, Switches (f x)) : Switches (r >>= f) := by
  intro s' hs
  cases r with
  | error v => cases hs
  | ok x => exact h x s' hs

theorem switches_qlockWith (l : ℕ) (block : Bool) (x : Context) :
    Switches (.ok (qlockWith l block x t s)) := by
  unfold qlockWith
  split
  · exact .back _ (by simp)
  · split
    · exact .back _ (by simp)
    · exact .switch _ _ _

theorem switches_rlockWith (l : ℕ) (block : Bool) : Switches (.ok (rlockWith l block t s)) := by
  unfold rlockWith
  split
  · exact .back _ (by simp)
  · split
    · exact .back _ (by simp)
    · exact .switch _ _ _

theorem switches_wlockWith (l : ℕ) (block : Bool) : Switches (.ok (wlockWith l block t s)) := by
  unfold wlockWith
  split
  · exact .back _ (by simp)
  · split
    · exact .back _ (by simp)
    · exact .switch _ _ _

theorem switches_chanalt (base rand₁ rand₂ : ℕ) : Switches (chanalt base rand₁ rand₂ t s) := by
  unfold chanalt
  dsimp only
  split
  · exact .bind fun _ => .back _ (by simp)
  · split
    · exact .back _ (by simp)
    · exact .bind fun _ => .switch _ _ _

theorem switches_tasksleep (l : ℕ) : Switches (tasksleep l t s) := by
  unfold tasksleep
  dsimp only
  split <;> exact .bind fun _ => .switch _ _ _

theorem switches_taskdelay (ms : UInt32) : Switches (taskdelay e ms t s) := by
  unfold taskdelay
  apply Switches.bind
  intro s
  dsimp only
  split
  · exact .error _
  · exact .switch _ _ _

theorem switches_fdwait (fd : ℤ) (rw : Char) : Switches (fdwait e fd rw t s) := by
  unfold fdwait
  apply Switches.bind
  intro s
  dsimp only
  split
  · exact .error _
  · exact .switch _ _ _

theorem switches_call (c : Call) : Switches (call e c t s) := by
  cases c with
  | taskcreate | qunlock | wunlock => exact .bind fun _ => .back _ (by simp)
  | taskwakeup | taskwakeupall => exact .bind fun _ => .back _ (by simp)
  | tasksystem | anyready | runlock | write => exact .back _ (by simp)
  | taskyield | taskexit | fdtask => exact .switch _ _ _
  | taskexitall => exact .error _
  | qlock | canqlock => exact switches_qlockWith _ _ _
  | rlock | canrlock => exact switches_rlockWith _ _
  | wlock | canwlock => exact switches_wlockWith _ _
  | tasksleep => exact switches_tasksleep _
  | chanalt => exact switches_chanalt _ _ _
  | taskdelay => exact switches_taskdelay _
  | fdwait => exact switches_fdwait _ _

theorem switches_fdtaskBack (n : BitVec 32) : Switches (fdtaskBack e n t s) := by
  unfold fdtaskBack
  split
  · exact .switch _ _ _
  · unfold fdtaskPass
    dsimp only
    split
    · exact .switch _ _ _
    · exact .error _
    · exact .bind fun _ => .switch _ _ _

theorem switches_tasksleepBack (r : ℕ) : Switches (.ok (tasksleepBack r t s)) := by
  unfold tasksleepBack
  split
  · exact .back _ (by simp)
  · rename_i l _
    have hlock := switches_qlockWith (s := s) (t := t) l true (.sleepqlock r l)
    split
    · rename_i s' hs
      rw [hs] at hlock
      exact hlock
    · exact .back _ (by simp)

theorem switches_resume : Switches (resume e t s) := by
  unfold resume
  split
  · split
    · exact .back _ (by simp)
    · exact .switch _ _ _
  · exact .back _ (by simp)
  · exact switches_fdtaskBack _
  · unfold qlockBack
    split
    · exact .error _
    · exact .back _ (by simp)
  · exact .bind fun _ => .back _ (by simp)
  · exact .back _ (by simp)
  · exact .back _ (by simp)
  · exact switches_tasksleepBack _
  · unfold chanaltBack
    apply Switches.bind
    intro x
    split
    · exact .error _
    · exact .back _ (by simp)
  · exact .back _ (by simp)
  · exact .back _ (by simp)
  · exact .error _

/-- A task resumes only where the scheduler has just dispatched it. -/
theorem finish_control (h : Switches r) : (finish t s r).control ≠ .resume := by
  unfold finish
  split
  · simp
  · rename_i s'
    rw [h s' rfl]
    simp
  · simp
  · simp [Sys.emit]

end Switches

/-- A state in which a task resumes is one that the scheduler made. -/
theorem Reachable.dispatched {s : Sys Links} (h : Reachable s) (hc : s.control = .resume) :
    ∃ s₀, Reachable s₀ ∧ s₀.control = .scheduler ∧ s = taskscheduler s₀ := by
  unfold Reachable ReachableBy at h
  induction h using Reach.induct with
  | init h =>
    obtain ⟨P, rfl⟩ := h
    unfold Program.boot at hc
    split at hc
    · rename_i s hs
      rw [taskcreate_eq _ P.taskmain_ne] at hs
      cases hs
      cases hc
    · cases hc
  | @step s s' h hs ih =>
    obtain ⟨⟨e, act⟩, _, hs⟩ := hs
    rcases step_cases hs with ⟨_, hsched, rfl⟩ | ⟨_, _, _, _, rfl⟩ | ⟨_, _, _, _, _, _, rfl⟩
    · exact ⟨s, h, hsched, rfl⟩
    · exact absurd hc (finish_control switches_resume)
    · exact absurd hc (finish_control (switches_call _))

/-- Nobody runs, or the process has ended. -/
def Sys.Idle {σ : Type} (s : Sys σ) : Prop := s.control ≠ .user ∧ s.control ≠ .resume

/-- Of a task in the run queue at the `taskyield()` of `fdtask`: the switches since then and the
tasks still ahead of it are as many as were ahead of it then; before the first of these switches
nobody has come behind it. -/
def PollerQueue (a : Sys Queues) : Prop :=
  ∀ t n pre post, a.links .taskrunqueue = pre ++ t :: post → (a.task t).context = .fdtask n →
    ∃ d, a.tasknswitch = n + BitVec.ofNat 32 d ∧ d + pre.length < 2 ^ 30 ∧
      (d = 0 → post = [] ∧ a.Idle)

section
variable {lab : Option Call} {a b : Sys Queues} {pl pl' : Placement} {t u : TaskPtr}

/-- While nobody runs only the scheduler does anything. -/
theorem Move.of_idle (m : Move lab a b) (h : a.Idle) :
    (∃ t, b = a.dispatch t) ∨ (∃ v, b = a.halt v) ∨ ∃ e : Event, e.neutral =
    true ∧ b = a.emit e := by
  have huser : ∀ t, ¬a.User t := fun t ht => h.1 ht.2
  have hres : ∀ t x, ¬a.Resuming t x := fun t x ht => h.2 ht.2.1
  cases m with
  | exit | stall | exitall | nomem | toomany | unowned | oops | unwritten | hasreaders =>
    exact .inr (.inl ⟨_, rfl⟩)
  | dispatch => exact .inl ⟨_, rfl⟩
  | note e he => exact .inr (.inr ⟨e, he, rfl⟩)
  | back ht | altback ht => exact absurd ht (hres _ _)
  | taskyield ht | altrun ht | altfail ht | altblock ht | write _ ht => exact absurd ht (huser _)
  | tasksystem ht => exact absurd ht (not_or.mpr ⟨huser _, fun ht => hres _ _ ht.1⟩)
  | life m =>
    cases m with
    | create _ ht | startfd ht | taskexit _ ht => exact absurd ht (huser _)
  | fd m =>
    cases m with
    | fdcall ht | taskdelay _ _ ht | fdwait _ _ ht => exact absurd ht (huser _)
    | fdyield ht =>
      rcases ht with ⟨ht, _⟩ | ⟨n, ht⟩
      · exact absurd ht (hres _ _)
      · exact absurd ht (hres _ _)
    | poll _ ht | revents _ ht | pollwake ht | timerwake _ ht => exact absurd ht (hres _ _)
  | queuing m =>
    cases m with
    | qback ht | sleepback ht | awake ht | reacquire ht => exact absurd ht (hres _ _)
    | qblock ht =>
      rcases ht with ⟨ht, _⟩ | ⟨r, ht, _⟩
      · exact absurd ht (huser _)
      · exact absurd ht (hres _ _)
    | qacquire ht | qunlock ht | tasksleep ht | wakeup ht => exact absurd ht (huser _)
  | rw m =>
    cases m with
    | rback ht | wback ht => exact absurd ht (hres _ _)
    | racquire ht | rblock ht | runlock ht | wacquire ht | wblock ht | wunlock ht =>
      exact absurd ht (huser _)

/-- A task is on the run queue at the `taskyield()` of `fdtask` since before, or just got there. -/
theorem Move.fdtask_queued {n : BitVec 32} (hI : Inv a pl) (hI' : Inv b pl') (m : Move lab a b)
    (ht : t ∈ b.links .taskrunqueue) (hx : (b.task t).context = .fdtask n) :
    (t ∈ a.links .taskrunqueue ∧ (a.task t).context = .fdtask n) ∨
      b.links .taskrunqueue = a.links .taskrunqueue ++ [t] ∧ n = b.tasknswitch ∧ b.Idle := by
  have hpl := hI'.placed.mem_list.mp ht
  have hlive : t ∈ b.live := hI'.mem_live hpl
  have hoff : b.taskrunning ≠ some t := by
    intro hr
    obtain ⟨loc, hloc, hcpu⟩ := (hI'.onCpu.running t).mp hr
    rw [hpl] at hloc
    cases hloc
    simp [Loc.cpu] at hcpu
  by_cases hl : t ∈ a.live
  · by_cases hr : a.taskrunning = some t
    · -- the running task got there by its own call of `taskyield`
      have heq : ∀ u, a.taskrunning = some u → u = t :=
        fun u hu => Option.some.inj (hu.symm.trans hr)
      rcases m.aside_or hI with hs | m | m
      · rcases hs.onCpu t hr with hr' | hne
        · exact absurd hr' hoff
        · rw [hx] at hne
          exact absurd trivial hne
      · cases m with
        | create | startfd => exact absurd hr hoff
        | taskexit v hu =>
          rw [taskexit_eq, heq _ hu.1] at hlive
          exact absurd rfl (Finset.ne_of_mem_erase hlive)
      · right
        cases m with
        | @fdcall _ u hu =>
          obtain rfl := heq u hu.1
          have hn : a.tasknswitch = n := by simpa [Sys.switch, Sys.setTask] using hx
          have hsys : (Libtask.tasksystem u a).links = a.links ∧
              (Libtask.tasksystem u a).tasknswitch = a.tasknswitch := by
            unfold Libtask.tasksystem
            split <;> exact ⟨rfl, rfl⟩
          refine ⟨?_, hn.symm.trans hsys.2.symm, by simp [Sys.Idle, Sys.switch]⟩
          simp [Sys.switch, Sys.ready, Sys.enq, Sys.emit, Sys.setTask, hsys.1]
        | @fdyield _ u hu =>
          have hu' : a.taskrunning = some u := by
            rcases hu with ⟨hu, _⟩ | ⟨_, hu⟩ <;> exact hu.1
          obtain rfl := heq u hu'
          have hn : a.tasknswitch = n := by simpa [Sys.switch, Sys.setTask] using hx
          refine ⟨?_, hn.symm, by simp [Sys.Idle, Sys.switch]⟩
          simp [Sys.switch, Sys.ready, Sys.enq, Sys.emit, Sys.setTask]
        | @taskdelay _ u now ms hu | @fdwait _ u fd events hu =>
          obtain rfl := heq u hu.1
          simp at hx
        | poll | revents | pollwake | timerwake => exact absurd hr hoff
    · left
      rcases m.stays_or hI hl hr with hs | ⟨_, rfl⟩
      · rw [hs.task.context] at hx
        have hq := hI.running_or_queued hl (by rw [hx]; rfl)
        exact ⟨hq.resolve_left hr, hx⟩
      · exact absurd rfl hoff
  · -- a new task has not got so far
    exfalso
    rcases m.aside_or hI with hs | m | m
    · exact hl (hs.live ▸ hlive)
    · cases m with
      | create fn | startfd =>
        rcases Finset.mem_insert.mp hlive with rfl | hmem
        · simp [Sys.create, Sys.ready, Sys.enq, Sys.emit, Sys.setTask] at hx
        · exact hl hmem
      | taskexit v =>
        rw [taskexit_eq] at hlive
        exact hl (Finset.mem_of_mem_erase hlive)
    · exact hl (m.sameTasks.live ▸ hlive)

theorem PollerQueue.move (hI : Inv a pl) (hA : Aligned a) (h : PollerQueue a) (m : Move lab a b) :
    PollerQueue b := by
  obtain ⟨pl', hI'⟩ := m.inv hI
  intro t n pre post hsplit hx
  have hnd := hI'.placed.nodup_list .taskrunqueue
  rw [hsplit, List.nodup_append] at hnd
  have hinj : ∀ xs ys, pre ++ t :: post = xs ++ t :: ys → pre = xs ∧ post = ys := by
    intro xs ys heq
    have hpre : t ∉ pre := fun hmem => hnd.2.2 t hmem t (by simp) rfl
    have hpost : t ∉ post := (List.nodup_cons.mp hnd.2.1).1
    obtain ⟨h₁, _, h₂⟩ := (List.append_cons_inj_of_notMem hpre hpost).mp heq
    exact ⟨h₁, h₂⟩
  rcases m.queued_or hI with ⟨new, hq⟩ | ⟨u, us, _, hrq, rfl⟩
  · rcases m.fdtask_queued hI hI' (t := t) (by simp [hsplit]) hx with ⟨hta, hxa⟩ | ⟨hb, hn, hidle⟩
    · obtain ⟨pre₀, post₀, ha⟩ := List.append_of_mem hta
      obtain ⟨d, hd, hbound, hfirst⟩ := h t n pre₀ post₀ ha hxa
      have hrun := hq.runqueue
      rw [hsplit, ha, List.append_assoc, List.cons_append] at hrun
      obtain ⟨rfl, hpost⟩ := hinj _ _ hrun
      refine ⟨d, hq.nswitch.trans hd, hbound, fun h0 => ?_⟩
      obtain ⟨hp0, hidle⟩ := hfirst h0
      have hsame : b.links .taskrunqueue = a.links .taskrunqueue ∧ b.Idle := by
        rcases m.of_idle hidle with ⟨v, rfl⟩ | ⟨v, rfl⟩ | ⟨e, _, rfl⟩
        · have hlog : [.dispatch v] ++ a.log = new ++ a.log := hq.log
          have hnone := hq.idle
          rw [← List.append_cancel_right hlog] at hnone
          cases hnone
        · exact ⟨rfl, by simp [Sys.Idle, Sys.halt]⟩
        · exact ⟨rfl, hidle⟩
      have hmade : hist madeReady new = [] := by
        have hrq := hq.runqueue
        rw [hsame.1] at hrq
        exact List.self_eq_append_right.mp hrq
      rw [hpost, hp0, hmade]
      exact ⟨rfl, hsame.2⟩
    · -- nothing has been dispatched since the task got there
      rw [hsplit] at hb
      obtain ⟨rfl, rfl⟩ := hinj _ _ hb
      have halign : ∀ u ∈ t :: a.links .taskrunqueue, u % 4 = 0 := by
        intro u hu
        have hmem : u ∈ b.links .taskrunqueue := by
          rw [hsplit]
          simpa [or_comm] using hu
        exact m.aligned hI hA u (hI'.mem_live (hI'.placed.mem_list.mp hmem))
      have hnodup : (t :: a.links .taskrunqueue).Nodup := by
        rw [List.nodup_cons]
        exact ⟨fun hmem => hnd.2.2 t hmem t (by simp) rfl, hnd.1⟩
      have hlen := length_lt_of_aligned hnodup halign
      exact ⟨0, by simp [hn], by omega, fun _ => ⟨rfl, hidle⟩⟩
  · have hus : (a.dispatch u).links .taskrunqueue = us := by
      simp [Sys.dispatch, Sys.emit, Sys.setTask, Sys.deq, hrq]
    have hctx : (a.task t).context = .fdtask n := by
      by_cases htu : t = u
      · subst htu
        simpa [Sys.dispatch, Sys.emit, Sys.setTask, Sys.deq] using hx
      · simpa [Sys.dispatch, Sys.emit, Sys.setTask, Sys.deq, htu] using hx
    rw [hus] at hsplit
    rw [hsplit] at hrq
    obtain ⟨d, hd, hbound, _⟩ := h t n (u :: pre) post hrq hctx
    rw [List.length_cons] at hbound
    refine ⟨d + 1, ?_, by omega, fun h0 => by omega⟩
    have hn : (a.dispatch u).tasknswitch = a.tasknswitch + 1 := rfl
    rw [hn, hd, BitVec.ofNat_add, BitVec.add_assoc]
    rfl

theorem ReachedBy.pollerQueue {ok : Sys Queues → Call → Prop} (h : ReachedBy ok a) :
    PollerQueue a := by
  induction h using Reach.induct with
  | init h =>
    obtain ⟨P, rfl⟩ := h
    intro t n pre post hsplit hx
    have htm : t ∈ P.start.links .taskrunqueue := by simp [hsplit]
    have hmain : t = P.taskmain := by
      simpa [Program.start, Sys.create, Sys.ready, Sys.enq, Sys.emit, Sys.setTask, Program.empty,
        Program.globals, Sys.withLinks] using htm
    subst hmain
    simp [Program.start, Sys.create, Sys.ready, Sys.enq, Sys.emit, Sys.setTask] at hx
  | step h hs ih =>
    obtain ⟨pl, hI⟩ := ReachedBy.inv h
    obtain ⟨_, m, _⟩ := hs
    exact ih.move hI (ReachedBy.aligned h) m

end

section Timeout
variable {σ : Type} {s : Sys σ} {now : UInt64} {us : List TaskPtr}

theorem toNat_five_seconds : (5 * 1000 * 1000 * 1000 : UInt64).toNat = 5000000000 := by decide

/-- The timeout for a sleeper is at most five seconds, and ends no later than it sleeps. -/
theorem pollms_some (s : Sys σ) (now : UInt64) (t : TaskPtr) :
    0 ≤ pollms now (some t) s ∧ pollms now (some t) s ≤ 5000 ∧
    (now.toNat < 2 ^ 63 →
      (now.toNat : ℤ) + pollms now (some t) s * 1000000 ≤ max now.toNat (s.alarm t)) := by
  have halarm : (s.task t).alarmtime.toNat = s.alarm t := rfl
  unfold pollms
  dsimp only
  split
  · exact ⟨le_refl _, by omega, fun _ => by omega⟩
  · rename_i hlate
    have hlt : now.toNat < s.alarm t := by
      rw [← halarm, ← UInt64.lt_iff_toNat_lt]
      exact UInt64.not_le.mp hlate
    have hsub : ((s.task t).alarmtime - now).toNat = s.alarm t - now.toNat :=
      UInt64.toNat_sub_of_le _ _ (UInt64.le_of_lt (UInt64.not_le.mp hlate))
    have hsum : (now + 5 * 1000 * 1000 * 1000).toNat = (now.toNat + 5000000000) % 2 ^ 64 := by
      rw [UInt64.toNat_add, toNat_five_seconds]
    have hbig := (s.task t).alarmtime.toNat_lt
    split
    · rename_i hsoon
      have hle : s.alarm t ≤ (now.toNat + 5000000000) % 2 ^ 64 := by
        rw [← hsum, ← halarm]
        exact UInt64.le_iff_toNat_le.mp hsoon
      have hdiv : (((s.task t).alarmtime - now) / 1000000).toNat =
          (s.alarm t - now.toNat) / 1000000 := by
        rw [UInt64.toNat_div, hsub]
        rfl
      have hint : (BitVec.ofNat 32 ((s.alarm t - now.toNat) / 1000000)).toInt =
          ((s.alarm t - now.toNat) / 1000000 : ℕ) := by
        rw [BitVec.toInt_eq_toNat_cond, BitVec.toNat_ofNat]
        have hsmall : (s.alarm t - now.toNat) / 1000000 ≤ 5000 := by omega
        rw [Nat.mod_eq_of_lt (by omega), if_pos (by omega)]
      rw [hdiv, hint]
      exact ⟨by omega, by omega, fun _ => by omega⟩
    · rename_i hfar
      refine ⟨by omega, le_refl _, fun hnow => ?_⟩
      have hgt : (now.toNat + 5000000000) % 2 ^ 64 < s.alarm t := by
        rw [← hsum, ← halarm, ← UInt64.lt_iff_toNat_lt]
        exact UInt64.not_le.mp hfar
      omega

theorem pollms_eq_neg_one : pollms now us.head? s = -1 ↔ us = [] := by
  cases us with
  | nil => simp [pollms]
  | cons t us =>
    have hpos := (pollms_some s now t).1
    rw [List.head?_cons]
    constructor
    · intro h
      omega
    · intro h
      cases h

end Timeout

/-- In the next step `fdtask`, which is `t`, has nobody to yield to and calls `poll`. -/
def PollsNext (s : Sys Links) (t : TaskPtr) : Prop :=
  s.taskrunning = some t ∧ s.control = .resume ∧
    ∃ n, (s.task t).context = .fdtask n ∧ ¬0 < (taskyieldResult n s).toInt

/-- The call of `poll` with the sleepers `us`: nobody is ready, and it does not block for longer
than the first of the sleepers is to sleep. -/
structure PollsIdle (e : Env) (t : TaskPtr) (us : List TaskPtr) (s : Sys Links) : Prop where
  passes : resume e t s = fdtaskPass e t s
  idle : WellLinked s.links .taskrunqueue []
  sleepers : WellLinked s.links .sleeping us
  forever : pollms e.nsec₁ (head .sleeping s) s = -1 ↔ us = []
  bounded : us ≠ [] → 0 ≤ pollms e.nsec₁ (head .sleeping s) s ∧
    pollms e.nsec₁ (head .sleeping s) s ≤ 5000
  earliest : us ≠ [] → e.nsec₁.toNat < 2 ^ 63 → ∀ u ∈ us,
    (e.nsec₁.toNat : ℤ) + pollms e.nsec₁ (head .sleeping s) s * 1000000 ≤
      max e.nsec₁.toNat (s.task u).alarmtime.toNat

/-- When nobody ran between two turns of the poller, nobody is ready. -/
theorem PollsNext.idle {s : Sys Links} {t : TaskPtr} (hp : PollsNext s t) (h : Reachable s) :
    WellLinked s.links .taskrunqueue [] := by
  obtain ⟨ht, hc, n, hx, hn⟩ := hp
  obtain ⟨s₀, hs₀, hc₀, rfl⟩ := h.dispatched hc
  obtain ⟨a, pl, ha, hI, hsim⟩ := hs₀.sim
  have hcount : s₀.taskcount = a.taskcount := by
    obtain ⟨q, _, rfl⟩ := hsim
    rfl
  have h0 : a.taskcount ≠ 0 := by
    intro h0
    rw [taskscheduler, if_pos (hcount.trans h0)] at hc
    cases hc
  cases hq : a.links .taskrunqueue with
  | nil =>
    rw [taskscheduler, if_neg (hcount ▸ h0), hsim.head, hq] at hc
    cases hc
  | cons u ts =>
    obtain ⟨q, hrep, hb⟩ := sim_taskscheduler hsim h0 hq
    obtain rfl : t = u := by
      have hr : (taskscheduler s₀).taskrunning = some u := (congrArg Sys.taskrunning hb).symm
      exact Option.some.inj (ht.symm.trans hr)
    have hsw : (taskscheduler s₀).tasknswitch = a.tasknswitch + 1 :=
      (congrArg Sys.tasknswitch hb).symm
    have hctx : (a.task t).context = .fdtask n := by
      have htask : (taskscheduler s₀).task = (a.dispatch t).task := (congrArg Sys.task hb).symm
      rw [htask] at hx
      simpa [Sys.dispatch, Sys.emit, Sys.setTask, Sys.deq] using hx
    obtain ⟨d, hd, hbound, hfirst⟩ := ha.pollerQueue t n [] ts hq hctx
    have hzero : d = 0 := by
      have hres : taskyieldResult n (taskscheduler s₀) = BitVec.ofNat 32 d := by
        rw [taskyieldResult, hsw, hd, BitVec.add_comm n, BitVec.add_assoc, BitVec.add_comm n,
          ← BitVec.add_assoc, BitVec.add_sub_cancel]
        exact BitVec.add_sub_cancel _ 1#32
      rw [hres, BitVec.toInt_eq_toNat_cond, BitVec.toNat_ofNat] at hn
      rw [Nat.mod_eq_of_lt (by omega), if_pos (by omega)] at hn
      omega
    obtain ⟨rfl, _⟩ := hfirst hzero
    have hnone : q .taskrunqueue = [] := by
      have hlinks := congrArg (fun b : Sys Queues => b.links .taskrunqueue) hb
      have hempty : (a.dispatch t).links .taskrunqueue = [] := by
        simp [Sys.dispatch, Sys.emit, Sys.setTask, Sys.deq, hq]
      exact hlinks.symm.trans hempty
    rw [← hnone]
    exact wellLinked_of_isList (hrep.isList _)

/-- The poller blocks only when there is no work, and not beyond the next deadline. -/
theorem poll_when_idle {s : Sys Links} {t : TaskPtr} (h : Reachable s) (hp : PollsNext s t)
    (e : Env) : ∃ us, PollsIdle e t us s := by
  have hidle := hp.idle h
  obtain ⟨ht, hc, n, hx, hn⟩ := hp
  obtain ⟨a, pl, ha, hI, hsim⟩ := h.sim
  have hsorted : Ordered s.alarm (a.links .sleeping) := by
    have hT := ha.timerState.sorted
    obtain ⟨q, _, rfl⟩ := hsim
    exact hT
  have hhead := hsim.head .sleeping
  refine ⟨a.links .sleeping, ?_⟩
  constructor
  case passes => simp only [resume, hx, fdtaskBack, if_neg hn]
  case idle => exact hidle
  case sleepers =>
    obtain ⟨q, hrep, rfl⟩ := hsim
    exact wellLinked_of_isList (hrep.isList _)
  case forever =>
    rw [hhead]
    exact pollms_eq_neg_one
  case bounded =>
    intro hne
    obtain ⟨u, us, hus⟩ := List.exists_cons_of_ne_nil hne
    rw [hhead, hus, List.head?_cons]
    exact ⟨(pollms_some s _ u).1, (pollms_some s _ u).2.1⟩
  case earliest =>
    intro hne hnow v hv
    obtain ⟨u, us, hus⟩ := List.exists_cons_of_ne_nil hne
    rw [hus] at hsorted hv
    have hfirst : s.alarm u ≤ s.alarm v := hsorted.head_le v hv
    have hms := (pollms_some s e.nsec₁ u).2.2 hnow
    have hv' : (s.task v).alarmtime.toNat = s.alarm v := rfl
    rw [hhead, hus, List.head?_cons]
    omega

/-- The first task sleeps for ten seconds, and the poller runs alone. -/
def pollRun : List (Env × Action) :=
  [(.still 0, .schedule), (.still 0, .resume), (.still 8192, .call (.taskdelay 10000)),
    (.still 0, .schedule), (.still 0, .resume), (.still 0, .schedule)]

theorem poll_when_idle_small : ∃ s, Program.small.after (fun _ _ => True) pollRun = some s ∧
    head .sleeping s = some 4096 ∧ PollsNext s 8192 ∧ ∃ us, PollsIdle (.still 0) 8192 us s := by
  have hrun : (Program.small.after (fun _ _ => True) pollRun).map (fun s =>
      (head .sleeping s, s.taskrunning, s.control, (s.task 8192).context, s.tasknswitch)) =
        some (some 4096, some 8192, .resume, .fdtask 2, 3) := by decide
  obtain ⟨s, hs, hstate⟩ := Option.map_eq_some_iff.mp hrun
  simp only [Prod.mk.injEq] at hstate
  obtain ⟨hsleep, ht, hc, hx, hn⟩ := hstate
  have hnext : PollsNext s 8192 := by
    refine ⟨ht, hc, 2, hx, ?_⟩
    rw [taskyieldResult, hn]
    decide
  exact ⟨s, hs, hsleep, hnext, poll_when_idle (Program.reachableBy_after hs) hnext _⟩

end Libtask
