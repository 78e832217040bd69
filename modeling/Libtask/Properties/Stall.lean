import Libtask.Abstract.Resumed
import Libtask.Properties.TaskTable

/-! The stall report is never false: as long as a timer or a descriptor is waited for, the task
that polls for them can run. -/
namespace Libtask
open Function Runs

/-- The calls by which user code would start a second `fdtask`. -/
def Call.startsFdtask : Call → Bool
  | .fdtask | .taskcreate .fdtask => true
  | _ => false

/-- User code leaves `fdtask` to `taskdelay` and `fdwait`. -/
def NoFdtask {σ : Type} (_ : Sys σ) (c : Call) : Prop := c.startsFdtask = false

instance {σ : Type} (s : Sys σ) (c : Call) : Decidable (NoFdtask s c) :=
  inferInstanceAs (Decidable (_ = _))

/-- `t` is a task that was created to run `fdtask`. -/
def Sys.Poller {σ : Type} (t : TaskPtr) (s : Sys σ) : Prop :=
  t ∈ s.live ∧ (s.task t).startfn = .fdtask

/-- A task of `fdtask` has not started or is in its loop, and never in user code. -/
def Sys.Looping {σ : Type} (t : TaskPtr) (s : Sys σ) : Prop :=
  ((s.task t).context = .taskstart ∨ ∃ n, (s.task t).context = .fdtask n) ∧ ¬s.User t

structure PollState (a : Sys Queues) : Prop where
  idle : a.startedfdtask = false → a.links .sleeping = [] ∧ a.npollfd = 0
  started : (∃ t, a.Poller t) ↔ a.startedfdtask = true
  unique : ∀ t u, a.Poller t → a.Poller u → t = u
  looping : ∀ t, a.Poller t → a.Looping t

section
variable {lab : Option Call} {a b : Sys Queues} {pl : Placement} {t u p : TaskPtr}

theorem Sys.User.not_switch {x : Context} : ¬(a.switch x u).User t := by
  simp [Sys.User, Sys.switch]

/-- The poller only ever gives up the CPU by yielding. -/
theorem Sys.Looping.resumed (h : a.Looping t) (hfn : (a.task t).startfn = .fdtask)
    (ht : a.taskrunning = some t) (hu : a.control ≠ .user) (m : Resumed lab t a b) :
    b.Looping t := by
  obtain ⟨hx, huser⟩ := h
  cases m with
  | note e he => exact ⟨hx, huser⟩
  | halt v => exact ⟨hx, by simp [Sys.User, Sys.halt]⟩
  | back hret =>
    rcases hx with hx | ⟨n, hx⟩ <;> rw [hx, hfn] at hret <;> cases hret
  | altback _ hb => rcases hx with hx | ⟨n, hx⟩ <;> simp [hx] at hb
  | queuing ho | rw ho => rcases hx with hx | ⟨n, hx⟩ <;> simp [hx, Context.onObj] at ho
  | system _ _ =>
    unfold Libtask.tasksystem
    split
    · exact ⟨hx, huser⟩
    · exact ⟨by simpa [Sys.setTask] using hx, huser⟩
  | fd _ m =>
    cases m with
    | fdcall hus | taskdelay _ _ hus | fdwait _ _ hus => exact absurd hus.2 hu
    | @fdyield _ u hres =>
      have hut : u = t := by
        rcases hres with ⟨hres, _⟩ | ⟨_, hres⟩ <;> exact (hres.eq ht).1
      subst hut
      exact ⟨.inr ⟨a.tasknswitch, by rw [Sys.switch_self]⟩, Sys.User.not_switch⟩
    | poll | revents => exact ⟨hx, huser⟩
    | @pollwake _ _ _ i =>
      have hctx : ((a.ready (a.polltask i)).task t).context = (a.task t).context :=
        Inv.ready_context _ _ _
      refine ⟨?_, huser⟩
      rw [← hctx] at hx
      exact hx
    | @timerwake _ _ u =>
      have hctx : (((a.uncountSleeper u).wake .sleeping u).task t).context = (a.task t).context :=
        Inv.ready_context _ _ _
      refine ⟨?_, huser⟩
      rw [hctx]
      exact hx

theorem SameTasks.poller (h : SameTasks a b) (t : TaskPtr) : b.Poller t ↔ a.Poller t := by
  unfold Sys.Poller
  rw [h.live, h.startfn]

theorem poller_create {fn : Startfn} (hp : p ∉ a.live) (t : TaskPtr) :
    (a.create fn p).Poller t ↔ t = p ∧ fn = .fdtask ∨ a.Poller t := by
  unfold Sys.Poller
  by_cases ht : t = p
  · subst ht
    simp [Sys.create, Sys.ready, Sys.enq, Sys.emit, Sys.setTask, hp]
  · simp [Sys.create, Sys.ready, Sys.enq, Sys.emit, Sys.setTask, ht]

theorem poller_taskexit {σ : Type} (s : Sys σ) (v : ℤ) (t u : TaskPtr) :
    (taskexit v t s).Poller u ↔ u ≠ t ∧ s.Poller u := by
  have hfn : ((taskexit v t s).task u).startfn = (s.task u).startfn := by
    simp only [taskexit_eq, Sys.emit]
    rw [update_proj Task.startfn, update_proj Task.startfn] <;> rfl
  unfold Sys.Poller
  rw [hfn, taskexit_eq]
  simp [Sys.emit, and_assoc]

/-- A task of `fdtask` never ends, and stays in its loop. -/
theorem Move.looping (hI : Inv a pl) (m : Move lab a b) (ht : a.Poller t) (h : a.Looping t) :
    b.Poller t ∧ b.Looping t := by
  by_cases hr : a.taskrunning = some t
  · have hu : a.control ≠ .user := fun hc => h.2 ⟨hr, hc⟩
    refine ⟨?_, h.resumed ht.2 hr hu (m.resumed hI hr hu)⟩
    rcases m.aside_or hI with hs | m | m
    · exact (hs.poller t).mpr ht
    · cases m with
      | create _ hus | startfd hus | taskexit _ hus => exact absurd hus.2 hu
    · exact (m.sameTasks.poller t).mpr ht
  · rcases m.stays_or hI ht.1 hr with hs | ⟨_, rfl⟩
    · refine ⟨⟨hs.live ht.1, hs.task.startfn.trans ht.2⟩, ?_, fun hu => hs.idle hr hu.1⟩
      rw [hs.task.context]
      exact h.1
    · have hctx : ∀ u, ((a.dispatch t).task u).context = (a.task u).context := by
        intro u
        by_cases hu : u = t <;> simp [Sys.dispatch, Sys.emit, Sys.setTask, Sys.deq, hu]
      refine ⟨⟨ht.1, ?_⟩, ?_, by simp [Sys.User, Sys.dispatch, Sys.emit]⟩
      · simpa [Sys.dispatch, Sys.emit, Sys.setTask, Sys.deq] using ht.2
      · rw [hctx]
        exact h.1

/-- Without a poller there is nothing to poll for. -/
theorem FdMove.idle (m : FdMove lab a b)
    (h : a.startedfdtask = false → a.links .sleeping = [] ∧ a.npollfd = 0) :
    b.startedfdtask = a.startedfdtask ∧
      (b.startedfdtask = false → b.links .sleeping = [] ∧ b.npollfd = 0) := by
  have hready : ∀ t, (a.ready t).links .sleeping = a.links .sleeping := fun t =>
    (Aside.ready a t).sleeping
  cases m with
  | @fdcall _ t =>
    have hs := (Aside.tasksystem a t).trans (.ready _ t)
    refine ⟨hs.startedfdtask, fun h0 => ?_⟩
    obtain ⟨hq, hn⟩ := h (hs.startedfdtask.symm.trans h0)
    exact ⟨hs.sleeping.trans hq, hs.npollfd.trans hn⟩
  | @fdyield _ t =>
    refine ⟨rfl, fun h0 => ?_⟩
    obtain ⟨hq, hn⟩ := h h0
    exact ⟨(hready t).trans hq, hn⟩
  | taskdelay _ _ _ hs | fdwait _ _ _ hs =>
    exact ⟨rfl, fun h0 => absurd (hs.symm.trans h0) (by simp)⟩
  | poll | revents => exact ⟨rfl, h⟩
  | @pollwake _ _ _ i =>
    refine ⟨rfl, fun h0 => ?_⟩
    obtain ⟨hq, hn⟩ := h h0
    refine ⟨(hready (a.polltask i)).trans hq, ?_⟩
    show a.npollfd - 1 = 0
    omega
  | timerwake _ _ _ hq =>
    refine ⟨rfl, fun h0 => ?_⟩
    rw [(h h0).1] at hq
    cases hq

theorem PollState.move (hI : Inv a pl) (h : PollState a) (m : Move lab a b)
    (hlab : ∀ c, lab = some c → NoFdtask a c) : PollState b := by
  have hsame : (∀ t, b.Poller t ↔ a.Poller t) → b.startedfdtask = a.startedfdtask →
      (b.startedfdtask = false → b.links .sleeping = [] ∧ b.npollfd = 0) → PollState b := by
    intro hiff hst hidle
    constructor
    case idle => exact hidle
    case started =>
      rw [hst, ← h.started]
      exact exists_congr hiff
    case unique => exact fun t u ht hu => h.unique t u ((hiff t).mp ht) ((hiff u).mp hu)
    case looping =>
      intro t ht
      have ht' := (hiff t).mp ht
      exact (m.looping hI ht' (h.looping t ht')).2
  rcases m.aside_or hI with hs | m' | m'
  · apply hsame hs.poller hs.startedfdtask
    rw [hs.startedfdtask, hs.sleeping, hs.npollfd]
    exact h.idle
  · cases m' with
    | @create _ t p fn _ _ _ hp =>
      have hfn : fn ≠ .fdtask := by
        intro hfn
        subst hfn
        cases hlab _ rfl
      apply hsame _ rfl h.idle
      intro u
      rw [poller_create hp]
      simp [hfn]
    | @startfd _ t p hu' _ _ hp hs =>
      have hnone : ∀ u, ¬a.Poller u := by
        intro u hpu
        have hst := h.started.mp ⟨u, hpu⟩
        rw [hs] at hst
        cases hst
      have hiff : ∀ u, ({ a with startedfdtask := true }.create .fdtask p).Poller u ↔ u = p := by
        intro u
        have hcreate : ({ a with startedfdtask := true }.create .fdtask p).Poller u ↔
            u = p ∧ Startfn.fdtask = .fdtask ∨ a.Poller u := poller_create hp u
        rw [hcreate]
        exact ⟨fun hu => hu.elim And.left fun hu => absurd hu (hnone u), fun hu => .inl ⟨hu, rfl⟩⟩
      constructor
      case idle => exact fun h0 => by cases h0
      case started => exact ⟨fun _ => rfl, fun _ => ⟨p, (hiff p).mpr rfl⟩⟩
      case unique =>
        intro u v hu hv
        exact ((hiff u).mp hu).trans ((hiff v).mp hv).symm
      case looping =>
        intro u hu
        rw [(hiff u).mp hu]
        constructor
        · left
          simp [Sys.create, Sys.ready, Sys.enq, Sys.emit, Sys.setTask]
        · intro hup
          have hpt : p = t := Option.some.inj (hup.1.symm.trans hu'.1)
          exact hp (hpt ▸ hI.mem_live (hI.user hu'))
    | @taskexit _ t v hu =>
      have hiff : ∀ u, (Libtask.taskexit v t a).Poller u ↔ a.Poller u := by
        intro u
        rw [poller_taskexit]
        constructor
        · exact And.right
        · intro hpu
          refine ⟨fun hut => ?_, hpu⟩
          exact (h.looping u hpu).2 (hut ▸ hu)
      apply hsame hiff
      · rw [taskexit_eq]
        rfl
      · rw [taskexit_eq]
        exact h.idle
  · obtain ⟨hst, hidle⟩ := m'.idle h.idle
    exact hsame m'.sameTasks.poller hst hidle

theorem PollState.poller_ready (hI : Inv a pl) (h : PollState a) (ht : a.Poller t) :
    a.taskrunning = some t ∨ t ∈ a.links .taskrunqueue := by
  apply hI.running_or_queued ht.1
  rcases (h.looping t ht).1 with hx | ⟨n, hx⟩ <;> rw [hx] <;> rfl

end

theorem Program.pollState_start (P : Program) : PollState P.start := by
  have hiff : ∀ t, ¬P.start.Poller t := by
    intro t ht
    rcases (poller_create
      (by simp [Program.empty, Program.globals, Sys.withLinks]) t).mp ht with h | h
    · cases h.2
    · simp [Sys.Poller, Program.empty, Program.globals, Sys.withLinks] at h
  constructor
  case idle => exact fun _ => ⟨rfl, rfl⟩
  case started =>
    constructor
    · intro hex
      obtain ⟨t, ht⟩ := hex
      exact absurd ht (hiff t)
    · intro h0
      cases h0
  case unique => exact fun t _ ht => absurd ht (hiff t)
  case looping => exact fun t ht => absurd ht (hiff t)

theorem ReachedBy.pollState {a : Sys Queues} (h : ReachedBy NoFdtask a) : PollState a := by
  induction h using Reach.induct with
  | init h =>
    obtain ⟨P, rfl⟩ := h
    exact P.pollState_start
  | step h hs ih =>
    obtain ⟨pl, hI⟩ := ReachedBy.inv h
    obtain ⟨_, m, hlab⟩ := hs
    exact ih.move hI m hlab

/-- `t` waits for a lock, on a rendezvous point or in a call of `chanalt`. -/
def BlockedOnPeer (s : Sys Links) (q : Queues) (t : TaskPtr) : Prop :=
  (∃ k o, k.obj = some o ∧ t ∈ q k) ∨ ∃ base, AltBlocked s t base

/-- While a timer or a descriptor is waited for there is one poller, which runs or is ready; so
when the scheduler reports a stall, nothing but other tasks is waited for. -/
structure StallIsTrue (s : Sys Links) (q : Queues) : Prop where
  poller : q .sleeping ≠ [] ∨ 0 < s.npollfd → ∃ t, s.Poller t ∧ (∀ u, s.Poller u → u = t) ∧
    (s.taskrunning = some t ∨ t ∈ q .taskrunqueue)
  report : s.control = .scheduler → s.taskcount ≠ 0 →
    (taskscheduler s).control = .halted (.exit 1) → s.taskrunning = none ∧
      q .taskrunqueue = [] ∧ q .sleeping = [] ∧ s.npollfd = 0 ∧ ∀ t ∈ s.live, BlockedOnPeer s q t

theorem taskscheduler_stall {s : Sys Links} (h0 : s.taskcount ≠ 0)
    (h : (taskscheduler s).control = .halted (.exit 1)) : head .taskrunqueue s = none := by
  unfold taskscheduler at h
  rw [if_neg h0] at h
  split at h
  · assumption
  · cases h

/-- The scheduler reports a stall only when there is one. -/
theorem no_false_stall {s : Sys Links} (h : ReachableBy NoFdtask s) :
    ∃ q : Queues, (∀ k, WellLinked s.links k (q k)) ∧ StallIsTrue s q := by
  obtain ⟨a, ha, hsim⟩ : ∃ a, ReachedBy NoFdtask a ∧ Sim s a :=
    h.sim fun _ _ _ _ hok => hok
  obtain ⟨pl, hI⟩ := ha.inv
  have hP := ha.pollState
  have hempty : head .taskrunqueue s = none → a.links .taskrunqueue = [] := by
    intro hq
    rw [hsim.head] at hq
    exact List.head?_eq_none_iff.mp hq
  obtain ⟨q, hrep, rfl⟩ := hsim
  refine ⟨q, fun k => wellLinked_of_isList (hrep.isList k), ?_⟩
  constructor
  case poller =>
    intro hw
    have hst : (s.withLinks q).startedfdtask = true := by
      by_contra hst
      obtain ⟨hs, hn⟩ := hP.idle (Bool.eq_false_iff.mpr hst)
      rcases hw with hw | hw
      · exact hw hs
      · have hn' : s.npollfd = 0 := hn
        omega
    obtain ⟨t, ht⟩ := hP.started.mpr hst
    exact ⟨t, ht, fun u hu => hP.unique u t hu ht, hP.poller_ready hI ht⟩
  case report =>
    intro hc h0 hhalt
    have hrun : s.taskrunning = none := hI.onCpu.scheduler hc
    have hq : q .taskrunqueue = [] := hempty (taskscheduler_stall h0 hhalt)
    have hst : (s.withLinks q).startedfdtask = false := by
      by_contra hst
      obtain ⟨t, ht⟩ := hP.started.mpr (by simpa using hst)
      rcases hP.poller_ready hI ht with hr | hr
      · exact absurd (hrun.symm.trans hr) (by simp)
      · have hr' : t ∈ q .taskrunqueue := hr
        simp [hq] at hr'
    obtain ⟨hs, hn⟩ := hP.idle hst
    refine ⟨hrun, hq, hs, hn, fun t ht => ?_⟩
    obtain ⟨loc, hloc⟩ := Option.ne_none_iff_exists'.mp (mt (hI.live t).mp (not_not.mpr ht))
    cases loc with
    | resuming | user =>
      have hr := (hI.onCpu.running t).mpr ⟨_, hloc, by simp [Loc.cpu]⟩
      exact absurd (hrun.symm.trans hr) (by simp)
    | alt base => exact .inr ⟨base, hI.altBlocked_iff.mpr hloc⟩
    | poll =>
      have hmem := hI.placed.mem_poll.mpr hloc
      have hn' : s.npollfd = 0 := hn
      simp [Sys.polls, Sys.withLinks, hn'] at hmem
    | list k =>
      have hmem : t ∈ q k := hI.placed.mem_list.mpr hloc
      left
      cases k with
      | taskrunqueue => simp [hq] at hmem
      | sleeping =>
        have hs' : q .sleeping = [] := hs
        simp [hs'] at hmem
      | qwaiting l | rwaiting l | wwaiting l | rendez l => exact ⟨_, _, rfl, hmem⟩

/-- The first task goes to sleep, and the poller that this starts is dispatched. -/
def sleepRun : List (Env × Action) :=
  [(.still 0, .schedule), (.still 0, .resume), (.still 8192, .call (.taskdelay 1)),
    (.still 0, .schedule)]

theorem no_false_stall_small : ∃ s, Program.small.after NoFdtask sleepRun = some s ∧
    s.taskrunning = some 8192 ∧ head .sleeping s = some 4096 ∧
      ∃ q : Queues, (∀ k, WellLinked s.links k (q k)) ∧ StallIsTrue s q := by
  have hrun : (Program.small.after NoFdtask sleepRun).map (fun s =>
      (s.taskrunning, head .sleeping s)) = some (some 8192, some 4096) := by decide
  obtain ⟨s, hs, hstate⟩ := Option.map_eq_some_iff.mp hrun
  simp only [Prod.mk.injEq] at hstate
  obtain ⟨ht, hsleep⟩ := hstate
  exact ⟨s, hs, ht, hsleep, no_false_stall (Program.reachableBy_after hs)⟩

end Libtask
