import Libtask.Abstract.Aside
import Libtask.Refine.Walk

/-! Timers, descriptor waits and the passes of `fdtask` as walks of the abstract machine. -/
namespace Libtask
open Function

section Timers
variable {s : Sys Links} {a : Sys Queues} {pl : Placement} {t : TaskPtr} {e : Env}

theorem countSleeper_eq {σ : Type} (s : Sys σ) (t : TaskPtr) :
    (if (s.task t).system then s
      else if s.sleepingcounted + 1 = 1 then
        { s with sleepingcounted := s.sleepingcounted + 1, taskcount := s.taskcount + 1 }
      else { s with sleepingcounted := s.sleepingcounted + 1 }) = s.countSleeper t := by
  by_cases hs : (s.task t).system
  · simp [Sys.countSleeper, hs]
  · by_cases h1 : s.sleepingcounted = 0 <;> simp [Sys.countSleeper, hs, h1]

theorem uncountSleeper_eq {σ : Type} (s : Sys σ) (t : TaskPtr) :
    (if (s.task t).system then s
      else if s.sleepingcounted - 1 = 0 then
        { s with sleepingcounted := s.sleepingcounted - 1, taskcount := s.taskcount - 1 }
      else { s with sleepingcounted := s.sleepingcounted - 1 }) = s.uncountSleeper t := by
  by_cases hs : (s.task t).system
  · simp [Sys.uncountSleeper, hs]
  · by_cases h1 : s.sleepingcounted - 1 = 0 <;> simp [Sys.uncountSleeper, hs, h1]

theorem Sim.uncountSleeper (h : Sim s a) (t : TaskPtr) :
    Sim (s.uncountSleeper t) (a.uncountSleeper t) := by
  obtain ⟨q, hq, rfl⟩ := h
  exact ⟨q, hq, rfl⟩

/-- The search loop of `taskdelay` ends, and the link surgery puts the task where the
abstract machine has it. -/
theorem sim_delay (h : Sim s a) (hI : Inv a pl) (ht : pl t = some .user) (deadline : UInt64) :
    ∃ u, s.links.delayscan (fun v => (s.task v).alarmtime) deadline (s.live.card + 1)
        (head .sleeping s) = some u ∧
      Sim ((({ s with links := s.links.splice .sleeping t u } : Sys Links).setTask t
        fun x => { x with alarmtime := deadline }).countSleeper t) (a.delay deadline t) := by
  have hoff := hI.off_lists ht (.inl rfl)
  have hlen := hI.length_le .sleeping
  obtain ⟨q, hq, rfl⟩ := h
  refine ⟨_, Rep.delayscan (hq.isList .sleeping) (Nat.lt_succ_of_le hlen), ?_⟩
  exact ⟨_, hq.splice (List.takeWhile_append_dropWhile).symm hoff, rfl⟩

/-- `startfdtask` by user code either starts the poller, once, or runs out of memory. -/
theorem walk_startfdtask (h : Sim s a) (hI : Inv a pl) (ht : a.User t)
    (hm : e.malloc = 0 ∨ e.malloc % 4 = 0 ∧ e.malloc ∉ s.live) :
    startfdtask e s = .error (.abort .taskallocMalloc) ∨
      ∃ s' b pl', startfdtask e s = .ok s' ∧ Walk none a b ∧ Sim s' b ∧ Inv b pl' ∧ b.User t ∧
        b.startedfdtask = true ∧ b.npollfd = a.npollfd := by
  have hs : s.startedfdtask = a.startedfdtask ∧ s.live = a.live := by
    obtain ⟨q, hq, rfl⟩ := h
    exact ⟨rfl, rfl⟩
  unfold startfdtask
  rw [hs.1]
  by_cases hst : a.startedfdtask
  · rw [if_pos hst]
    exact .inr ⟨s, a, pl, rfl, .refl _ a, h, hI, ht, hst, rfl⟩
  · rw [if_neg hst]
    by_cases h0 : e.malloc = 0
    · left
      simp [taskcreate, taskalloc, h0, bind, Except.bind]
    · right
      obtain ⟨ha, hp⟩ := hm.resolve_left h0
      rw [hs.2] at hp
      have hI' : Inv { a with startedfdtask := true } pl :=
        hI.quiet (.same rfl rfl rfl rfl) rfl rfl rfl rfl (fun _ => rfl) (hI.onCpu.congr rfl rfl)
      have h' : Sim { s with startedfdtask := true } { a with startedfdtask := true } := by
        obtain ⟨q, hq, rfl⟩ := h
        exact ⟨q, hq, rfl⟩
      obtain ⟨s', hok, hs'⟩ := h'.taskcreate hI' .fdtask h0 hp
      exact ⟨s', _, _, hok, .one (.life (.startfd ht h0 ha hp (Bool.eq_false_iff.mpr hst))), hs',
        hI'.create .fdtask hp, ht, rfl, rfl⟩

theorem taskdelay_ok {ms : UInt32} {s₁ : Sys Links} (h : startfdtask e s = .ok s₁) :
    taskdelay e ms t s =
      match s₁.links.delayscan (fun u => (s₁.task u).alarmtime)
        (e.nsec₁ + ms.toUInt64 * 1000000) (s₁.live.card + 1) (head .sleeping s₁) with
      | none => .error .diverge
      | some u => .ok (taskswitch (.taskdelay e.nsec₁) t
          (((({ s₁ with links := s₁.links.splice .sleeping t u } : Sys Links).setTask t
            fun x => { x with alarmtime := e.nsec₁ + ms.toUInt64 * 1000000 }).countSleeper t).emit
              (.delay t e.nsec₁ ms)), .switched) := by
  simp only [taskdelay, h, bind, Except.bind, ← countSleeper_eq]
  rfl

theorem walks_taskdelay (h : Sim s a) (hI : Inv a pl) (ht : a.User t)
    (hm : e.malloc = 0 ∨ e.malloc % 4 = 0 ∧ e.malloc ∉ s.live) (ms : UInt32) :
    Walks none a (finish t s (taskdelay e ms t s)) := by
  rcases walk_startfdtask h hI ht hm with herr | ⟨s', b, pl', hok, hw, hs', hI', ht', hst, _⟩
  · simp only [taskdelay, herr]
    exact finish_error (.one (.nomem ht)) h
  · obtain ⟨u, hscan, hsim⟩ := sim_delay hs' hI' (hI'.user ht')
      (e.nsec₁ + ms.toUInt64 * 1000000)
    have hres : taskdelay e ms t s = .ok (taskswitch (.taskdelay e.nsec₁) t
        (((({ s' with links := s'.links.splice .sleeping t u } : Sys Links).setTask t
          fun x => { x with alarmtime := e.nsec₁ + ms.toUInt64 * 1000000 }).countSleeper t).emit
            (.delay t e.nsec₁ ms)), .switched) := by
      rw [taskdelay_ok hok, hscan]
    rw [hres]
    refine finish_switched (hw.tail (.fd (.taskdelay e.nsec₁ ms ht' hst)))
      ((hsim.emit _).taskswitch _ ?_)
    simpa [Sys.delay, Sys.countSleeper, Sys.setTask, Sys.emit] using
      hI'.not_exiting (hI'.user ht')

theorem walks_fdwait (h : Sim s a) (hI : Inv a pl) (ht : a.User t)
    (hm : e.malloc = 0 ∨ e.malloc % 4 = 0 ∧ e.malloc ∉ s.live) (fd : ℤ) (rw : Char) :
    Walks none a (finish t s (fdwait e fd rw t s)) := by
  rcases walk_startfdtask h hI ht hm with herr | ⟨s', b, pl', hok, hw, hs', hI', ht', hst, hnb⟩
  · simp only [fdwait, herr]
    exact finish_error (.one (.nomem ht)) h
  · by_cases hfull : b.npollfd ≥ MAXFD
    · have hres : fdwait e fd rw t s = .error (.abort .tooManyPollfds) := by
        have hn : s'.npollfd ≥ MAXFD := by
          obtain ⟨q, hq, rfl⟩ := hs'
          exact hfull
        simp [fdwait, hok, hn, bind, Except.bind, throw, throwThe, MonadExceptOf.throw]
      rw [hres]
      exact finish_error (.one (.toomany ht (hnb ▸ hfull))) h
    · obtain ⟨events, hev⟩ :
          ∃ n, n = if rw = 'r' then POLLIN else if rw = 'w' then POLLOUT else 0 :=
        ⟨_, rfl⟩
      have hres : fdwait e fd rw t s = .ok (taskswitch .fdwait t ({ s' with
          polltask := update s'.polltask s'.npollfd t
          pollfd := update s'.pollfd s'.npollfd { fd, events, revents := 0 }
          npollfd := s'.npollfd + 1 }.emit (.fdwait t fd events)), .switched) := by
        have hn : ¬s'.npollfd ≥ MAXFD := by
          obtain ⟨q, hq, rfl⟩ := hs'
          exact hfull
        simp [fdwait, hok, hn, hev, bind, Except.bind, pure, Except.pure]
      have hsim : Sim { s' with
          polltask := update s'.polltask s'.npollfd t
          pollfd := update s'.pollfd s'.npollfd { fd, events, revents := 0 }
          npollfd := s'.npollfd + 1 } { b with
          polltask := update b.polltask b.npollfd t
          pollfd := update b.pollfd b.npollfd { fd, events, revents := 0 }
          npollfd := b.npollfd + 1 } := by
        obtain ⟨q, hq, rfl⟩ := hs'
        exact ⟨q, hq, rfl⟩
      rw [hres]
      exact finish_switched (hw.tail (.fd (.fdwait fd events ht' hst (not_le.mp hfull))))
        ((hsim.emit _).taskswitch _ (hI'.not_exiting (hI'.user ht')))

end Timers

section Poller
variable {s : Sys Links} {a : Sys Queues} {pl : Placement} {t : TaskPtr} {e : Env}
  {n : BitVec 32}

theorem sim_fdtaskYield {loc : Loc} (h : Sim s a) (hI : Inv a pl) (ht : pl t = some loc)
    (hl : loc.cpu) :
    Sim (fdtaskYield t s) ((a.ready t).switch (.fdtask a.tasknswitch) t) := by
  have hn : s.tasknswitch = a.tasknswitch := by
    obtain ⟨q, hq, rfl⟩ := h
    rfl
  rw [fdtaskYield, hn]
  refine (h.taskready (hI.off_lists ht hl)).taskswitch _ ?_
  rw [Inv.ready_exiting]
  exact hI.not_exiting ht

theorem walks_fdtask (h : Sim s a) (hI : Inv a pl) (ht : a.Resuming t .taskstart)
    (hf : (a.task t).startfn = .fdtask) :
    Walks none a (finish t s (.ok (fdtask t s, .switched))) := by
  have hsys : ((tasksystem t a).task t).context = (a.task t).context ∧
      ((tasksystem t a).task t).startfn = (a.task t).startfn := by
    unfold tasksystem
    split <;> simp [Sys.setTask]
  have hrun : (tasksystem t a).taskrunning = a.taskrunning ∧
      (tasksystem t a).control = a.control := by
    unfold tasksystem
    split <;> exact ⟨rfl, rfl⟩
  have hres : (tasksystem t a).Resuming t .taskstart :=
    ⟨hrun.1.trans ht.1, hrun.2.trans ht.2.1, hsys.1.trans ht.2.2⟩
  exact finish_switched ((Walk.one (.tasksystem (.inr ⟨ht, hf⟩))).tail
    (.fd (.fdyield (.inl ⟨hres, hsys.2.trans hf⟩))))
    (sim_fdtaskYield (h.tasksystem t) (hI.tasksystem t) (hI.resuming ht) (.inr rfl))

theorem walks_fdcall (h : Sim s a) (hI : Inv a pl) (ht : a.User t) :
    Walks (some .fdtask) a (finish t s (.ok (fdtask t s, .switched))) := by
  have hn : (tasksystem t a).tasknswitch = a.tasknswitch := by
    unfold tasksystem
    split <;> rfl
  have hsim := sim_fdtaskYield (h.tasksystem t) (hI.tasksystem t) (hI.user ht) (.inl rfl)
  rw [hn] at hsim
  exact finish_switched (.call (.fd (.fdcall ht))) hsim

/-- A walk of the poller from `a`, still in its pass. -/
structure Polling (t : TaskPtr) (n : BitVec 32) (a : Sys Queues) (s : Sys Links) (b : Sys Queues)
    (pl : Placement) : Prop where
  walk : Walk none a b
  sim : Sim s b
  inv : Inv b pl
  resuming : b.Resuming t (.fdtask n)

theorem Polling.move {s s' : Sys Links} {b c : Sys Queues} {pl pl' : Placement}
    (h : Polling t n a s b pl) (m : Move none b c) (hs : Sim s' c) (hI : Inv c pl')
    (hr : c.taskrunning = b.taskrunning ∧ c.control = b.control ∧
      (c.task t).context = (b.task t).context) : Polling t n a s' c pl' where
  walk := h.walk.tail m
  sim := hs
  inv := hI
  resuming := ⟨hr.1.trans h.resuming.1, hr.2.1.trans h.resuming.2.1, hr.2.2.trans h.resuming.2.2⟩

/-- The same tasks sleep, until the same times. -/
structure SameSleepers (a b : Sys Queues) : Prop where
  sleeping : b.links .sleeping = a.links .sleeping
  alarmtime : ∀ u, (b.task u).alarmtime = (a.task u).alarmtime

theorem SameSleepers.refl (a : Sys Queues) : SameSleepers a a := ⟨rfl, fun _ => rfl⟩

theorem SameSleepers.trans {a b c : Sys Queues} (h : SameSleepers a b) (h' : SameSleepers b c) :
    SameSleepers a c :=
  ⟨h'.sleeping.trans h.sleeping, fun u => (h'.alarmtime u).trans (h.alarmtime u)⟩

theorem SameSleepers.of_aside {a b : Sys Queues} (h : Aside a b) : SameSleepers a b :=
  ⟨h.sleeping, h.alarmtime⟩

/-- A descriptor's task is made ready and its slot taken out of the poll table. -/
theorem Polling.pollwake {b : Sys Queues} {i : ℕ} (h : Polling t n a s b pl) (hi : i < b.npollfd)
    (hr : (b.pollfd i).revents ≠ 0) : ∃ pl', Polling t n a
      ((taskready (s.polltask i) s).pollRemove i) ((b.ready (b.polltask i)).pollRemove i) pl' := by
  have hu : pl (b.polltask i) = some .poll := h.inv.placed.mem_poll.mp
    (List.mem_map.mpr ⟨i, List.mem_range.mpr hi, rfl⟩)
  have hsim : Sim ((taskready (s.polltask i) s).pollRemove i)
      ((b.ready (b.polltask i)).pollRemove i) := by
    have hp : s.polltask = b.polltask := by
      obtain ⟨q, hq, hb⟩ := h.sim
      rw [hb]
      rfl
    obtain ⟨q, hq, hb⟩ := h.sim.taskready (h.inv.not_mem hu (by simp))
    rw [hp, hb]
    exact ⟨q, hq, rfl⟩
  exact ⟨_, h.move (.fd (.pollwake h.resuming hi hr)) hsim (h.inv.pollwake hi)
    ⟨rfl, rfl, Inv.ready_context _ _ _⟩⟩

theorem Polling.pollWakeSlot {b : Sys Queues} (h : Polling t n a s b pl) (fuel i : ℕ) :
    ∃ b' pl', Polling t n a (pollWakeSlot i fuel s) b' pl' ∧ SameSleepers b b' := by
  induction fuel generalizing s b pl with
  | zero => exact ⟨b, pl, h, .refl b⟩
  | succ fuel ih =>
    unfold Libtask.pollWakeSlot
    split
    · rename_i hi
      have hb : s.npollfd = b.npollfd ∧ s.pollfd = b.pollfd := by
        obtain ⟨q, hq, hb⟩ := h.sim
        rw [hb]
        exact ⟨rfl, rfl⟩
      rw [hb.1, hb.2] at hi
      obtain ⟨pl', h'⟩ := h.pollwake hi.1 hi.2
      have hready : SameSleepers b (b.ready (b.polltask i)) := .of_aside (.ready b _)
      have hone : SameSleepers b ((b.ready (b.polltask i)).pollRemove i) :=
        ⟨hready.sleeping, hready.alarmtime⟩
      obtain ⟨b', pl'', h'', hsame⟩ := ih h'
      exact ⟨b', pl'', h'', hone.trans hsame⟩
    · exact ⟨b, pl, h, .refl b⟩

theorem Polling.pollWake {b : Sys Queues} (h : Polling t n a s b pl) (fuel i : ℕ) :
    ∃ b' pl', Polling t n a (pollWake fuel i s) b' pl' ∧ SameSleepers b b' := by
  induction fuel generalizing s b pl i with
  | zero => exact ⟨b, pl, h, .refl b⟩
  | succ fuel ih =>
    unfold Libtask.pollWake
    split
    · obtain ⟨b', pl', h', hslot⟩ := h.pollWakeSlot s.npollfd i
      obtain ⟨b'', pl'', h'', hrest⟩ := ih h' (i + 1)
      exact ⟨b'', pl'', h'', hslot.trans hrest⟩
    · exact ⟨b, pl, h, .refl b⟩

theorem JustRead.ready {now : UInt64} {log : List Event} (h : JustRead now log) (u : TaskPtr) :
    JustRead now (.ready u :: log) := by
  obtain ⟨new, old, rfl, hnew⟩ := h
  refine ⟨.ready u :: new, old, rfl, fun e he => ?_⟩
  rcases List.mem_cons.mp he with rfl | he
  · exact ⟨u, rfl⟩
  · exact hnew e he

/-- What the loop over the sleepers `us` does: those at the front of the list that are due are made
ready, in its order. -/
structure Expired (now : UInt64) (us : List TaskPtr) (b b' : Sys Queues) : Prop where
  sleeping : b'.links .sleeping = us.dropWhile fun u => (b.task u).alarmtime ≤ now
  alarmtime : ∀ u, (b'.task u).alarmtime = (b.task u).alarmtime
  log : b'.log = ((us.takeWhile fun u => (b.task u).alarmtime ≤ now).map Event.ready).reverse ++
    b.log

theorem Expired.refl {now : UInt64} {us : List TaskPtr} {b : Sys Queues}
    (hq : b.links .sleeping = us) (hd : ∀ u, us.head? = some u → ¬(b.task u).alarmtime ≤ now) :
    Expired now us b b := by
  cases us with
  | nil => exact ⟨hq, fun _ => rfl, rfl⟩
  | cons u us =>
    have hu := hd u rfl
    exact ⟨by simp [hu, hq], fun _ => rfl, by simp [hu]⟩

theorem Expired.cons {now : UInt64} {u : TaskPtr} {us : List TaskPtr} {b b' : Sys Queues}
    (hd : (b.task u).alarmtime ≤ now)
    (h : Expired now us ((b.uncountSleeper u).wake .sleeping u) b') :
        Expired now (u :: us) b b' := by
  have halarm : ∀ v, (((b.uncountSleeper u).wake .sleeping u).task v).alarmtime =
      (b.task v).alarmtime := (Aside.ready _ u).alarmtime
  have hlog : ((b.uncountSleeper u).wake .sleeping u).log = .ready u :: b.log := rfl
  constructor
  case sleeping =>
    rw [h.sleeping]
    simp [halarm, hd]
  case alarmtime => exact fun v => (h.alarmtime v).trans (halarm v)
  case log =>
    rw [h.log, hlog]
    simp [halarm, hd]

theorem timerWake_due {now : UInt64} {u : TaskPtr} (hu : head .sleeping s = some u)
    (hd : now ≥ (s.task u).alarmtime) (fuel : ℕ) : timerWake now (fuel + 1) s =
      timerWake now fuel (taskready u (deltask .sleeping u (s.uncountSleeper u))) := by
  have hcomm : (if ((deltask .sleeping u s).task u).system then deltask .sleeping u s
      else if (deltask .sleeping u s).sleepingcounted - 1 = 0 then
        { deltask .sleeping u s with
          sleepingcounted := (deltask .sleeping u s).sleepingcounted - 1
          taskcount := (deltask .sleeping u s).taskcount - 1 }
      else { deltask .sleeping u s with
        sleepingcounted := (deltask .sleeping u s).sleepingcounted - 1 }) =
      deltask .sleeping u (s.uncountSleeper u) :=
    uncountSleeper_eq (deltask .sleeping u s) u
  rw [← hcomm]
  simp only [timerWake, hu, if_pos hd]

/-- The loop over the sleepers ends: each turn takes one off their list. -/
theorem Polling.timerWake {b : Sys Queues} {us : List TaskPtr} {fuel : ℕ}
    (h : Polling t n a s b pl) (now : UInt64) (hj : JustRead now b.log)
    (hq : b.links .sleeping = us) (hf : us.length < fuel) :
    ∃ s' b' pl', timerWake now fuel s = .ok s' ∧ Polling t n a s' b' pl' ∧ Expired now us b b' := by
  induction us generalizing s b pl fuel with
  | nil =>
    obtain ⟨fuel, rfl⟩ : ∃ n, fuel = n + 1 := ⟨fuel - 1, by simp at hf; omega⟩
    exact ⟨s, b, pl, by simp [Libtask.timerWake, h.sim.head, hq], h, .refl hq nofun⟩
  | cons u us ih =>
    obtain ⟨fuel, rfl⟩ : ∃ n, fuel = n + 1 := ⟨fuel - 1, by simp at hf; omega⟩
    have htask : s.task = b.task := by
      obtain ⟨q, hq, hb⟩ := h.sim
      rw [hb]
      rfl
    by_cases hd : now ≥ (b.task u).alarmtime
    · have hpu : pl u = some (.list .sleeping) := h.inv.placed.mem_list.mp (by simp [hq])
      have hw := (h.sim.uncountSleeper u).wake (k := .sleeping) hq
      have hinv : Inv ((b.uncountSleeper u).wake .sleeping u) (update pl u (some .runqueue)) :=
        h.inv.wake (by simp) hq (.same rfl rfl rfl rfl) rfl rfl rfl rfl rfl rfl rfl
          (h.inv.granted_sleeping hpu _)
      have hpoll := h.move (.fd (.timerwake now h.resuming hj hq hd)) hw hinv
        ⟨rfl, rfl, by rw [Sys.wake, Inv.ready_context]; rfl⟩
      obtain ⟨s', b', pl', hok, h', hexp⟩ := ih hpoll (hj.ready u)
        (by simp [Sys.wake, Sys.ready, Sys.enq, Sys.emit, Sys.setTask, Sys.deq,
        Sys.uncountSleeper, hq])
        (by simpa using hf)
      refine ⟨s', b', pl', ?_, h', hexp.cons hd⟩
      rw [← hok]
      apply timerWake_due
      · rw [h.sim.head, hq, List.head?_cons]
      · rwa [htask]
    · have hnot : ∀ v, (u :: us).head? = some v → ¬(b.task v).alarmtime ≤ now := by
        intro v hv
        obtain rfl : u = v := Option.some.inj hv
        exact hd
      exact ⟨s, b, pl, by simp [Libtask.timerWake, h.sim.head, hq, htask, hd], h, .refl hq hnot⟩

/-- The pass of `fdtask` between its two clock readings, `poll` having reported `revents`. -/
def polled (e : Env) (revents : ℕ → ℕ) (s : Sys Links) : Sys Links :=
  (pollWake s.npollfd 0 { s with pollfd := fun i =>
    if i < s.npollfd then { s.pollfd i with revents := revents i } else s.pollfd i }).emit
      (.pollout e.nsec₂)

theorem fdtaskPass_done {revents : ℕ → ℕ} (hp : e.poll = .done revents) :
    fdtaskPass e t s =
      let s := polled e revents (s.emit (.poll e.nsec₁ (pollms e.nsec₁ (head .sleeping s) s)))
      (timerWake e.nsec₂ (s.live.card + 1) s).map fun s => (fdtaskYield t s, .switched) := by
  simp only [fdtaskPass, hp]
  rfl

theorem Polling.polled {b : Sys Queues} (h : Polling t n a s b pl) (revents : ℕ → ℕ) :
    ∃ b' pl', Polling t n a (polled e revents s) b' pl' ∧ SameSleepers b b' ∧
      JustRead e.nsec₂ b'.log := by
  have hsim : Sim { s with pollfd := fun i =>
        if i < s.npollfd then { s.pollfd i with revents := revents i } else s.pollfd i }
      { b with pollfd := fun i =>
        if i < b.npollfd then { b.pollfd i with revents := revents i } else b.pollfd i } := by
    obtain ⟨q, hq, hb⟩ := h.sim
    rw [hb]
    exact ⟨q, hq, rfl⟩
  have hrev := h.move (.fd (.revents revents h.resuming)) hsim
    (h.inv.quiet (.same rfl rfl rfl rfl) rfl rfl rfl rfl (fun _ => rfl)
      (h.inv.onCpu.congr rfl rfl)) ⟨rfl, rfl, rfl⟩
  obtain ⟨b', pl', h', hsame⟩ := hrev.pollWake s.npollfd 0
  have hout := h'.move (.note (.pollout e.nsec₂) rfl) (h'.sim.emit _) (h'.inv.emit rfl fun _ => rfl)
    ⟨rfl, rfl, rfl⟩
  exact ⟨_, pl', hout, ⟨hsame.sleeping, hsame.alarmtime⟩, [], b'.log, rfl, by simp⟩

theorem pollms_sim (h : Sim s a) (now : UInt64) :
    pollms now (head .sleeping s) s = pollms now (a.links .sleeping).head? a := by
  rw [h.head]
  obtain ⟨q, hq, rfl⟩ := h
  rfl

/-- `fdtask` calls `poll`. -/
def atPoll (e : Env) (s : Sys Links) : Sys Links :=
  s.emit (.poll e.nsec₁ (pollms e.nsec₁ (head .sleeping s) s))

theorem polling_atPoll (h : Sim s a) (hI : Inv a pl) (ht : a.Resuming t (.fdtask n))
    (hn : ¬0 < (taskyieldResult n a).toInt) :
    Polling t n a (atPoll e s) (a.emit (.poll e.nsec₁ (pollms e.nsec₁ (a.links .sleeping).head? a)))
      pl := by
  have hstart : Polling t n a s a pl := ⟨.refl _ a, h, hI, ht⟩
  unfold atPoll
  rw [pollms_sim h]
  exact hstart.move (.fd (.poll e.nsec₁ ht hn)) (h.emit _)
    (hI.emit rfl fun _ => rfl) ⟨rfl, rfl, rfl⟩

/-- A pass in which `poll` reports `revents` wakes the sleepers that are due and yields. -/
theorem fdtaskPass_expires {revents : ℕ → ℕ} (hp : e.poll = .done revents) (h : Sim s a)
    (hI : Inv a pl) (ht : a.Resuming t (.fdtask n)) (hn : ¬0 < (taskyieldResult n a).toInt) :
    ∃ b₁ s₂ b₂ pl₂, fdtaskPass e t s = .ok (fdtaskYield t s₂, .switched) ∧
      Sim (polled e revents (atPoll e s)) b₁ ∧ SameSleepers a b₁ ∧ Polling t n a s₂ b₂ pl₂ ∧
      Expired e.nsec₂ (a.links .sleeping) b₁ b₂ := by
  obtain ⟨b₁, pl₁, hout, hsame, hread⟩ :=
    (polling_atPoll (e := e) h hI ht hn).polled (e := e) revents
  obtain ⟨s₂, b₂, pl₂, hok, htimer, hexp⟩ := hout.timerWake e.nsec₂ hread hsame.sleeping
    (hsame.sleeping ▸ hout.sim.live ▸ Nat.lt_succ_of_le (hout.inv.length_le .sleeping))
  refine ⟨b₁, s₂, b₂, pl₂, ?_, hout.sim, ⟨hsame.sleeping, hsame.alarmtime⟩, htimer, hexp⟩
  rw [fdtaskPass_done hp]
  exact congrArg (Except.map fun s => (fdtaskYield t s, Return.switched)) hok

theorem walks_fdtaskPass (h : Sim s a) (hI : Inv a pl) (ht : a.Resuming t (.fdtask n))
    (hn : ¬0 < (taskyieldResult n a).toInt) : Walks none a (finish t s (fdtaskPass e t s)) := by
  have hyield : ∀ {s' : Sys Links} {b : Sys Queues} {pl' : Placement}, Polling t n a s' b pl' →
      Walks none a (finish t s (.ok (fdtaskYield t s', .switched))) := fun hp =>
    finish_switched (hp.walk.tail (.fd (.fdyield (.inr ⟨n, hp.resuming⟩))))
      (sim_fdtaskYield hp.sim hp.inv (hp.inv.resuming hp.resuming) (.inr rfl))
  cases hp : e.poll with
  | eintr =>
    simp only [fdtaskPass, hp]
    exact hyield (polling_atPoll h hI ht hn)
  | fail =>
    simp only [fdtaskPass, hp]
    exact finish_error (.one (.exitall 0 (.inr ⟨n, ht⟩))) h
  | done revents =>
    obtain ⟨_, _, _, _, hok, _, _, htimer, _⟩ := fdtaskPass_expires hp h hI ht hn
    rw [hok]
    exact hyield htimer

theorem walks_fdtaskBack (h : Sim s a) (hI : Inv a pl) (ht : a.Resuming t (.fdtask n)) :
    Walks none a (finish t s (fdtaskBack e n t s)) := by
  have hn : taskyieldResult n s = taskyieldResult n a := by
    obtain ⟨q, hq, rfl⟩ := h
    rfl
  unfold fdtaskBack
  rw [hn]
  split
  · exact finish_switched (.one (.fd (.fdyield (.inr ⟨n, ht⟩))))
      (sim_fdtaskYield h hI (hI.resuming ht) (.inr rfl))
  · rename_i hpos
    exact walks_fdtaskPass h hI ht hpos

end Poller
end Libtask
