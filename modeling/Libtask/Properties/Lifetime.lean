import Libtask.Abstract.Locality
import Libtask.Properties.Placement

/-! The life of the program: `taskcount` and `sleepingcounted` count the tasks that keep it
alive, so that the scheduler exits when the last of them has gone, with its status. -/
namespace Libtask
open Function Runs

/-- The live tasks that are no system tasks. -/
def Sys.nonsystem {σ : Type} (a : Sys σ) : Finset TaskPtr :=
  a.live.filter fun t => (a.task t).system = false

/-- The two counters count the tasks that keep the program alive, `ts` being the sleepers. -/
structure Counts {σ : Type} (a : Sys σ) (ts : List TaskPtr) : Prop where
  sleeping : a.sleepingcounted = ts.countP fun t => !(a.task t).system
  tasks : a.taskcount = a.nonsystem.card + if 0 < a.sleepingcounted then 1 else 0

/-- Nothing changes that is counted. -/
structure SameCount (a b : Sys Queues) : Prop where
  live : b.live = a.live
  system : ∀ t, (b.task t).system = (a.task t).system
  sleepers : b.links .sleeping = a.links .sleeping
  sleeping : b.sleepingcounted = a.sleepingcounted
  tasks : b.taskcount = a.taskcount

section
variable {lab : Option Call} {a b c : Sys Queues} {pl : Placement} {t p : TaskPtr}

theorem SameCount.same (hlive : b.live = a.live) (htask : b.task = a.task)
    (hlinks : b.links = a.links) (hs : b.sleepingcounted = a.sleepingcounted)
    (hc : b.taskcount = a.taskcount) : SameCount a b :=
  ⟨hlive, fun _ => by rw [htask], by rw [hlinks], hs, hc⟩

theorem SameCount.trans (h : SameCount a b) (h' : SameCount b c) : SameCount a c :=
  ⟨h'.live.trans h.live, fun t => (h'.system t).trans (h.system t),
    h'.sleepers.trans h.sleepers, h'.sleeping.trans h.sleeping, h'.tasks.trans h.tasks⟩

theorem Counts.congr (ha : Counts a (a.links .sleeping)) (h : SameCount a b) :
    Counts b (b.links .sleeping) := by
  have hns : b.nonsystem = a.nonsystem := by simp only [Sys.nonsystem, h.live, h.system]
  constructor
  · rw [h.sleeping, h.sleepers, ha.sleeping]
    simp only [h.system]
  · rw [h.tasks, h.sleeping, hns, ha.tasks]

theorem SameCount.setTask (a : Sys Queues) (t : TaskPtr) {f : Task → Task}
    (hf : ∀ x, (f x).system = x.system) : SameCount a (a.setTask t f) := by
  refine ⟨rfl, fun u => ?_, rfl, rfl, rfl⟩
  by_cases hu : u = t
  · subst hu
    simp [Sys.setTask, hf]
  · simp [Sys.setTask, hu]

theorem SameCount.relink {k : TasklistRef} (ts : List TaskPtr) (hk : k ≠ .sleeping)
    (hb : b = { a with links := update a.links k ts }) : SameCount a b := by
  subst hb
  exact ⟨rfl, fun _ => rfl, update_of_ne hk.symm _ _, rfl, rfl⟩

theorem SameCount.ready (a : Sys Queues) (t : TaskPtr) : SameCount a (a.ready t) := by
  have hset : SameCount a (a.setTask t fun x => { x with ready := true }) :=
    .setTask a t fun _ => rfl
  refine (hset.trans ?_).trans (.relink (k := .taskrunqueue) _ (by simp) rfl)
  exact .same rfl rfl rfl rfl rfl

theorem SameCount.switch (h : SameCount a b) (x : Context) (t : TaskPtr) :
    SameCount a (b.switch x t) := by
  have hset : SameCount b (b.setTask t fun y => { y with context := x }) :=
    .setTask b t fun _ => rfl
  refine (h.trans hset).trans ?_
  exact .same rfl rfl rfl rfl rfl

theorem SameCount.readyOpt (a : Sys Queues) (u : Option TaskPtr) : SameCount a (a.readyOpt u) := by
  cases u with
  | none => exact .same rfl rfl rfl rfl rfl
  | some u => exact .ready a u

theorem ObjMove.sameCount (h : ObjMove a b) : SameCount a b := by
  refine h.lift (fun _ => .same rfl rfl rfl rfl rfl) (fun _ _ _ => .trans) (fun o a b hop => ?_)
    (fun _ => .same rfl rfl rfl rfl rfl) fun a x t _ _ => ?_
  · cases hop with
    | emit | setOwner | setReaders | setWriter => exact .same rfl rfl rfl rfl rfl
    | enq k t hk => exact .relink _ (by rintro rfl; cases hk) rfl
    | @wake k u us hk hq =>
      have hdeq : SameCount a (a.deq k) := .relink _ (by rintro rfl; cases hk) rfl
      exact hdeq.trans (.ready _ u)
  · refine .switch ?_ x t
    exact .same rfl rfl rfl rfl rfl

theorem Inv.sleeper_live (hI : Inv a pl) (ht : t ∈ a.links .sleeping) : t ∈ a.live :=
  hI.mem_live (hI.placed.mem_list.mp ht)

theorem Counts.create (h : Counts a (a.links .sleeping)) (hI : Inv a pl) (fn : Startfn)
    (hp : p ∉ a.live) : Counts (a.create fn p) ((a.create fn p).links .sleeping) := by
  have hsys : ∀ t, ((a.create fn p).task t).system = if t = p then false else
      (a.task t).system := by
    intro t
    by_cases ht : t = p
    · subst ht
      simp [Sys.create, Sys.ready, Sys.enq, Sys.emit, Sys.setTask]
    · simp [Sys.create, Sys.ready, Sys.enq, Sys.emit, Sys.setTask, ht]
  have hns : (a.create fn p).nonsystem = insert p a.nonsystem := by
    ext t
    simp only [Sys.nonsystem, hsys, Finset.mem_filter, Finset.mem_insert]
    rw [show (a.create fn p).live = insert p a.live from rfl, Finset.mem_insert]
    by_cases ht : t = p <;> simp [ht]
  have hcard : (a.create fn p).nonsystem.card = a.nonsystem.card + 1 := by
    rw [hns, Finset.card_insert_of_notMem]
    exact fun hm => hp (Finset.mem_filter.mp hm).1
  have hlinks : (a.create fn p).links .sleeping = a.links .sleeping := rfl
  have hcount : (a.create fn p).taskcount = a.taskcount + 1 := rfl
  have hsleep : (a.create fn p).sleepingcounted = a.sleepingcounted := rfl
  constructor
  · rw [hlinks, hsleep, h.sleeping]
    congr 1
    refine List.countP_congr fun t ht => ?_
    have htp : t ≠ p := by
      rintro rfl
      exact hp (hI.sleeper_live ht)
    simp [hsys, htp]
  · rw [hcount, hsleep, hcard, h.tasks]
    push_cast
    omega

theorem Counts.tasksystem (h : Counts a (a.links .sleeping)) (hl : t ∈ a.live)
    (ht : t ∉ a.links .sleeping) :
    Counts (tasksystem t a) ((Libtask.tasksystem t a).links .sleeping) := by
  unfold Libtask.tasksystem
  by_cases hs : (a.task t).system = true
  · rw [if_pos hs]
    exact h
  rw [if_neg hs]
  have hsys : ∀ u, ((a.setTask t fun x => { x with system := true }).task u).system =
      if u = t then true else (a.task u).system := by
    intro u
    by_cases hu : u = t
    · subst hu
      simp [Sys.setTask]
    · simp [Sys.setTask, hu]
  have hmem : t ∈ a.nonsystem := Finset.mem_filter.mpr ⟨hl, by simpa using hs⟩
  have hns : (a.setTask t fun x => { x with system := true }).nonsystem = a.nonsystem.erase t := by
    ext u
    simp only [Sys.nonsystem, hsys, Finset.mem_filter, Finset.mem_erase]
    by_cases hu : u = t <;> simp [hu, Sys.setTask]
  have hcard := Finset.card_erase_add_one hmem
  rw [← hns] at hcard
  constructor
  · refine h.sleeping.trans (congrArg _ (List.countP_congr fun u hu => ?_))
    have hut : u ≠ t := by
      rintro rfl
      exact ht hu
    simp [Sys.setTask, hut]
  · show a.taskcount - 1 = ((a.setTask t fun x => { x with system := true }).nonsystem.card : ℤ) +
      if 0 < a.sleepingcounted then 1 else 0
    rw [h.tasks]
    omega

theorem Counts.taskexit (h : Counts a (a.links .sleeping)) (hl : t ∈ a.live) (v : ℤ) :
    Counts (taskexit v t a) ((Libtask.taskexit v t a).links .sleeping) := by
  have hsys : ∀ u, ((Libtask.taskexit v t a).task u).system = (a.task u).system := by
    intro u
    rw [taskexit_eq]
    simp only [Sys.emit, update_apply]
    split <;> split <;> simp_all
  have hns : (Libtask.taskexit v t a).nonsystem =
      if (a.task t).system then a.nonsystem else a.nonsystem.erase t := by
    ext u
    simp only [Sys.nonsystem, hsys]
    rw [show (Libtask.taskexit v t a).live = a.live.erase t by rw [taskexit_eq]; rfl]
    by_cases hs : (a.task t).system = true
    · rw [if_pos hs]
      by_cases hu : u = t <;> simp [hu, hs]
    · rw [if_neg hs]
      simp [and_assoc]
  have hcount : (Libtask.taskexit v t a).taskcount =
      if (a.task t).system then a.taskcount else a.taskcount - 1 := by
    rw [taskexit_eq]
    rfl
  have hsleep : (Libtask.taskexit v t a).sleepingcounted = a.sleepingcounted := by
    rw [taskexit_eq]
    rfl
  have hlinks : (Libtask.taskexit v t a).links = a.links := by
    rw [taskexit_eq]
    rfl
  constructor
  · rw [hlinks, hsleep, h.sleeping]
    simp only [hsys]
  · rw [hcount, hsleep, hns, h.tasks]
    by_cases hs : (a.task t).system = true
    · simp [hs]
    · have hcard := Finset.card_erase_add_one
        (show t ∈ a.nonsystem from Finset.mem_filter.mpr ⟨hl, by simpa using hs⟩)
      rw [if_neg hs, if_neg hs]
      omega

theorem Counts.delay (h : Counts a (a.links .sleeping)) (deadline : UInt64) (t : TaskPtr) :
    Counts (a.delay deadline t) ((a.delay deadline t).links .sleeping) := by
  have hsys : ∀ u, ((a.delay deadline t).task u).system = (a.task u).system := by
    intro u
    by_cases hu : u = t
    · subst hu
      simp [Sys.delay, Sys.countSleeper, Sys.setTask]
    · simp [Sys.delay, Sys.countSleeper, Sys.setTask, hu]
  have hlinks : (a.delay deadline t).links .sleeping = a.insertSleeper deadline t := by
    simp [Sys.delay, Sys.countSleeper, Sys.setTask]
  have hns : (a.delay deadline t).nonsystem = a.nonsystem := by
    simp only [Sys.nonsystem, hsys]
    rfl
  have hcounted : (a.delay deadline t).sleepingcounted =
      if (a.task t).system then a.sleepingcounted else a.sleepingcounted + 1 := by
    simp [Sys.delay, Sys.countSleeper, Sys.setTask]
  have hcount : (a.delay deadline t).taskcount =
      if ¬(a.task t).system ∧ a.sleepingcounted + 1 = 1 then a.taskcount + 1 else a.taskcount := by
    simp [Sys.delay, Sys.countSleeper, Sys.setTask]
  have hinsert : (a.insertSleeper deadline t).countP (fun u => !(a.task u).system) =
      (a.links .sleeping).countP (fun u => !(a.task u).system) +
        if (a.task t).system then 0 else 1 := by
    have happ := congrArg (List.countP fun u => !(a.task u).system)
      (List.takeWhile_append_dropWhile (p := fun u => decide ((a.task u).alarmtime < deadline))
        (l := a.links .sleeping))
    rw [List.countP_append] at happ
    simp only [Sys.insertSleeper, List.countP_append, List.countP_cons]
    cases (a.task t).system <;> simp <;> omega
  have hnonneg : 0 ≤ a.sleepingcounted := by rw [h.sleeping]; exact Int.natCast_nonneg _
  constructor
  · rw [hcounted, hlinks]
    simp only [hsys]
    rw [hinsert, h.sleeping]
    cases (a.task t).system <;> simp
  · rw [hcount, hcounted, hns, h.tasks]
    cases (a.task t).system with
    | true => simp
    | false =>
      simp
      split_ifs <;> omega

theorem Counts.timerwake {us : List TaskPtr} (h : Counts a (a.links .sleeping))
    (hq : a.links .sleeping = t :: us) :
    Counts ((a.uncountSleeper t).wake .sleeping t)
      (((a.uncountSleeper t).wake .sleeping t).links .sleeping) := by
  have hsame : ∀ b : Sys Queues, b.task = a.task → ∀ u, ((b.wake .sleeping t).task u).system =
      (a.task u).system := by
    intro b hb u
    exact ((SameCount.ready (b.deq .sleeping) t).system u).trans
      (congrArg Task.system (congrFun hb u))
  have hsys := hsame (a.uncountSleeper t) rfl
  have hlinks : ((a.uncountSleeper t).wake .sleeping t).links .sleeping = us := by
    simp [Sys.wake, Sys.deq, Sys.ready, Sys.enq, Sys.emit, Sys.setTask, Sys.uncountSleeper, hq]
  have hns : ((a.uncountSleeper t).wake .sleeping t).nonsystem = a.nonsystem := by
    simp only [Sys.nonsystem, hsys]
    rfl
  have hcounted : ((a.uncountSleeper t).wake .sleeping t).sleepingcounted =
      if (a.task t).system then a.sleepingcounted else a.sleepingcounted - 1 := rfl
  have hcount : ((a.uncountSleeper t).wake .sleeping t).taskcount =
      if ¬(a.task t).system ∧ a.sleepingcounted - 1 = 0 then a.taskcount - 1 else a.taskcount := rfl
  have hsleep := h.sleeping
  rw [hq, List.countP_cons] at hsleep
  constructor
  · rw [hcounted, hlinks]
    simp only [hsys]
    rw [hsleep]
    cases (a.task t).system <;> simp
  · rw [hcount, hcounted, hns, h.tasks]
    cases hs : (a.task t).system with
    | true => simp
    | false =>
      simp [hs] at hsleep ⊢
      split_ifs <;> omega

theorem LifeMove.counts (hI : Inv a pl) (h : Counts a (a.links .sleeping)) (m : LifeMove lab a b) :
    Counts b (b.links .sleeping) := by
  cases m with
  | create fn _ _ _ hp => exact h.create hI fn hp
  | startfd _ _ _ hp _ =>
    have hsame : SameCount a { a with startedfdtask := true } := .same rfl rfl rfl rfl rfl
    exact (h.congr hsame).create hI.setStarted .fdtask hp
  | taskexit v ht => exact h.taskexit (hI.mem_live (hI.user ht)) v

theorem FdMove.counts (hI : Inv a pl) (h : Counts a (a.links .sleeping)) (m : FdMove lab a b) :
    Counts b (b.links .sleeping) := by
  cases m with
  | @fdcall _ t ht =>
    have hloc := hI.user ht
    have hsys := h.tasksystem (hI.mem_live hloc) (hI.off_lists hloc (.inl rfl) .sleeping)
    exact hsys.congr ((SameCount.ready _ t).switch _ _)
  | fdyield => exact h.congr ((SameCount.ready a _).switch _ _)
  | @taskdelay _ t now ms =>
    have hsw : SameCount (a.delay (now + ms.toUInt64 * 1000000) t)
        (((a.delay (now + ms.toUInt64 * 1000000) t).emit (.delay t now ms)).switch
          (.taskdelay now) t) := by
      refine .switch ?_ _ _
      exact .same rfl rfl rfl rfl rfl
    exact (h.delay _ t).congr hsw
  | fdwait =>
    refine h.congr (.switch ?_ _ _)
    exact .same rfl rfl rfl rfl rfl
  | poll | revents => exact h.congr (.same rfl rfl rfl rfl rfl)
  | @pollwake _ t _ i =>
    refine h.congr ((SameCount.ready a (a.polltask i)).trans ?_)
    exact .same rfl rfl rfl rfl rfl
  | timerwake now _ _ hq _ => exact h.timerwake hq

theorem Move.counts (hI : Inv a pl) (h : Counts a (a.links .sleeping)) (m : Move lab a b) :
    Counts b (b.links .sleeping) := by
  cases m with
  | queuing m => exact h.congr m.objMove.sameCount
  | rw m => exact h.congr m.objMove.sameCount
  | exit | stall | exitall | nomem | toomany | unowned | oops | unwritten |
    hasreaders | note | back |
      altback | altfail | write =>
    exact h.congr (.same rfl rfl rfl rfl rfl)
  | @dispatch _ t =>
    have hdeq : SameCount a (a.deq .taskrunqueue) := .relink _ (by simp) rfl
    have hset := hdeq.trans (.setTask _ t (f := fun x => { x with ready := false }) fun _ => rfl)
    refine h.congr (hset.trans ?_)
    exact .same rfl rfl rfl rfl rfl
  | life m => exact m.counts hI h
  | fd m => exact m.counts hI h
  | @tasksystem _ t ht =>
    have hcpu : ∃ loc, pl t = some loc ∧ loc.cpu :=
      (hI.onCpu.running t).mp (ht.elim (fun h => h.1) fun h => h.1.1)
    obtain ⟨loc, hloc, hcpu⟩ := hcpu
    exact h.tasksystem (hI.mem_live hloc) (hI.off_lists hloc hcpu .sleeping)
  | taskyield => exact h.congr ((SameCount.ready a _).switch _ _)
  | @altrun _ b t base i _ _ as u ht has hbase hi hx =>
    obtain ⟨c, evs, _, hb, _⟩ := hI.altrun_of_ok ht hbase hi hx
    have hrun : SameCount a b := by
      rw [hb]
      exact .same rfl rfl rfl rfl rfl
    refine h.congr ((hrun.trans (.readyOpt b u)).trans ?_)
    exact .same rfl rfl rfl rfl rfl
  | @altblock _ b t base _ as _ _ _ _ _ hq =>
    have hb : SameCount a b := by
      rw [altqueueAll_altenter hq]
      exact .same rfl rfl rfl rfl rfl
    exact h.congr (hb.switch _ _)

end

theorem ReachedBy.counts {ok : Sys Queues → Call → Prop} {a : Sys Queues} (h : ReachedBy ok a) :
    Counts a (a.links .sleeping) := by
  induction h using Reach.induct with
  | init h =>
    obtain ⟨P, rfl⟩ := h
    have hempty : Counts P.empty (P.empty.links .sleeping) := ⟨rfl, rfl⟩
    exact hempty.create P.inv_empty .user (by simp [Program.empty, Program.globals, Sys.withLinks])
  | step h hs ih =>
    obtain ⟨pl, hI⟩ := ReachedBy.inv h
    obtain ⟨_, m, _⟩ := hs
    exact m.counts hI ih

section
variable {s : Sys Links} {t : TaskPtr}

theorem Reachable.counts (h : Reachable s) :
    ∃ ts, WellLinked s.links .sleeping ts ∧ Counts s ts ∧ ∀ t ∈ ts, t ∈ s.live := by
  obtain ⟨_, pl, ha, hI, q, hq, rfl⟩ := h.sim
  have hcounts := ha.counts
  exact ⟨q .sleeping, wellLinked_of_isList (hq.isList .sleeping),
    ⟨hcounts.sleeping, hcounts.tasks⟩, fun _ ht => hI.sleeper_live ht⟩

theorem Counts.taskcount_eq_zero {ts : List TaskPtr} (h : Counts s ts)
    (hsys : ∀ t ∈ s.live, (s.task t).system = true) (hts : ∀ t ∈ ts, t ∈ s.live) :
    s.taskcount = 0 := by
  have hns : s.nonsystem = ∅ := by
    refine Finset.filter_eq_empty_iff.mpr fun t ht => ?_
    simp [hsys t ht]
  have hsleep : s.sleepingcounted = 0 := by
    rw [h.sleeping, List.countP_eq_zero.mpr fun t ht => ?_, Int.natCast_zero]
    simp [hsys t (hts t ht)]
  rw [h.tasks, hns, hsleep]
  rfl

theorem Counts.taskcount_pos {ts : List TaskPtr} (h : Counts s ts) (ht : t ∈ s.live)
    (hsys : (s.task t).system = false) : 0 < s.taskcount := by
  have hcard : 0 < s.nonsystem.card :=
    Finset.card_pos.mpr ⟨t, Finset.mem_filter.mpr ⟨ht, hsys⟩⟩
  rw [h.tasks]
  split <;> omega

/-- Without tasks to keep the program alive the scheduler exits. -/
theorem Reachable.scheduler_exits (h : Reachable s)
    (hsys : ∀ t ∈ s.live, (s.task t).system = true) :
    (taskscheduler s).control = .halted (.exit s.taskexitval) := by
  obtain ⟨ts, _, hcounts, hlive⟩ := h.counts
  rw [taskscheduler, if_pos (hcounts.taskcount_eq_zero hsys hlive)]

/-- The scheduler goes on as long as there is such a task, if only to find none ready. -/
theorem Reachable.scheduler_goes_on (h : Reachable s) (ht : t ∈ s.live)
    (hsys : (s.task t).system = false) : s.taskcount ≠ 0 ∧
      ((taskscheduler s).control = .resume ∨
        head .taskrunqueue s = none ∧ (taskscheduler s).control = .halted (.exit 1)) := by
  obtain ⟨ts, _, hcounts, _⟩ := h.counts
  have hne : s.taskcount ≠ 0 := (hcounts.taskcount_pos ht hsys).ne'
  refine ⟨hne, ?_⟩
  unfold taskscheduler
  rw [if_neg hne]
  cases hq : head .taskrunqueue s with
  | none => exact .inr ⟨rfl, rfl⟩
  | some u => exact .inl rfl

/-- The last task to keep the program alive exits with `v`, and so does the program. -/
theorem Reachable.exit_status {s' : Sys Links} {e : Env} {v : ℤ} (h : Reachable s)
    (ht : s.taskrunning = some t)
    (hsys : ∀ u ∈ s.live, u ≠ t → (s.task u).system = true)
    (hs : step (e, .call (.taskexit v)) s = some s') :
    s'.control = .scheduler ∧ (taskscheduler s').control = .halted (.exit v) := by
  have hs' : s' = taskexit v t s := by
    rcases step_cases hs with ⟨hact, _⟩ | ⟨_, hact, _⟩ | ⟨_, u, hact, hu, _, _, hfin⟩
    · cases hact
    · cases hact
    · cases hact
      rw [hfin, Option.some.inj (hu.symm.trans ht)]
      rfl
  have hexits := (h.snoc hs).scheduler_exits fun u hu => by
    rw [hs', taskexit_eq] at hu ⊢
    have hu' : u ∈ s.live.erase t := hu
    have hut := hsys u (Finset.mem_of_mem_erase hu') (Finset.ne_of_mem_erase hu')
    simp only [Sys.emit, update_apply]
    split <;> split <;> simp_all
  rw [hexits, hs', taskexit_eq]
  exact ⟨rfl, rfl⟩

end

/-- The counters of the scheduler are right, and so is when it exits and with what status. -/
structure LifetimeAccounted (s : Sys Links) : Prop where
  counts : ∃ ts, WellLinked s.links .sleeping ts ∧ Counts s ts
  exits : s.control = .scheduler → (∀ t ∈ s.live, (s.task t).system = true) →
    (taskscheduler s).control = .halted (.exit s.taskexitval)
  goes_on : s.control = .scheduler → ∀ t ∈ s.live, (s.task t).system = false →
    s.taskcount ≠ 0 ∧ ((taskscheduler s).control = .resume ∨
      head .taskrunqueue s = none ∧ (taskscheduler s).control = .halted (.exit 1))
  status : ∀ t e v s', s.taskrunning = some t → (s.task t).system = false →
    (∀ u ∈ s.live, u ≠ t → (s.task u).system = true) →
    step (e, .call (.taskexit v)) s = some s' →
      s'.control = .scheduler ∧ (taskscheduler s').control = .halted (.exit v)

/-- The program lives as long as a task that is no system task does, and exits with the status
of the last one. -/
theorem lifetime_accounting {s : Sys Links} (h : Reachable s) : LifetimeAccounted s where
  counts := by
    obtain ⟨ts, hts, hcounts, _⟩ := h.counts
    exact ⟨ts, hts, hcounts⟩
  exits _ hsys := h.scheduler_exits hsys
  goes_on _ _ ht hsys := h.scheduler_goes_on ht hsys
  status _ _ _ _ ht _ hsys hs := h.exit_status ht hsys hs

/-- The first task sleeps, and the poller that this starts has become a system task. -/
def delayRun : List (Env × Action) :=
  [(.still 0, .schedule), (.still 0, .resume), (.still 8192, .call (.taskdelay 5)),
    (.still 0, .schedule), (.still 0, .resume)]

theorem lifetime_accounting_small : ∃ s, Program.small.after (fun _ _ => True) delayRun = some s ∧
    s.taskcount = 2 ∧ s.sleepingcounted = 1 ∧ LifetimeAccounted s := by
  have hrun : (Program.small.after (fun _ _ => True) delayRun).map
      (fun s => (s.taskcount, s.sleepingcounted)) = some (2, 1) := by decide
  obtain ⟨s, hs, hcount⟩ := Option.map_eq_some_iff.mp hrun
  obtain ⟨hcount, hsleep⟩ := Prod.mk.inj hcount
  exact ⟨s, hs, hcount, hsleep, lifetime_accounting (Program.reachableBy_after hs)⟩

end Libtask
