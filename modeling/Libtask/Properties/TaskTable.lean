import Libtask.Abstract.Aside
import Libtask.Base.SlotTable
import Libtask.Properties.Placement

/-! The table of all tasks: each live task has one slot, and no write is outside the array. -/
namespace Libtask
open Function Runs SlotTable

/-- The table `alltask` with the slots the tasks know, `alltaskcap` being the number of slots
last asked for from `realloc`. -/
def Sys.table {σ : Type} (s : Sys σ) : Table TaskPtr where
  arr := s.alltask
  count := s.nalltask
  cap := s.alltaskcap
  slot t := (s.task t).alltaskslot

/-- All live tasks are aligned blocks. -/
def Aligned (a : Sys Queues) : Prop := ∀ t ∈ a.live, t % 4 = 0

section
variable {lab : Option Call} {a b : Sys Queues} {pl : Placement} {t p : TaskPtr}

theorem SameTasks.table (h : SameTasks a b) : b.table = a.table := by
  simp only [Sys.table, h.alltask, h.nalltask, h.alltaskcap, h.alltaskslot]

theorem FdMove.sameTasks (m : FdMove lab a b) : SameTasks a b := by
  have hctx : ∀ (a b : Sys Queues) (x : Context) (t : TaskPtr), SameTasks a b →
      SameTasks a (b.switch x t) := by
    intro a b x t hab
    have hset : SameTasks b (b.setTask t fun y => { y with context := x }) :=
      .setTask (fun _ => rfl) fun _ => rfl
    exact (hab.trans hset).trans (.of_eq rfl rfl rfl rfl rfl)
  cases m with
  | fdcall =>
    apply hctx
    exact ((Aside.tasksystem a _).trans (.ready _ _)).toSameTasks
  | fdyield =>
    apply hctx
    exact (Aside.ready a _).toSameTasks
  | @taskdelay _ t now ms =>
    apply hctx
    have hset : SameTasks a (a.setTask t fun x =>
        { x with alarmtime := now + ms.toUInt64 * 1000000 }) := .setTask (fun _ => rfl) fun _ => rfl
    exact hset.trans (.of_eq rfl rfl rfl rfl rfl)
  | fdwait =>
    apply hctx
    exact .of_eq rfl rfl rfl rfl rfl
  | poll | revents => exact .of_eq rfl rfl rfl rfl rfl
  | pollwake => exact (Aside.ready a _).toSameTasks.trans (.of_eq rfl rfl rfl rfl rfl)
  | @timerwake _ _ u =>
    have hcount : SameTasks a ((a.uncountSleeper u).deq .sleeping) := .of_eq rfl rfl rfl rfl rfl
    exact hcount.trans (Aside.ready _ u).toSameTasks

theorem table_create (a : Sys Queues) (fn : Startfn) (p : TaskPtr) :
    (a.create fn p).table = a.table.push 64 p := by
  have hslot : (fun t => ((a.create fn p).task t).alltaskslot) =
      update (fun t => (a.task t).alltaskslot) p a.nalltask := by
    funext u
    by_cases hu : u = p <;>
      simp [Sys.create, Sys.ready, Sys.enq, Sys.emit, Sys.setTask, hu]
  unfold Sys.table Table.push Table.grown
  rw [hslot]
  rfl

theorem table_taskfree {σ : Type} (s : Sys σ) (t : TaskPtr) :
    (taskfree t s).table = s.table.remove t := by
  have hslot : ∀ u, ((taskfree t s).task u).alltaskslot =
      update (fun v => (s.task v).alltaskslot) (s.alltask (s.nalltask - 1))
        (s.task t).alltaskslot u := by
    intro u
    unfold taskfree
    by_cases hu : u = s.alltask (s.nalltask - 1) <;> by_cases hs : (s.task t).system <;>
      simp [Sys.emit, Sys.setTask, hu, hs]
  unfold Sys.table Table.remove
  simp only [hslot, Table.mk.injEq, and_true]
  unfold taskfree
  by_cases hs : (s.task t).system <;> simp [Sys.emit, Sys.setTask, hs]

theorem table_taskexit {σ : Type} (s : Sys σ) (v : ℤ) (t : TaskPtr) :
    (taskexit v t s).table = s.table.remove t := by
  have hslot : ∀ (c : Context) (u : TaskPtr),
      (update s.task t { s.task t with exiting := true, context := c } u).alltaskslot =
        (s.task u).alltaskslot := by
    intro c u
    by_cases hu : u = t <;> simp [hu]
  unfold taskexit taskswitch
  simp only [Sys.setTask, update_self, update_idem, if_true, table_taskfree]
  simp only [Sys.table, hslot]

theorem Move.table (hI : Inv a pl) (h : Holds 64 a.live a.table) (m : Move lab a b) :
    Holds 64 b.live b.table := by
  rcases m.aside_or hI with hs | m | m
  · rw [hs.live, hs.toSameTasks.table]
    exact h
  · cases m with
    | create fn _ _ _ hp =>
      rw [table_create]
      exact h.push (by omega) hp
    | startfd _ _ _ hp =>
      rw [table_create]
      exact h.push (by omega) hp
    | @taskexit _ t v ht =>
      have hlive : (taskexit v t a).live = a.live.erase t := by
        rw [taskexit_eq]
        rfl
      rw [table_taskexit, hlive]
      exact h.remove (hI.mem_live (hI.user ht))
  · rw [m.sameTasks.live, m.sameTasks.table]
    exact h

theorem ReachedBy.table {ok : Sys Queues → Call → Prop} (h : ReachedBy ok a) :
    Holds 64 a.live a.table := by
  induction h using Reach.induct with
  | init h =>
    obtain ⟨P, rfl⟩ := h
    unfold Program.start
    rw [table_create]
    have hempty : Holds 64 P.empty.live P.empty.table := holds_empty rfl (by simp [Sys.table,
      Program.empty, Program.globals, Sys.withLinks])
    exact hempty.push (by omega) (by simp [Program.empty, Program.globals, Sys.withLinks])
  | step h hs ih =>
    obtain ⟨pl, hI⟩ := ReachedBy.inv h
    obtain ⟨_, m, _⟩ := hs
    exact m.table hI ih

/-- There are fewer aligned blocks besides one than 2^30. -/
theorem length_lt_of_aligned {ts : List TaskPtr} (hnd : (t :: ts).Nodup)
    (h : ∀ u ∈ t :: ts, u % 4 = 0) : ts.length < 2 ^ 30 := by
  have hquarter : ∀ u ∈ t :: ts, u.toNat / 4 ∈ Finset.range (2 ^ 30) := by
    intro u hu
    have hlt := u.toNat_lt
    rw [Finset.mem_range]
    omega
  have hinj : ∀ u ∈ t :: ts, ∀ v ∈ t :: ts, u.toNat / 4 = v.toNat / 4 → u = v := by
    intro u hu v hv huv
    have hu4 : u.toNat % 4 = 0 := congrArg UInt32.toNat (h u hu)
    have hv4 : v.toNat % 4 = 0 := congrArg UInt32.toNat (h v hv)
    exact UInt32.toNat_inj.mp (by omega)
  have hmap : ((t :: ts).map fun u => u.toNat / 4).Nodup := List.Nodup.map_on hinj hnd
  have hsub : ((t :: ts).map fun u => u.toNat / 4).toFinset ⊆ Finset.range (2 ^ 30) := by
    intro k hk
    obtain ⟨u, hu, rfl⟩ := List.mem_map.mp (List.mem_toFinset.mp hk)
    exact hquarter u hu
  have hcard := Finset.card_le_card hsub
  rw [List.toFinset_card_of_nodup hmap, Finset.card_range, List.length_map,
    List.length_cons] at hcard
  omega

theorem Move.aligned (hI : Inv a pl) (h : Aligned a) (m : Move lab a b) : Aligned b := by
  rcases m.aside_or hI with hs | m | m
  · intro t ht
    exact h t (hs.live ▸ ht)
  · cases m with
    | create fn _ _ h4 | startfd _ _ h4 =>
      intro t ht
      rcases Finset.mem_insert.mp ht with rfl | ht
      · exact h4
      · exact h t ht
    | taskexit v =>
      intro t ht
      rw [taskexit_eq] at ht
      exact h t (Finset.mem_of_mem_erase ht)
  · intro t ht
    exact h t (m.sameTasks.live ▸ ht)

theorem ReachedBy.aligned {ok : Sys Queues → Call → Prop} (h : ReachedBy ok a) : Aligned a := by
  induction h using Reach.induct with
  | init h =>
    obtain ⟨P, rfl⟩ := h
    intro t ht
    have htm : t = P.taskmain := by
      simpa [Program.start, Sys.create, Sys.ready, Sys.enq, Sys.emit, Sys.setTask, Program.empty,
        Program.globals, Sys.withLinks] using ht
    rw [htm]
    exact P.taskmain_aligned
  | step h hs ih =>
    obtain ⟨pl, hI⟩ := ReachedBy.inv h
    obtain ⟨_, m, _⟩ := hs
    exact m.aligned hI ih

end

/-- The table of `s` is in order, and so are the writes that a creation or an exit does to it
in a state with the same table. -/
structure TaskTable (s : Sys Links) : Prop where
  indexed : ∀ i < s.nalltask, (s.task (s.alltask i)).alltaskslot = i
  live : ∀ i < s.nalltask, s.alltask i ∈ s.live
  once : ∀ t ∈ s.live, ∃! i, i < s.nalltask ∧ s.alltask i = t
  create : ∀ fn p s₀ s', s₀.table = s.table → taskcreate fn p s₀ = .ok s' →
    s'.alltask = update s.alltask s.nalltask p ∧ s.nalltask < s'.alltaskcap
  exit : ∀ t ∈ s.live, ∀ s₀ : Sys Links, s₀.table = s.table →
    (taskfree t s₀).alltask =
      update s.alltask (s.task t).alltaskslot (s.alltask (s.nalltask - 1)) ∧
    (taskfree t s₀).alltaskcap = s.alltaskcap ∧ (s.task t).alltaskslot < s.alltaskcap ∧
    s.nalltask - 1 < s.alltaskcap

section
variable {s s' : Sys Links} {fn : Startfn} {p : TaskPtr}

theorem table_taskcreate (h : taskcreate fn p s = .ok s') : s'.table = s.table.push 64 p := by
  unfold taskcreate taskalloc at h
  split at h
  · cases h
  · simp only [bind, Except.bind, pure, Except.pure, Except.ok.injEq] at h
    subst h
    have hslot : ∀ (x : Task) (u : TaskPtr), x.alltaskslot = s.nalltask →
        (update s.task p x u).alltaskslot =
        update (fun v => (s.task v).alltaskslot) p s.nalltask u := by
      intro x u hx
      by_cases hu : u = p <;> simp [hu, hx]
    by_cases hn : s.nalltask % 64 = 0 <;>
      simp [Sys.table, Table.push, Table.grown, taskready, Sys.emit,
      Sys.setTask, addtask, hn, hslot]

end

/-- The table of tasks is in order in every state of every run. -/
theorem task_table {s : Sys Links} (h : Reachable s) : TaskTable s := by
  obtain ⟨a, pl, ha, _, hsim⟩ := h.sim
  have hT : Holds 64 s.live s.table := by
    obtain ⟨q, _, rfl⟩ := hsim
    exact ha.table
  constructor
  case indexed => exact hT.indexed
  case live =>
    intro i hi
    exact (hT.mem _).mpr ⟨i, hi, rfl⟩
  case once =>
    intro t ht
    obtain ⟨i, hi, hit⟩ := (hT.mem t).mp ht
    refine ⟨i, ⟨hi, hit⟩, ?_⟩
    intro j ⟨hj, hjt⟩
    exact hT.injective hj hi (hjt.trans hit.symm)
  case create =>
    intro fn p s₀ s' htab hok
    have hpush := table_taskcreate hok
    rw [htab] at hpush
    have hroom : s.nalltask < s'.table.cap := by
      rw [hpush]
      exact hT.count_lt_grown (by omega)
    exact ⟨congrArg Table.arr hpush, hroom⟩
  case exit =>
    intro t ht s₀ htab
    have hrem := table_taskfree s₀ t
    rw [htab] at hrem
    have hslot : (s.task t).alltaskslot < s.nalltask := hT.slot_lt ht
    have hroom : s.nalltask ≤ s.alltaskcap := hT.room
    exact ⟨congrArg Table.arr hrem, congrArg Table.cap hrem, by omega, by omega⟩

/-- A task creates another one and exits. -/
def exitRun : List (Env × Action) :=
  [(.still 0, .schedule), (.still 0, .resume), (.still 8192, .call (.taskcreate .user)),
    (.still 0, .call (.taskexit 0))]

theorem task_table_small : ∃ s, Program.small.after (fun _ _ => True) exitRun = some s ∧
    s.nalltask = 1 ∧ s.alltask 0 = 8192 ∧ s.alltaskcap = 64 ∧ TaskTable s := by
  have hrun : (Program.small.after (fun _ _ => True) exitRun).map (fun s =>
      (s.nalltask, s.alltask 0, s.alltaskcap)) = some (1, 8192, 64) := by decide
  obtain ⟨s, hs, hstate⟩ := Option.map_eq_some_iff.mp hrun
  simp only [Prod.mk.injEq] at hstate
  obtain ⟨hn, hfirst, hcap⟩ := hstate
  exact ⟨s, hs, hn, hfirst, hcap, task_table (Program.reachableBy_after hs)⟩

end Libtask
