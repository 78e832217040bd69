import Libtask.Abstract.Locality

/-! A task that does not run is left as it is: what the others do changes at most its ready
flag and its slot in the task table. -/
namespace Libtask
open Function

def SameTask (x y : Task) : Prop :=
  y = { x with ready := y.ready, alltaskslot := y.alltaskslot }

namespace SameTask
variable {x y z : Task}

theorem refl (x : Task) : SameTask x x := rfl

theorem trans (h : SameTask x y) (h' : SameTask y z) : SameTask x z := by
  unfold SameTask at *
  rw [h', h]

theorem context (h : SameTask x y) : y.context = x.context := by rw [h]

theorem alarmtime (h : SameTask x y) : y.alarmtime = x.alarmtime := by rw [h]

theorem startfn (h : SameTask x y) : y.startfn = x.startfn := by rw [h]

end SameTask

/-- From `a` to `b` the task `t` stays switched out where it is. -/
structure Stays (t : TaskPtr) (a b : Sys Queues) : Prop where
  live : t ∈ a.live → t ∈ b.live
  task : SameTask (a.task t) (b.task t)
  idle : a.taskrunning ≠ some t → b.taskrunning ≠ some t

namespace Stays
variable {a b c : Sys Queues} {t u : TaskPtr}

theorem trans (h : Stays t a b) (h' : Stays t b c) : Stays t a c where
  live ht := h'.live (h.live ht)
  task := h.task.trans h'.task
  idle ht := h'.idle (h.idle ht)

theorem same (hl : b.live = a.live) (ht : b.task = a.task) (hr : b.taskrunning = a.taskrunning) :
    Stays t a b where
  live h := by rwa [hl]
  task := by
    rw [ht]
    exact .refl _
  idle h := by rwa [hr]

theorem tweak {f : Task → Task} (hf : ∀ x, SameTask x (f x)) : Stays t a (a.setTask u f) where
  live h := h
  task := by
    by_cases htu : t = u
    · subst htu
      simpa [Sys.setTask] using hf (a.task t)
    · simpa [Sys.setTask, htu] using SameTask.refl (a.task t)
  idle h := h

theorem setTask (f : Task → Task) (hu : u ≠ t) : Stays t a (a.setTask u f) where
  live h := h
  task := by simpa [Sys.setTask, Ne.symm hu] using SameTask.refl (a.task t)
  idle h := h

theorem ready (a : Sys Queues) (u : TaskPtr) : Stays t a (a.ready u) :=
  (tweak (f := fun x => { x with ready := true }) fun _ => rfl).trans (same rfl rfl rfl)

theorem readyOpt (a : Sys Queues) (u : Option TaskPtr) : Stays t a (a.readyOpt u) := by
  cases u with
  | none => exact same rfl rfl rfl
  | some u => exact ready a u

theorem wake (a : Sys Queues) (k : TasklistRef) (u : TaskPtr) : Stays t a (a.wake k u) :=
  (same rfl rfl rfl : Stays t a (a.deq k)).trans (ready _ u)

theorem switch (h : Stays t a b) (x : Context) (hu : u ≠ t) : Stays t a (b.switch x u) where
  live ht := h.live ht
  task := (h.task).trans (setTask (a := b) (fun y => { y with context := x }) hu).task
  idle _ := by simp [Sys.switch]

theorem tasksystem (a : Sys Queues) (hu : u ≠ t) : Stays t a (tasksystem u a) := by
  unfold Libtask.tasksystem
  split
  · exact same rfl rfl rfl
  · exact (setTask (a := a) (fun x => { x with system := true }) hu).trans (same rfl rfl rfl)

theorem create (a : Sys Queues) (fn : Startfn) (hu : u ≠ t) : Stays t a (a.create fn u) := by
  refine Stays.trans ?_ (ready _ u)
  refine ⟨fun h => Finset.mem_insert_of_mem h, ?_, fun h => h⟩
  simpa [Ne.symm hu] using SameTask.refl (a.task t)

theorem taskexit (a : Sys Queues) (v : ℤ) (hu : u ≠ t) : Stays t a (taskexit v u a) := by
  rw [taskexit_eq]
  refine ⟨fun h => Finset.mem_erase.mpr ⟨Ne.symm hu, h⟩, ?_, by simp [Sys.emit]⟩
  simp only [Sys.emit, update_apply]
  split
  · rename_i h
    simp [← h, Ne.symm hu, SameTask]
  · simp [Ne.symm hu, SameTask]

end Stays

theorem LockOp.stays {o : Obj} {a b : Sys Queues} {t : TaskPtr} (h : LockOp o a b) :
    Stays t a b := by
  cases h with
  | emit | setOwner | setReaders | setWriter | enq => exact .same rfl rfl rfl
  | wake => exact .wake _ _ _

theorem ObjMove.stays {a b : Sys Queues} {t : TaskPtr} (h : ObjMove a b)
    (ht : a.taskrunning ≠ some t) : Stays t a b := by
  obtain ⟨c, hc, hb⟩ := h.ops
  have hac : Stays t a c := by
    clear hb
    induction hc with
    | refl => exact .same rfl rfl rfl
    | tail _ hs ih =>
      obtain ⟨o, hs⟩ := hs
      exact ih.trans hs.stays
  rcases hb with rfl | ⟨_, rfl⟩ | ⟨x, u, hu, _, rfl⟩
  · exact hac
  · exact hac.trans (.same rfl rfl rfl)
  · refine hac.switch x ?_
    rintro rfl
    exact ht hu

section
variable {lab : Option Call} {a b : Sys Queues} {pl : Placement} {t : TaskPtr}

theorem Sys.User.ne {u : TaskPtr} (h : a.User u) (ht : a.taskrunning ≠ some t) : u ≠ t := by
  rintro rfl
  exact ht h.1

theorem LifeMove.stays (m : LifeMove lab a b) (hl : t ∈ a.live) (ht : a.taskrunning ≠ some t) :
    Stays t a b := by
  cases m with
  | create fn _ _ _ hp => exact .create a fn (ne_of_mem_of_not_mem hl hp).symm
  | startfd _ _ _ hp =>
    have hset : Stays t a { a with startedfdtask := true } := .same rfl rfl rfl
    exact hset.trans (.create _ _ (ne_of_mem_of_not_mem hl hp).symm)
  | taskexit v hu => exact .taskexit a v (hu.ne ht)

theorem FdMove.stays (m : FdMove lab a b) (ht : a.taskrunning ≠ some t) : Stays t a b := by
  cases m with
  | fdcall hu => exact ((Stays.tasksystem a (hu.ne ht)).trans (.ready _ _)).switch _ (hu.ne ht)
  | @fdyield _ u hu =>
    refine (Stays.ready a _).switch _ ?_
    rintro rfl
    exact ht (hu.elim (fun h => h.1.1) fun ⟨_, h⟩ => h.1)
  | @taskdelay _ u now ms hu =>
    have hset := Stays.setTask (a := a)
      (fun x => { x with alarmtime := now + ms.toUInt64 * 1000000 }) (hu.ne ht)
    refine Stays.switch (b := (a.delay _ u).emit _) ?_ _ (hu.ne ht)
    exact hset.trans (.same rfl rfl rfl)
  | fdwait _ _ hu =>
    refine Stays.switch ?_ _ (hu.ne ht)
    exact .same rfl rfl rfl
  | poll | revents => exact .same rfl rfl rfl
  | pollwake => exact (Stays.ready a _).trans (.same rfl rfl rfl)
  | @timerwake _ _ u =>
    have hcount : Stays t a (a.uncountSleeper u) := .same rfl rfl rfl
    exact hcount.trans (.wake _ _ u)

/-- A move leaves a task that is switched out as it is, or dispatches it. -/
theorem Move.stays_or (hI : Inv a pl) (m : Move lab a b) (hl : t ∈ a.live)
    (ht : a.taskrunning ≠ some t) :
    Stays t a b ∨ a.control = .scheduler ∧ b = a.dispatch t := by
  cases m with
  | queuing m => exact .inl (m.objMove.stays ht)
  | rw m => exact .inl (m.objMove.stays ht)
  | exit | stall | exitall | nomem | toomany | unowned | oops | unwritten | hasreaders | note |
      back | altback | write => exact .inl (.same rfl rfl rfl)
  | @dispatch _ u _ hc _ hq =>
    by_cases hu : u = t
    · subst hu
      exact .inr ⟨hc, rfl⟩
    · left
      have hset := Stays.setTask (a := a.deq .taskrunqueue) (fun x => { x with ready := false }) hu
      exact ⟨hset.live, hset.task, fun _ h => hu (Option.some.inj h)⟩
  | life m => exact .inl (m.stays hl ht)
  | fd m => exact .inl (m.stays ht)
  | @tasksystem _ u hu =>
    left
    refine .tasksystem a ?_
    rintro rfl
    exact ht (hu.elim (fun h => h.1) fun h => h.1.1)
  | taskyield hu => exact .inl ((Stays.ready a _).switch _ (hu.ne ht))
  | @altrun _ b u base i _ _ as w hu _ hbase hi hx =>
    left
    obtain ⟨c, evs, _, hb, _⟩ := hI.altrun_of_ok hu hbase hi hx
    have hrun : Stays t a b := by
      rw [hb]
      exact .same rfl rfl rfl
    exact (hrun.trans (.readyOpt b w)).trans (.same rfl rfl rfl)
  | altfail => exact .inl (.same rfl rfl rfl)
  | @altblock _ b u base _ as hu _ _ _ _ hq =>
    left
    have hb : Stays t a b := by
      rw [altqueueAll_altenter hq]
      exact .same rfl rfl rfl
    exact hb.switch _ (hu.ne ht)

end
end Libtask
