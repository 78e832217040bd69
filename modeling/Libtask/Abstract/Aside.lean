import Libtask.Abstract.Others

/-! The moves that neither create nor end a task and are not the poller's: they leave the task
table, the timers and the poll table alone. -/
namespace Libtask
open Function

/-- The contexts of tasks that have not started yet and of tasks inside fd.c. -/
def Context.inFd : Context → Prop
  | .taskstart | .fdtask _ | .taskdelay _ | .fdwait => True
  | _ => False

/-- A task entered `taskdelay` or `fdwait`. -/
def Event.inFd : Event → Prop
  | .delay _ _ _ | .fdwait _ _ _ => True
  | _ => False

/-- The same tasks are live, in the same slots of the task table. -/
structure SameTasks (a b : Sys Queues) : Prop where
  live : b.live = a.live
  alltask : b.alltask = a.alltask
  nalltask : b.nalltask = a.nalltask
  alltaskcap : b.alltaskcap = a.alltaskcap
  alltaskslot : ∀ t, (b.task t).alltaskslot = (a.task t).alltaskslot
  startfn : ∀ t, (b.task t).startfn = (a.task t).startfn

namespace SameTasks
variable {a b c : Sys Queues} {t : TaskPtr}

theorem trans (h : SameTasks a b) (h' : SameTasks b c) : SameTasks a c where
  live := h'.live.trans h.live
  alltask := h'.alltask.trans h.alltask
  nalltask := h'.nalltask.trans h.nalltask
  alltaskcap := h'.alltaskcap.trans h.alltaskcap
  alltaskslot t := (h'.alltaskslot t).trans (h.alltaskslot t)
  startfn t := (h'.startfn t).trans (h.startfn t)

theorem setTask {f : Task → Task} (hf : ∀ x, (f x).alltaskslot = x.alltaskslot)
    (hf' : ∀ x, (f x).startfn = x.startfn) : SameTasks a (a.setTask t f) := by
  constructor
  case alltaskslot =>
    intro u
    by_cases hu : u = t <;> simp [Sys.setTask, hu, hf]
  case startfn =>
    intro u
    by_cases hu : u = t <;> simp [Sys.setTask, hu, hf']
  all_goals rfl

theorem of_eq (hl : b.live = a.live) (ht : b.task = a.task) (ha : b.alltask = a.alltask)
    (hn : b.nalltask = a.nalltask) (hc : b.alltaskcap = a.alltaskcap) : SameTasks a b := by
  constructor <;> simp [hl, ht, ha, hn, hc]

end SameTasks

/-- Tasks, timers and the poll table are as before, and no task went into fd.c. -/
structure Aside (a b : Sys Queues) : Prop extends SameTasks a b where
  sleeping : b.links .sleeping = a.links .sleeping
  alarmtime : ∀ t, (b.task t).alarmtime = (a.task t).alarmtime
  context : ∀ t, (b.task t).context = (a.task t).context ∨ ¬(b.task t).context.inFd
  npollfd : b.npollfd = a.npollfd
  pollfd : b.pollfd = a.pollfd
  polltask : b.polltask = a.polltask
  startedfdtask : b.startedfdtask = a.startedfdtask
  onCpu : ∀ t, a.taskrunning = some t → b.taskrunning = some t ∨ ¬(b.task t).context.inFd
  log : LogExt (fun e => ¬e.inFd) a b

namespace Aside
variable {a b c : Sys Queues} {k : TasklistRef} {t u : TaskPtr} {x : Context}

theorem trans (h : Aside a b) (h' : Aside b c) : Aside a c where
  toSameTasks := h.toSameTasks.trans h'.toSameTasks
  sleeping := h'.sleeping.trans h.sleeping
  alarmtime t := (h'.alarmtime t).trans (h.alarmtime t)
  context t := by
    rcases h'.context t with heq | hne
    · rw [heq]
      exact h.context t
    · exact .inr hne
  npollfd := h'.npollfd.trans h.npollfd
  pollfd := h'.pollfd.trans h.pollfd
  polltask := h'.polltask.trans h.polltask
  startedfdtask := h'.startedfdtask.trans h.startedfdtask
  onCpu t ht := by
    rcases h.onCpu t ht with ht | hne
    · exact h'.onCpu t ht
    · rcases h'.context t with heq | hne'
      · exact .inr (heq ▸ hne)
      · exact .inr hne'
  log := h.log.trans h'.log

theorem refl (a : Sys Queues) : Aside a a := by
  constructor
  case toSameTasks => exact .of_eq rfl rfl rfl rfl rfl
  case context => exact fun _ => .inl rfl
  case onCpu => exact fun _ => .inl
  case log => exact .same rfl
  all_goals intros; rfl

/-- A step that changes fields of which `Aside` does not speak, and logs nothing. -/
theorem same (hl : b.live = a.live) (ht : b.task = a.task) (hr : b.taskrunning = a.taskrunning)
    (hs : b.links .sleeping = a.links .sleeping) (hlog : b.log = a.log)
    (htab : (b.alltask, b.nalltask, b.alltaskcap) = (a.alltask, a.nalltask, a.alltaskcap))
    (hpoll : (b.npollfd, b.pollfd, b.polltask, b.startedfdtask) =
      (a.npollfd, a.pollfd, a.polltask, a.startedfdtask)) : Aside a b := by
  simp only [Prod.mk.injEq] at htab hpoll
  constructor
  case toSameTasks => exact .of_eq hl ht htab.1 htab.2.1 htab.2.2
  case sleeping => exact hs
  case alarmtime => simp [ht]
  case context => simp [ht]
  case npollfd => exact hpoll.1
  case pollfd => exact hpoll.2.1
  case polltask => exact hpoll.2.2.1
  case startedfdtask => exact hpoll.2.2.2
  case onCpu =>
    rw [hr]
    exact fun _ => .inl
  case log => exact .same hlog

theorem emit (a : Sys Queues) {e : Event} (he : ¬e.inFd) : Aside a (a.emit e) :=
  { refl a with log := .emit he rfl }

theorem setTask {f : Task → Task} (hslot : ∀ y, (f y).alltaskslot = y.alltaskslot)
    (hfn : ∀ y, (f y).startfn = y.startfn) (ha : ∀ y, (f y).alarmtime = y.alarmtime)
    (hc : ∀ y, (f y).context = y.context ∨ ¬(f y).context.inFd) : Aside a (a.setTask t f) := by
  constructor
  case toSameTasks => exact .setTask hslot hfn
  case alarmtime =>
    intro u
    by_cases hu : u = t <;> simp [Sys.setTask, hu, ha]
  case context =>
    intro u
    by_cases hu : u = t
    · subst hu
      simpa [Sys.setTask] using hc (a.task u)
    · simp [Sys.setTask, hu]
  case onCpu => exact fun _ => .inl
  case log => exact .same rfl
  all_goals rfl

theorem ready (a : Sys Queues) (t : TaskPtr) : Aside a (a.ready t) := by
  have hset : Aside a (a.setTask t fun x => { x with ready := true }) :=
    .setTask (fun _ => rfl) (fun _ => rfl) (fun _ => rfl) fun _ => .inl rfl
  have hemit := hset.trans (.emit _ (e := .ready t) (by simp [Event.inFd]))
  exact hemit.trans (.same rfl rfl rfl rfl rfl rfl rfl)

theorem readyOpt (a : Sys Queues) (u : Option TaskPtr) : Aside a (a.readyOpt u) := by
  cases u with
  | none => exact refl a
  | some t => exact ready a t

theorem relink (a : Sys Queues) (ts : List TaskPtr) (hk : k ≠ .sleeping) :
    Aside a { a with links := update a.links k ts } :=
  .same rfl rfl rfl (update_of_ne hk.symm _ _) rfl rfl rfl

theorem wake (a : Sys Queues) (hk : k ≠ .sleeping) (t : TaskPtr) : Aside a (a.wake k t) :=
  (relink a _ hk).trans (.ready _ t)

/-- The running task gives up the CPU outside fd.c. -/
theorem switch (h : Aside a b) (hx : ¬x.inFd) (hr : ∀ u, b.taskrunning = some u → u = t) :
    Aside a (b.switch x t) := by
  have hset : Aside b (b.setTask t fun y => { y with context := x }) :=
    .setTask (fun _ => rfl) (fun _ => rfl) (fun _ => rfl) fun _ => .inr hx
  refine h.trans { hset with onCpu := fun u hu => .inr ?_, log := .same rfl }
  rw [hr u hu]
  simpa [Sys.switch, Sys.setTask] using hx

theorem tasksystem (a : Sys Queues) (t : TaskPtr) : Aside a (tasksystem t a) := by
  unfold Libtask.tasksystem
  split
  · exact refl a
  · have hset : Aside a (a.setTask t fun x => { x with system := true }) :=
      .setTask (fun _ => rfl) (fun _ => rfl) (fun _ => rfl) fun _ => .inl rfl
    exact hset.trans (.same rfl rfl rfl rfl rfl rfl rfl)

end Aside

theorem TasklistRef.obj_ne_sleeping {k : TasklistRef} {o : Obj} (hk : k.obj = some o) :
    k ≠ .sleeping := by
  intro h
  rw [h] at hk
  cases hk

theorem LockOp.aside {o : Obj} {a b : Sys Queues} (h : LockOp o a b) : Aside a b := by
  cases h with
  | emit e he =>
    apply Aside.emit
    cases e <;> first | exact id | cases he
  | setOwner | setReaders | setWriter => exact .same rfl rfl rfl rfl rfl rfl rfl
  | enq k t hk => exact .relink a _ (TasklistRef.obj_ne_sleeping hk)
  | wake hk _ => exact .wake a (TasklistRef.obj_ne_sleeping hk) _

theorem ObjMove.aside {a b : Sys Queues} (h : ObjMove a b) : Aside a b := by
  apply h.lift Aside.refl (fun _ _ _ => Aside.trans) (fun _ _ _ hop => hop.aside)
  · exact fun a => .same rfl rfl rfl rfl rfl rfl rfl
  · intro a x t ht hx
    refine (Aside.refl a).switch ?_ fun u hu => Option.some.inj (hu.symm.trans ht)
    cases x <;> first | exact id | cases hx

section
variable {lab : Option Call} {a b : Sys Queues} {pl : Placement}

/-- A move is of the poller or of those by which tasks come and go, or it is aside from them. -/
theorem Move.aside_or (hI : Inv a pl) (m : Move lab a b) :
    Aside a b ∨ LifeMove lab a b ∨ FdMove lab a b := by
  cases m with
  | life m => exact .inr (.inl m)
  | fd m => exact .inr (.inr m)
  | queuing m => exact .inl m.objMove.aside
  | rw m => exact .inl m.objMove.aside
  | exit | stall | exitall | nomem | toomany | unowned | oops | unwritten | hasreaders | back |
      write => exact .inl (.same rfl rfl rfl rfl rfl rfl rfl)
  | @dispatch _ t _ hc =>
    left
    have hrun : ∀ u, a.taskrunning ≠ some u := by
      intro u hu
      rw [hI.onCpu.scheduler hc] at hu
      cases hu
    have hset : Aside (a.deq .taskrunqueue)
        ((a.deq .taskrunqueue).setTask t fun x => { x with ready := false }) :=
      .setTask (fun _ => rfl) (fun _ => rfl) (fun _ => rfl) fun _ => .inl rfl
    have hdeq := (Aside.relink a (k := .taskrunqueue) _ (by simp)).trans hset
    exact { hdeq with
      onCpu := fun u hu => absurd hu (hrun u)
      log := .emit (e := .dispatch t) (by simp [Event.inFd]) rfl }
  | note e he =>
    left
    apply Aside.emit
    cases e <;> first | exact id | cases he
  | @altback _ t base x =>
    left
    exact { Aside.refl a with
      log := .emit (e := .altret t base x.xalt.idx) (by simp [Event.inFd]) rfl }
  | tasksystem => exact .inl (.tasksystem a _)
  | taskyield h =>
    exact .inl ((Aside.ready a _).switch id fun u hu => Option.some.inj (hu.symm.trans h.1))
  | @altrun _ b t base i _ _ as u h _ hbase hi hx =>
    left
    obtain ⟨c, evs, _, hb, _⟩ := hI.altrun_of_ok h hbase hi hx
    have hevs : ∀ e ∈ evs.map (Event.chan c) ++ [.altcall t base], ¬e.inFd := by
      intro e he
      rcases List.mem_append.mp he with he | he
      · obtain ⟨d, _, rfl⟩ := List.mem_map.mp he
        exact id
      · rw [List.mem_singleton.mp he]
        exact id
    have hrun : Aside a b := by
      rw [hb]
      exact { Aside.refl a with
        log := ⟨_, by simp, hevs⟩ }
    exact (hrun.trans (.readyOpt b u)).trans (.emit _ id)
  | @altfail _ t base _ as =>
    left
    exact { Aside.refl a with
      log := ⟨[.altret t base (-1), .altcall t base], rfl, by simp [Event.inFd]⟩ }
  | @altblock _ b t base _ as h _ _ _ _ hq =>
    left
    have hb : Aside a b ∧ b.taskrunning = a.taskrunning := by
      rw [altqueueAll_altenter hq]
      exact ⟨{ Aside.refl a with log := .emit (e := .altcall t base) (by simp [Event.inFd]) rfl },
        rfl⟩
    exact hb.1.switch id fun u hu => Option.some.inj (hu.symm.trans (hb.2.trans h.1))

end
end Libtask
