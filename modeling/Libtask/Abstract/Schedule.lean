import Libtask.Abstract.Others

/-! The run queue: tasks enter it at its end when they are made ready, and leave it at its
front when they are dispatched. -/
namespace Libtask
open Function Runs Relation

def madeReady : Event → Option TaskPtr
  | .ready t => some t
  | _ => none

/-- Neither a task was made ready nor one dispatched. -/
def Event.offQueue (e : Event) : Prop := madeReady e = none ∧ dispatched e = none

/-- From `a` to `b` the events `new` were logged, and the tasks made ready queued. -/
structure Queued (new : List Event) (a b : Sys Queues) : Prop where
  log : b.log = new ++ a.log
  runqueue : b.links .taskrunqueue = a.links .taskrunqueue ++ hist madeReady new
  idle : hist dispatched new = []
  nswitch : b.tasknswitch = a.tasknswitch

namespace Queued
variable {a b c : Sys Queues} {new new' : List Event} {t : TaskPtr} {k : TasklistRef}

theorem trans (h : Queued new a b) (h' : Queued new' b c) : Queued (new' ++ new) a c where
  log := by rw [h'.log, h.log, List.append_assoc]
  runqueue := by rw [h'.runqueue, h.runqueue, hist_append, List.append_assoc]
  idle := by rw [hist_append, h.idle, h'.idle, List.nil_append]
  nswitch := h'.nswitch.trans h.nswitch

theorem hist_offQueue (hnew : ∀ e ∈ new, e.offQueue) :
    hist madeReady new = [] ∧ hist dispatched new = [] := by
  have hnone : ∀ f : Event → Option TaskPtr, (∀ e ∈ new, f e = none) → hist f new = [] := by
    intro f hf
    rw [hist, List.filterMap_eq_nil_iff.mpr hf, List.reverse_nil]
  exact ⟨hnone _ fun e he => (hnew e he).1, hnone _ fun e he => (hnew e he).2⟩

/-- Only events that have nothing to do with the run queue were logged. -/
theorem quiet (new : List Event) (hnew : ∀ e ∈ new, e.offQueue) (hlog : b.log = new ++ a.log)
    (hq : b.links .taskrunqueue = a.links .taskrunqueue) (hn : b.tasknswitch = a.tasknswitch) :
    Queued new a b := by
  obtain ⟨hready, hdispatch⟩ := hist_offQueue hnew
  exact ⟨hlog, by rw [hready, hq, List.append_nil], hdispatch, hn⟩

theorem same (hlog : b.log = a.log) (hq : b.links .taskrunqueue = a.links .taskrunqueue)
    (hn : b.tasknswitch = a.tasknswitch) : Queued [] a b :=
  quiet [] (by simp) hlog hq hn

theorem emit {e : Event} (a : Sys Queues) (he : e.offQueue) : Queued [e] a (a.emit e) :=
  quiet [e] (by simpa using he) rfl rfl rfl

theorem ready (a : Sys Queues) (t : TaskPtr) : Queued [.ready t] a (a.ready t) where
  log := rfl
  runqueue := by simp [Sys.ready, Sys.enq, Sys.emit, Sys.setTask, madeReady]
  idle := rfl
  nswitch := rfl

theorem readyOpt (a : Sys Queues) (u : Option TaskPtr) :
    Queued (u.toList.map .ready) a (a.readyOpt u) := by
  cases u with
  | none => exact same rfl rfl rfl
  | some u => exact ready a u

theorem deq (a : Sys Queues) (hk : k ≠ .taskrunqueue) : Queued [] a (a.deq k) :=
  same rfl (by simp [Sys.deq, Ne.symm hk]) rfl

theorem wake (a : Sys Queues) (hk : k ≠ .taskrunqueue) (t : TaskPtr) :
    Queued [.ready t] a (a.wake k t) :=
  (deq a hk).trans (ready _ t)

theorem switch (h : Queued new a b) (x : Context) (t : TaskPtr) : Queued new a (b.switch x t) :=
  ⟨h.log, h.runqueue, h.idle, h.nswitch⟩

theorem tasksystem (a : Sys Queues) (t : TaskPtr) : Queued [] a (tasksystem t a) := by
  unfold Libtask.tasksystem
  split <;> exact same rfl rfl rfl

theorem create (a : Sys Queues) (fn : Startfn) (p : TaskPtr) :
    Queued [.ready p] a (a.create fn p) := by
  have hset : Queued [] a { a with
      task := update a.task p
        { context := .taskstart, alarmtime := 0, id := a.taskidgen + 1, exiting := false,
          alltaskslot := a.nalltask, system := false, ready := false, startfn := fn }
      live := insert p a.live
      taskidgen := a.taskidgen + 1
      taskcount := a.taskcount + 1
      alltaskcap := if a.nalltask % 64 = 0 then a.nalltask + 64 else a.alltaskcap
      alltask := update a.alltask a.nalltask p
      nalltask := a.nalltask + 1 } := same rfl rfl rfl
  exact hset.trans (ready _ p)

end Queued

theorem TasklistRef.obj_ne {k : TasklistRef} {o : Obj} (hk : k.obj = some o) :
    k ≠ .taskrunqueue := by
  rintro rfl
  cases hk

theorem Event.offQueue_of_obj {e : Event} {o : Obj} (he : e.obj = some o) : e.offQueue := by
  cases e <;> first | exact ⟨rfl, rfl⟩ | cases he

theorem LockOp.queued {o : Obj} {a b : Sys Queues} (h : LockOp o a b) : ∃ new, Queued new a b := by
  cases h with
  | emit e he => exact ⟨_, .emit a (Event.offQueue_of_obj he)⟩
  | setOwner | setReaders | setWriter => exact ⟨_, .same rfl rfl rfl⟩
  | enq k t hk => exact ⟨_, .same rfl (by simp [Sys.enq, Ne.symm (TasklistRef.obj_ne hk)]) rfl⟩
  | wake hk hq => exact ⟨_, .wake a (TasklistRef.obj_ne hk) _⟩

theorem ObjMove.queued {a b : Sys Queues} (h : ObjMove a b) : ∃ new, Queued new a b :=
  h.lift (R := fun a b => ∃ new, Queued new a b) (fun _ => ⟨_, .same rfl rfl rfl⟩)
    (fun _ _ _ ⟨_, h₁⟩ ⟨_, h₂⟩ => ⟨_, h₁.trans h₂⟩) (fun _ _ _ hop => hop.queued)
    (fun _ => ⟨_, .same rfl rfl rfl⟩) fun _ _ _ _ _ => ⟨_, .same rfl rfl rfl⟩

section
variable {lab : Option Call} {a b : Sys Queues} {pl : Placement}

theorem LifeMove.queued (m : LifeMove lab a b) : ∃ new, Queued new a b := by
  cases m with
  | create fn => exact ⟨_, .create a fn _⟩
  | startfd =>
    have hset : Queued [] a { a with startedfdtask := true } := .same rfl rfl rfl
    exact ⟨_, hset.trans (.create _ _ _)⟩
  | taskexit v =>
    rw [taskexit_eq]
    exact ⟨[.free _], .quiet _ (by simp [Event.offQueue, madeReady, dispatched]) rfl rfl rfl⟩

theorem FdMove.queued (m : FdMove lab a b) : ∃ new, Queued new a b := by
  cases m with
  | fdcall => exact ⟨_, ((Queued.tasksystem a _).trans (.ready _ _)).switch _ _⟩
  | fdyield => exact ⟨_, (Queued.ready a _).switch _ _⟩
  | @taskdelay _ t now ms =>
    refine ⟨[.delay t now ms], .switch ?_ _ _⟩
    exact .quiet _ (by simp [Event.offQueue, madeReady, dispatched]) rfl
      (by simp [Sys.emit, Sys.delay, Sys.countSleeper, Sys.setTask]) rfl
  | @fdwait _ t fd events =>
    refine ⟨[.fdwait t fd events], .switch ?_ _ _⟩
    exact .quiet _ (by simp [Event.offQueue, madeReady, dispatched]) rfl rfl rfl
  | poll => exact ⟨_, .emit a ⟨rfl, rfl⟩⟩
  | revents => exact ⟨_, .same rfl rfl rfl⟩
  | @pollwake _ t _ i =>
    have hready := Queued.ready a (a.polltask i)
    exact ⟨_, hready.trans (.same rfl rfl rfl)⟩
  | @timerwake _ t u =>
    have hcount : Queued [] a (a.uncountSleeper u) := .same rfl rfl rfl
    exact ⟨_, hcount.trans (.wake _ (by simp) u)⟩

/-- A move but for a dispatch takes no task off the run queue. -/
theorem Move.queued_or (hI : Inv a pl) (m : Move lab a b) :
    (∃ new, Queued new a b) ∨
      ∃ t ts, a.control = .scheduler ∧ a.links .taskrunqueue = t :: ts ∧ b = a.dispatch t := by
  cases m with
  | dispatch hc _ hq => exact .inr ⟨_, _, hc, hq, rfl⟩
  | queuing m => exact .inl m.objMove.queued
  | rw m => exact .inl m.objMove.queued
  | exit | stall | exitall | nomem | toomany | unowned | oops | unwritten | hasreaders | back |
      write => exact .inl ⟨_, .same rfl rfl rfl⟩
  | note e he =>
    refine .inl ⟨_, .emit a ?_⟩
    cases e <;> first | exact ⟨rfl, rfl⟩ | cases he
  | @altback _ t base x =>
    exact .inl ⟨[.altret t base x.xalt.idx],
      .quiet _ (by simp [Event.offQueue, madeReady, dispatched]) rfl rfl rfl⟩
  | life m => exact .inl m.queued
  | fd m => exact .inl m.queued
  | tasksystem => exact .inl ⟨_, .tasksystem a _⟩
  | taskyield => exact .inl ⟨_, (Queued.ready a _).switch _ _⟩
  | @altrun _ b t base i _ _ as u h _ hbase hi hx =>
    left
    obtain ⟨c, evs, _, hb, _⟩ := hI.altrun_of_ok h hbase hi hx
    have hrun : Queued (evs.map (.chan c) ++ [.altcall t base]) a b := by
      refine .quiet _ (fun e he => ?_) ?_ ?_ ?_
      · simp only [List.mem_append, List.mem_map, List.mem_singleton] at he
        rcases he with ⟨d, _, rfl⟩ | rfl <;> exact ⟨rfl, rfl⟩
      · rw [hb, List.append_assoc]
        rfl
      · rw [hb]
        rfl
      · rw [hb]
        rfl
    exact ⟨_, (hrun.trans (.readyOpt b u)).trans (.emit _ ⟨rfl, rfl⟩)⟩
  | @altfail _ t base _ as =>
    exact .inl ⟨[.altret t base (-1), .altcall t base],
      .quiet _ (by simp [Event.offQueue, madeReady, dispatched]) rfl rfl rfl⟩
  | @altblock _ b t base _ as _ _ _ _ _ hq =>
    left
    have hb : Queued [.altcall t base] a b := by
      rw [altqueueAll_altenter hq]
      exact .quiet _ (by simp [Event.offQueue, madeReady, dispatched]) rfl rfl rfl
    exact ⟨_, hb.switch _ _⟩

/-- What a move makes ready is on the run queue after it. -/
theorem Move.readied (hI : Inv a pl) (m : Move lab a b) :
    ∃ new, b.log = new ++ a.log ∧ ∀ t, .ready t ∈ new → t ∈ b.links .taskrunqueue := by
  rcases m.queued_or hI with ⟨new, hq⟩ | ⟨t, _, _, _, rfl⟩
  · refine ⟨new, hq.log, fun t ht => ?_⟩
    rw [hq.runqueue, List.mem_append]
    right
    rw [hist, List.mem_reverse, List.mem_filterMap]
    exact ⟨_, ht, rfl⟩
  · exact ⟨[.dispatch t], rfl, fun u hu => by simp at hu⟩

end

/-- From `a` to `b` the events `new` were logged, and the dispatches among them took tasks off
the run queue in its order. -/
structure Scheduled (new : List Event) (a b : Sys Queues) : Prop where
  log : b.log = new ++ a.log
  fifo : a.links .taskrunqueue ++ hist madeReady new =
    hist dispatched new ++ b.links .taskrunqueue
  nswitch : b.tasknswitch = a.tasknswitch + BitVec.ofNat 32 (hist dispatched new).length

namespace Scheduled
variable {a b c : Sys Queues} {new new' : List Event} {t : TaskPtr} {ts : List TaskPtr}

theorem refl (a : Sys Queues) : Scheduled [] a a := ⟨rfl, by simp, by simp⟩

theorem queued (h : Scheduled new a b) (h' : Queued new' b c) : Scheduled (new' ++ new) a c where
  log := by rw [h'.log, h.log, List.append_assoc]
  fifo := by rw [hist_append, ← List.append_assoc, h.fifo, hist_append, h'.idle, h'.runqueue,
    List.append_nil, List.append_assoc]
  nswitch := by rw [h'.nswitch, h.nswitch, hist_append, h'.idle, List.append_nil]

theorem dispatch (h : Scheduled new a b) (hq : b.links .taskrunqueue = t :: ts) :
    Scheduled (.dispatch t :: new) a (b.dispatch t) where
  log := by simp [Sys.dispatch, Sys.emit, Sys.setTask, Sys.deq, h.log]
  fifo := by
    have hfifo := h.fifo
    rw [hq] at hfifo
    simp [Sys.dispatch, Sys.emit, Sys.setTask, Sys.deq, hq, madeReady, dispatched, hfifo]
  nswitch := by
    have hn := h.nswitch
    simp only [Sys.dispatch, Sys.emit, Sys.setTask, Sys.deq, hist_cons, dispatched,
      Option.toList_some, List.length_append, List.length_singleton, hn]
    rw [BitVec.ofNat_add, BitVec.add_assoc]
    rfl

end Scheduled
end Libtask
