import Libtask.Abstract.LockOps
import Libtask.Abstract.Steps

/-! The moves that are not on locks or rendezvous points leave all of these alone. -/
namespace Libtask
open Function

/-- Locks and rendezvous points, their waiting lists and their histories are the same. -/
structure Plain (a b : Sys Queues) : Prop where
  qlock : b.qlock = a.qlock
  rwlock : b.rwlock = a.rwlock
  rendez : b.rendez = a.rendez
  links : ∀ k o, k.obj = some o → b.links k = a.links k
  log : LogExt (fun e => e.obj = none) a b

namespace Plain
variable {a b c : Sys Queues} {k : TasklistRef} {t : TaskPtr}

theorem trans (h : Plain a b) (h' : Plain b c) : Plain a c where
  qlock := h'.qlock.trans h.qlock
  rwlock := h'.rwlock.trans h.rwlock
  rendez := h'.rendez.trans h.rendez
  links k o hk := (h'.links k o hk).trans (h.links k o hk)
  log := h.log.trans h'.log

/-- Some events were logged, none of them about a lock or a rendezvous point. -/
theorem events (new : List Event) (hq : b.qlock = a.qlock) (hrw : b.rwlock = a.rwlock)
    (hr : b.rendez = a.rendez) (hl : b.links = a.links) (hlog : b.log = new ++ a.log)
    (hnew : ∀ e ∈ new, e.obj = none) : Plain a b :=
  ⟨hq, hrw, hr, fun _ _ _ => by rw [hl], new, hlog, hnew⟩

theorem same (hq : b.qlock = a.qlock) (hrw : b.rwlock = a.rwlock) (hr : b.rendez = a.rendez)
    (hl : b.links = a.links) (hlog : b.log = a.log) : Plain a b :=
  .events [] hq hrw hr hl hlog (by simp)

theorem relink (ts : List TaskPtr) (hk : k.obj = none)
    (hb : b = { a with links := update a.links k ts }) : Plain a b := by
  subst hb
  refine ⟨rfl, rfl, rfl, fun k' o hk' => update_of_ne ?_ _ _, .same rfl⟩
  rintro rfl
  rw [hk] at hk'
  cases hk'

theorem enq (a : Sys Queues) (t : TaskPtr) (hk : k.obj = none) : Plain a (a.enq k t) :=
  relink _ hk rfl

theorem deq (a : Sys Queues) (hk : k.obj = none) : Plain a (a.deq k) := relink _ hk rfl

theorem emit (a : Sys Queues) {e : Event} (he : e.obj = none) : Plain a (a.emit e) :=
  events [e] rfl rfl rfl rfl rfl (by simpa using he)

theorem ready (a : Sys Queues) (t : TaskPtr) : Plain a (a.ready t) := by
  have hset : Plain a (a.setTask t fun x => { x with ready := true }) := same rfl rfl rfl rfl rfl
  exact (hset.trans (emit _ rfl)).trans (enq _ t rfl)

theorem readyOpt (a : Sys Queues) (u : Option TaskPtr) : Plain a (a.readyOpt u) := by
  cases u with
  | none => exact same rfl rfl rfl rfl rfl
  | some t => exact ready a t

theorem switch (h : Plain a b) (x : Context) (t : TaskPtr) : Plain a (b.switch x t) :=
  h.trans (same rfl rfl rfl rfl rfl)

theorem tasksystem (a : Sys Queues) (t : TaskPtr) : Plain a (tasksystem t a) := by
  unfold Libtask.tasksystem
  split <;> exact same rfl rfl rfl rfl rfl

theorem create (h : Plain a b) (fn : Startfn) (p : TaskPtr) : Plain a (b.create fn p) := by
  refine (h.trans ?_).trans (ready _ p)
  exact same rfl rfl rfl rfl rfl

theorem delay (a : Sys Queues) (deadline : UInt64) (t : TaskPtr) :
    Plain a (a.delay deadline t) := by
  refine (relink (k := .sleeping) (a.insertSleeper deadline t) rfl rfl).trans ?_
  exact same rfl rfl rfl rfl rfl

end Plain

/-- Queuing the branches of an array changes the channels only. -/
theorem altqueueAll_altenter {a b : Sys Queues} {base : ℕ} {as : List Alt} {t : TaskPtr}
    (h : altqueueAll base (List.range (altlen as)) (a.altenter base as t) = .ok b) :
    b = { a.altenter base as t with chan := b.chan } := by
  have hbranch : ∀ i ∈ List.range (altlen as), ∃ x, (a.altenter base as t).alt? ⟨base, i⟩ = some x ∧
      (x.op = .CHANNOP ∨ x.op.queued) := by
    intro i hi
    apply Inv.branch_op
    rw [Inv.altlen_altenter]
    exact List.mem_range.mp hi
  obtain ⟨chan', hok, _⟩ := altqueueAll_ok hbranch
  cases hok.symm.trans h
  rfl

section
variable {lab : Option Call} {a b : Sys Queues} {pl : Placement}

theorem Plain.altenter (a : Sys Queues) (base : ℕ) (as : List Alt) (t : TaskPtr) :
    Plain a (a.altenter base as t) :=
  events [.altcall t base] rfl rfl rfl rfl rfl (by simp [Event.obj])

theorem ChanOnly.plain {c : ℕ} {evs : List ChanEvent} (h : ChanOnly c evs a b) : Plain a b := by
  rw [h]
  exact .events (evs.map (.chan c)) rfl rfl rfl rfl rfl (by simp [Event.obj])

theorem LifeMove.plain (m : LifeMove lab a b) : Plain a b := by
  cases m with
  | create | startfd =>
    refine .create ?_ _ _
    exact .same rfl rfl rfl rfl rfl
  | taskexit v =>
    rw [taskexit_eq]
    exact .events [_] rfl rfl rfl rfl rfl (by simp [Event.obj])

theorem FdMove.plain (m : FdMove lab a b) : Plain a b := by
  cases m with
  | fdcall => exact .switch ((Plain.tasksystem a _).trans (.ready _ _)) _ _
  | fdyield => exact .switch (.ready a _) _ _
  | taskdelay => exact ((Plain.delay a _ _).trans (.emit _ rfl)).switch _ _
  | fdwait =>
    refine .switch ?_ _ _
    exact .events [_] rfl rfl rfl rfl rfl (by simp [Event.obj])
  | poll => exact .emit a rfl
  | revents => exact .same rfl rfl rfl rfl rfl
  | pollwake => exact (Plain.ready a _).trans (.same rfl rfl rfl rfl rfl)
  | @timerwake _ t u =>
    have hcount : Plain a (a.uncountSleeper u) := .same rfl rfl rfl rfl rfl
    exact (hcount.trans (.deq _ rfl)).trans (.ready _ u)

/-- A move is on a lock or a rendezvous point or leaves all of them alone. -/
theorem Move.plain_or (hI : Inv a pl) (m : Move lab a b) :
    Plain a b ∨ QMove lab a b ∨ RWMove lab a b := by
  cases m with
  | queuing m => exact .inr (.inl m)
  | rw m => exact .inr (.inr m)
  | exit | stall | exitall | nomem | toomany | unowned | oops | unwritten | hasreaders | back |
      write => exact .inl (.same rfl rfl rfl rfl rfl)
  | dispatch hc _ hq =>
    left
    exact (Plain.deq a (k := .taskrunqueue) rfl).trans
      (.events [.dispatch _] rfl rfl rfl rfl rfl (by simp [Event.obj]))
  | note e he =>
    left
    refine .emit a ?_
    cases e <;> simp [Event.neutral, Event.obj] at he ⊢
  | altback => exact .inl (.events [_] rfl rfl rfl rfl rfl (by simp [Event.obj]))
  | life m => exact .inl m.plain
  | fd m => exact .inl m.plain
  | tasksystem => exact .inl (.tasksystem a _)
  | taskyield => exact .inl (.switch (.ready a _) _ _)
  | @altrun _ b t base i rand₁ rand₂ as u h has hbase hi hx =>
    left
    obtain ⟨c, evs, _, hb, _⟩ := hI.altrun_of_ok h hbase hi hx
    have hrun := ((Plain.altenter a base as t).trans hb.plain).trans (.readyOpt b u)
    exact hrun.trans (.emit _ rfl)
  | @altfail _ t base _ as =>
    left
    exact (Plain.altenter a base as t).trans (.emit _ rfl)
  | @altblock _ b t base _ as _ _ _ _ _ hq =>
    left
    have hb : Plain a b := by
      rw [altqueueAll_altenter hq]
      exact (Plain.altenter a base as t).trans (.same rfl rfl rfl rfl rfl)
    exact hb.switch _ _

end
end Libtask
