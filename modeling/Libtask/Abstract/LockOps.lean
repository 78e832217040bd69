import Libtask.Abstract.Moves
import Mathlib.Logic.Relation

/-! The moves on locks and rendezvous points taken apart: each is a sequence of elementary
operations on one object, so that what these leave unchanged the moves leave unchanged. -/
namespace Libtask
open Function Relation

/-- What a task can wait for besides timers, descriptors and channels. -/
inductive Obj
  | qlock (l : ℕ)
  | rwlock (l : ℕ)
  | rendez (r : ℕ)
  deriving DecidableEq

def Event.obj : Event → Option Obj
  | .q l _ => some (.qlock l)
  | .rw l _ => some (.rwlock l)
  | .rendez r _ => some (.rendez r)
  | _ => none

def TasklistRef.obj : TasklistRef → Option Obj
  | .qwaiting l => some (.qlock l)
  | .rwaiting l | .wwaiting l => some (.rwlock l)
  | .rendez r => some (.rendez r)
  | .taskrunqueue | .sleeping => none

/-- An elementary operation on the object `o`. -/
inductive LockOp (o : Obj) : Sys Queues → Sys Queues → Prop
  | emit {a : Sys Queues} (e : Event) (he : e.obj = some o) : LockOp o a (a.emit e)
  | setOwner {a : Sys Queues} (l : ℕ) (t : Option TaskPtr) (hl : o = .qlock l) :
      LockOp o a (a.setOwner l t)
  | setReaders {a : Sys Queues} (l : ℕ) (n : ℤ) (hl : o = .rwlock l) :
      LockOp o a (a.setReaders l n)
  | setWriter {a : Sys Queues} (l : ℕ) (t : Option TaskPtr) (hl : o = .rwlock l) :
      LockOp o a (a.setWriter l t)
  | enq {a : Sys Queues} (k : TasklistRef) (t : TaskPtr) (hk : k.obj = some o) :
      LockOp o a (a.enq k t)
  | wake {a : Sys Queues} {k : TasklistRef} {u : TaskPtr} {us : List TaskPtr}
      (hk : k.obj = some o) (hq : a.links k = u :: us) : LockOp o a (a.wake k u)

abbrev LockOps (o : Obj) : Sys Queues → Sys Queues → Prop := ReflTransGen (LockOp o)

section
variable {a : Sys Queues} {l r : ℕ} {t : TaskPtr}

theorem lockOps_unlock (a : Sys Queues) (l : ℕ) (t : TaskPtr) :
    LockOps (.qlock l) a (a.unlock l t) := by
  have hrel : ∀ o, LockOps (.qlock l) a ((a.emit (.q l (.release t))).setOwner l o) := fun o =>
    .tail (.single (.emit _ rfl)) (.setOwner l o rfl)
  cases hq : a.links (.qwaiting l) with
  | nil =>
    rw [Sys.unlock_nil hq]
    exact hrel none
  | cons u us =>
    rw [Sys.unlock_cons hq]
    exact ((hrel (some u)).tail (.emit _ rfl)).tail (.wake rfl hq)

theorem lockOps_grantWriter (a : Sys Queues) (l : ℕ) :
    LockOps (.rwlock l) a (a.grantWriter l) := by
  unfold Sys.grantWriter
  split
  · exact .refl
  · rename_i u us hq
    split
    · exact ((ReflTransGen.single (.emit _ rfl)).tail (.setWriter l _ rfl)).tail (.wake rfl hq)
    · exact .refl

theorem lockOps_readUnlock (a : Sys Queues) (l : ℕ) (t : TaskPtr) :
    LockOps (.rwlock l) a (a.readUnlock l t) :=
  ((ReflTransGen.single (.setReaders l _ rfl)).tail (.emit _ rfl)).trans (lockOps_grantWriter _ l)

theorem lockOps_letIn (us : List TaskPtr) {ys : List TaskPtr}
    (hq : a.links (.rwaiting l) = us ++ ys) : LockOps (.rwlock l) a (a.letIn l us) := by
  induction us generalizing a with
  | nil => exact .refl
  | cons u us ih =>
    refine ((ReflTransGen.single (.emit (.rw l (.rhandoff u)) rfl)).tail
      (.setReaders l ((a.rwlock l).readers + 1) rfl)).tail (.wake (u := u) rfl hq) |>.trans (ih ?_)
    simp [Sys.wake, Sys.ready, Sys.enq, Sys.emit, Sys.setTask, Sys.deq, Sys.setReaders, hq]

theorem lockOps_writeUnlock (a : Sys Queues) (l : ℕ) (t : TaskPtr) :
    LockOps (.rwlock l) a (a.writeUnlock l t) := by
  have hrel : LockOps (.rwlock l) a ((a.setWriter l none).emit (.rw l (.wrelease t))) :=
    .tail (.single (.setWriter l none rfl)) (.emit _ rfl)
  cases hq : a.links (.rwaiting l) with
  | nil =>
    rw [Sys.writeUnlock_nil hq]
    exact hrel.trans (lockOps_grantWriter _ l)
  | cons u us =>
    rw [Sys.writeUnlock_cons hq]
    exact (hrel.tail (.emit (.rw l .rbatch) rfl)).trans
      (lockOps_letIn (u :: us) (hq.trans (List.append_nil _).symm))

/-- Going to sleep is an operation on the rendezvous point, and then one on its lock. -/
theorem lockOps_sleep (a : Sys Queues) (r : ℕ) (t : TaskPtr) :
    ∃ a', LockOps (.rendez r) a a' ∧ (a'.rendez r = a.rendez r) ∧
      (a.sleep r t = a' ∨ ∃ l, (a.rendez r).l = some l ∧ a.sleep r t = a'.unlock l t) := by
  refine ⟨(a.emit (.rendez r (.sleep t))).enq (.rendez r) t,
    .tail (.single (.emit _ rfl)) (.enq _ t rfl), rfl, ?_⟩
  cases hl : (a.rendez r).l with
  | none => exact .inl (Sys.sleep_none hl)
  | some l => exact .inr ⟨l, rfl, by rw [Sys.sleep_some hl, Sys.enq_unlock]⟩

end

/-- A relation that every elementary operation satisfies holds across all of them. -/
theorem LockOps.lift {o : Obj} {R : Sys Queues → Sys Queues → Prop} (hrefl : ∀ a, R a a)
    (htrans : ∀ a b c, R a b → R b c → R a c) (hop : ∀ a b, LockOp o a b → R a b)
    {a b : Sys Queues} (h : LockOps o a b) : R a b := by
  induction h with
  | refl => exact hrefl a
  | tail _ hs ih => exact htrans _ _ _ ih (hop _ _ hs)

/-- The context of a task that waits for a lock or on a rendezvous point. -/
def Context.onObj : Context → Prop
  | .qlock _ | .sleepqlock _ _ | .rlock _ | .wlock _ | .tasksleep _ => True
  | _ => False

/-- What the moves on locks and rendezvous points come to: elementary operations, after which
the running task goes on, comes back to user code or is switched out. -/
structure ObjMove (a b : Sys Queues) : Prop where
  ops : ∃ c, ReflTransGen (fun a b => ∃ o, LockOp o a b) a c ∧
    (b = c ∨ a.control = .resume ∧ b = { c with control := .user } ∨
      ∃ x t, a.taskrunning = some t ∧ x.onObj ∧ b = c.switch x t)

theorem LockOps.objOps {o : Obj} {a b : Sys Queues} (h : LockOps o a b) :
    ReflTransGen (fun a b => ∃ o, LockOp o a b) a b :=
  ReflTransGen.mono (fun _ _ hop => ⟨o, hop⟩) _ _ h

theorem QMove.objMove {lab : Option Call} {a b : Sys Queues} (m : QMove lab a b) :
    ObjMove a b := by
  cases m with
  | qback h _ => exact ⟨_, .single ⟨_, .emit _ rfl⟩, .inr (.inl ⟨h.2.1, rfl⟩)⟩
  | sleepback h _ =>
    exact ⟨_, .tail (.single ⟨_, .emit (.q _ _) rfl⟩) ⟨_, .emit (.rendez _ _) rfl⟩,
      .inr (.inl ⟨h.2.1, rfl⟩)⟩
  | awake h _ => exact ⟨_, .single ⟨_, .emit _ rfl⟩, .inr (.inl ⟨h.2.1, rfl⟩)⟩
  | reacquire h _ _ =>
    exact ⟨_, .tail (.tail (.single ⟨_, .setOwner _ _ rfl⟩) ⟨_, .emit (.q _ _) rfl⟩)
      ⟨_, .emit (.rendez _ _) rfl⟩, .inr (.inl ⟨h.2.1, rfl⟩)⟩
  | qacquire _ _ =>
    exact ⟨_, .tail (.single ⟨_, .setOwner _ _ rfl⟩) ⟨_, .emit (.q _ _) rfl⟩, .inl rfl⟩
  | @qblock _ t l c h _ =>
    have hrun : a.taskrunning = some t := h.elim (fun h => h.1.1) fun ⟨_, h, _⟩ => h.1
    have hx : c.onObj := by
      rcases h with ⟨_, rfl⟩ | ⟨_, _, rfl, _⟩ <;> trivial
    exact ⟨_, .tail (.single ⟨_, .emit (.q _ _) rfl⟩) ⟨_, .enq _ _ rfl⟩,
      .inr (.inr ⟨_, _, hrun, hx, rfl⟩)⟩
  | qunlock _ _ => exact ⟨_, (lockOps_unlock _ _ _).objOps, .inl rfl⟩
  | @tasksleep _ t r h _ =>
    refine ⟨_, ?_, .inr (.inr ⟨.tasksleep r, _, h.1, trivial, rfl⟩)⟩
    obtain ⟨a', ha, _, hs | ⟨l, _, hs⟩⟩ := lockOps_sleep a r t
    · rw [hs]
      exact ha.objOps
    · rw [hs]
      exact ha.objOps.trans (lockOps_unlock _ _ _).objOps
  | wakeup _ hq =>
    exact ⟨_, .tail (.single ⟨_, .emit (.rendez _ _) rfl⟩) ⟨_, .wake rfl hq⟩, .inl rfl⟩

theorem RWMove.objMove {lab : Option Call} {a b : Sys Queues} (m : RWMove lab a b) :
    ObjMove a b := by
  cases m with
  | rback h | wback h => exact ⟨_, .single ⟨_, .emit _ rfl⟩, .inr (.inl ⟨h.2.1, rfl⟩)⟩
  | racquire _ _ _ =>
    exact ⟨_, .tail (.single ⟨_, .setReaders _ _ rfl⟩) ⟨_, .emit (.rw _ _) rfl⟩, .inl rfl⟩
  | wacquire _ _ _ =>
    exact ⟨_, .tail (.single ⟨_, .setWriter _ _ rfl⟩) ⟨_, .emit (.rw _ _) rfl⟩, .inl rfl⟩
  | @rblock _ _ l h _ =>
    exact ⟨_, .tail (.single ⟨_, .emit (.rw _ _) rfl⟩) ⟨_, .enq _ _ rfl⟩,
      .inr (.inr ⟨.rlock l, _, h.1, trivial, rfl⟩)⟩
  | @wblock _ _ l h _ =>
    exact ⟨_, .tail (.single ⟨_, .emit (.rw _ _) rfl⟩) ⟨_, .enq _ _ rfl⟩,
      .inr (.inr ⟨.wlock l, _, h.1, trivial, rfl⟩)⟩
  | runlock _ => exact ⟨_, (lockOps_readUnlock _ _ _).objOps, .inl rfl⟩
  | wunlock _ _ _ => exact ⟨_, (lockOps_writeUnlock _ _ _).objOps, .inl rfl⟩

/-- A relation that every elementary operation satisfies, and the two ways to end a move,
holds across all these moves. -/
theorem ObjMove.lift {R : Sys Queues → Sys Queues → Prop} {a b : Sys Queues} (hrefl : ∀ a, R a a)
    (htrans : ∀ a b c, R a b → R b c → R a c) (hop : ∀ o a b, LockOp o a b → R a b)
    (hback : ∀ a, R a { a with control := .user })
    (hswitch : ∀ a x t, a.taskrunning = some t → x.onObj → R a (a.switch x t))
    (h : ObjMove a b) : R a b := by
  obtain ⟨c, hc, hb⟩ := h.ops
  have hrun : c.taskrunning = a.taskrunning := by
    clear hb
    induction hc with
    | refl => rfl
    | tail _ hs ih =>
      obtain ⟨o, hs⟩ := hs
      cases hs <;> exact ih
  have hac : R a c := by
    clear hb hrun
    induction hc with
    | refl => exact hrefl a
    | tail _ hs ih =>
      obtain ⟨o, hs⟩ := hs
      exact htrans _ _ _ ih (hop o _ _ hs)
  rcases hb with rfl | ⟨_, rfl⟩ | ⟨x, t, ht, hx, rfl⟩
  · exact hac
  · exact htrans _ _ _ hac (hback c)
  · exact htrans _ _ _ hac (hswitch c x t (hrun.trans ht) hx)

/-- From `a` to `b` only events that satisfy `P` were logged. -/
def LogExt {σ : Type} (P : Event → Prop) (a b : Sys σ) : Prop :=
  ∃ new, b.log = new ++ a.log ∧ ∀ e ∈ new, P e

section LogExt
variable {σ : Type} {P Q : Event → Prop} {a b c : Sys σ}

theorem LogExt.same (h : b.log = a.log) : LogExt P a b := ⟨[], h, by simp⟩

theorem LogExt.emit {e : Event} (he : P e) (h : b.log = e :: a.log) : LogExt P a b :=
  ⟨[e], h, by simpa using he⟩

theorem LogExt.trans (h : LogExt P a b) (h' : LogExt P b c) : LogExt P a c := by
  obtain ⟨new, hl, hn⟩ := h
  obtain ⟨new', hl', hn'⟩ := h'
  refine ⟨new' ++ new, by rw [hl', hl, List.append_assoc], fun e he => ?_⟩
  exact (List.mem_append.mp he).elim (hn' e) (hn e)

theorem LogExt.mono (h : LogExt P a b) (hPQ : ∀ e, P e → Q e) : LogExt Q a b := by
  obtain ⟨new, hl, hn⟩ := h
  exact ⟨new, hl, fun e he => hPQ e (hn e he)⟩

end LogExt

/-- Operations on an object log events of that object and tasks made ready. -/
theorem LockOps.logExt {o : Obj} {a b : Sys Queues} (h : LockOps o a b) :
    LogExt (fun e => e.obj = some o ∨ ∃ u, e = .ready u) a b := by
  refine h.lift (fun _ => .same rfl) (fun _ _ _ => .trans) fun a b hop => ?_
  cases hop with
  | emit e he => exact .emit (.inl he) rfl
  | setOwner | setReaders | setWriter | enq => exact .same rfl
  | @wake k u us hk hq => exact .emit (.inr ⟨u, rfl⟩) rfl

/-- Operations on locks and rendezvous points touch no channel. -/
theorem LockOps.chan {o : Obj} {a b : Sys Queues} (h : LockOps o a b) : b.chan = a.chan := by
  refine h.lift (R := fun a b => b.chan = a.chan) (fun _ => rfl)
    (fun _ _ _ h₁ h₂ => h₂.trans h₁) fun a b hop => ?_
  cases hop <;> rfl

theorem LockOps.control {o : Obj} {a b : Sys Queues} (h : LockOps o a b) :
    b.control = a.control := by
  refine h.lift (R := fun a b => b.control = a.control) (fun _ => rfl)
    (fun _ _ _ h₁ h₂ => h₂.trans h₁) fun a b hop => ?_
  cases hop <;> rfl

section ObjMove
variable {a b : Sys Queues}

theorem ObjMove.logExt (h : ObjMove a b) :
    LogExt (fun e => (∃ o, e.obj = some o) ∨ ∃ u, e = .ready u) a b := by
  refine h.lift (fun _ => .same rfl) (fun _ _ _ => .trans) (fun o a b hop => ?_)
    (fun _ => .same rfl) fun _ _ _ _ _ => .same rfl
  exact (LockOps.logExt (.single hop)).mono fun e he => he.imp_left fun he => ⟨o, he⟩

theorem ObjMove.chan (h : ObjMove a b) : b.chan = a.chan :=
  h.lift (R := fun a b => b.chan = a.chan) (fun _ => rfl) (fun _ _ _ h₁ h₂ => h₂.trans h₁)
    (fun _ _ _ hop => LockOps.chan (.single hop)) (fun _ => rfl) fun _ _ _ _ _ => rfl

theorem ObjMove.rendez (h : ObjMove a b) : b.rendez = a.rendez :=
  h.lift (R := fun a b => b.rendez = a.rendez) (fun _ => rfl) (fun _ _ _ h₁ h₂ => h₂.trans h₁)
    (fun _ _ _ hop => by cases hop <;> rfl) (fun _ => rfl) fun _ _ _ _ _ => rfl

theorem ObjMove.of_resume (h : ObjMove a b) (hb : b.control = .resume) : a.control = .resume :=
  h.lift (R := fun a b => b.control = .resume → a.control = .resume) (fun _ h => h)
    (fun _ _ _ h₁ h₂ h => h₁ (h₂ h))
    (fun _ _ _ hop h => by rw [← LockOps.control (.single hop)]; exact h)
    (fun _ h => by cases h) (fun _ _ _ _ _ h => by cases h) hb

theorem ObjMove.halted {v : Halt} (h : ObjMove a b) (hv : b.control = .halted v) :
    a.control = .halted v :=
  h.lift (R := fun a b => ∀ v, b.control = .halted v → a.control = .halted v)
    (fun _ _ h => h) (fun _ _ _ h₁ h₂ v h => h₁ v (h₂ v h))
    (fun _ _ _ hop v h => by rw [← LockOps.control (.single hop)]; exact h)
    (fun _ _ h => by cases h) (fun _ _ _ _ _ _ h => by cases h) v hv

end ObjMove

end Libtask
