import Libtask.Abstract.Others

/-! Each lock and each rendezvous point by itself: what the abstract machine shows of it, and
which moves leave that alone. -/
namespace Libtask
open Function

/-- The object `o`, its waiting lists and its history are the same. -/
structure SameAt (o : Obj) (a b : Sys Queues) : Prop where
  qlock : ∀ l, o = .qlock l → b.qlock l = a.qlock l
  rwlock : ∀ l, o = .rwlock l → b.rwlock l = a.rwlock l
  links : ∀ k, k.obj = some o → b.links k = a.links k
  log : b.log.filter (fun e => e.obj = some o) = a.log.filter fun e => e.obj = some o

namespace SameAt
variable {o : Obj} {a b c : Sys Queues}

theorem refl (o : Obj) (a : Sys Queues) : SameAt o a a :=
  ⟨fun _ _ => rfl, fun _ _ => rfl, fun _ _ => rfl, rfl⟩

theorem trans (h : SameAt o a b) (h' : SameAt o b c) : SameAt o a c where
  qlock l hl := (h'.qlock l hl).trans (h.qlock l hl)
  rwlock l hl := (h'.rwlock l hl).trans (h.rwlock l hl)
  links k hk := (h'.links k hk).trans (h.links k hk)
  log := h'.log.trans h.log

theorem control (h : SameAt o a b) (v : Control) : SameAt o a { b with control := v } :=
  ⟨h.qlock, h.rwlock, h.links, h.log⟩

theorem switch (h : SameAt o a b) (x : Context) (t : TaskPtr) : SameAt o a (b.switch x t) :=
  ⟨h.qlock, h.rwlock, h.links, h.log⟩

end SameAt

theorem Plain.sameAt {a b : Sys Queues} (h : Plain a b) (o : Obj) : SameAt o a b where
  qlock l _ := by rw [h.qlock]
  rwlock l _ := by rw [h.rwlock]
  links k hk := h.links k o hk
  log := by
    obtain ⟨new, hlog, hnew⟩ := h.log
    have hnone : new.filter (fun e => e.obj = some o) = [] := by
      rw [List.filter_eq_nil_iff]
      intro e he
      simp [hnew e he]
    rw [hlog, List.filter_append, hnone, List.nil_append]

/-- An operation on one object leaves every other alone. -/
theorem LockOp.sameAt {o o' : Obj} {a b : Sys Queues} (h : LockOp o' a b) (ho : o' ≠ o) :
    SameAt o a b := by
  have hlist : ∀ k k' : TasklistRef, k.obj = some o' → k'.obj = some o → k' ≠ k := by
    rintro k _ hk hk' rfl
    rw [hk] at hk'
    exact ho (Option.some.inj hk')
  cases h with
  | emit e he =>
    refine ⟨fun _ _ => rfl, fun _ _ => rfl, fun _ _ => rfl, ?_⟩
    simp [Sys.emit, he, ho]
  | setOwner l t hl =>
    refine ⟨fun l' hl' => ?_, fun _ _ => rfl, fun _ _ => rfl, rfl⟩
    have hne : l' ≠ l := by
      rintro rfl
      exact ho (hl.trans hl'.symm)
    simp [Sys.setOwner, hne]
  | setReaders l _ hl | setWriter l _ hl =>
    refine ⟨fun _ _ => rfl, fun l' hl' => ?_, fun _ _ => rfl, rfl⟩
    have hne : l' ≠ l := by
      rintro rfl
      exact ho (hl.trans hl'.symm)
    simp [Sys.setReaders, Sys.setWriter, hne]
  | enq k t hk =>
    refine ⟨fun _ _ => rfl, fun _ _ => rfl, fun k' hk' => ?_, rfl⟩
    exact update_of_ne (hlist k k' hk hk') _ _
  | @wake k u us hk hq =>
    refine ⟨fun _ _ => rfl, fun _ _ => rfl, fun k' hk' => ?_, ?_⟩
    · have hrun : k' ≠ .taskrunqueue := by
        rintro rfl
        cases hk'
      simp [Sys.wake, Sys.ready, Sys.enq, Sys.emit, Sys.setTask, Sys.deq, hrun,
        hlist k k' hk hk']
    · simp [Sys.wake, Sys.ready, Sys.enq, Sys.emit, Sys.setTask, Sys.deq, Event.obj]

theorem LockOps.sameAt {o o' : Obj} {a b : Sys Queues} (h : LockOps o' a b) (ho : o' ≠ o) :
    SameAt o a b :=
  h.lift (.refl o) (fun _ _ _ => .trans) fun _ _ hop => hop.sameAt ho

/-- The history of an object is in its own events. -/
theorem filterMap_filter_obj {β : Type} {f : Event → Option β} {o : Obj}
    (hf : ∀ e, e.obj ≠ some o → f e = none) (log : List Event) :
    (log.filter fun e => e.obj = some o).filterMap f = log.filterMap f := by
  induction log with
  | nil => rfl
  | cons e log ih =>
    by_cases he : e.obj = some o
    · rw [List.filter_cons_of_pos (by simpa using he), List.filterMap_cons, List.filterMap_cons, ih]
    · simp [he, hf e he, ih]

section
variable {a b : Sys Queues} {l r : ℕ} {t u : TaskPtr} {us : List TaskPtr}

def Sys.qlog {σ : Type} (l : ℕ) (a : Sys σ) : List (QEvent TaskPtr) := a.log.filterMap (qEvent l)

def Sys.rwlog {σ : Type} (l : ℕ) (a : Sys σ) : List (RWEvent TaskPtr) :=
  a.log.filterMap (rwEvent l)

def Sys.rendezlog {σ : Type} (r : ℕ) (a : Sys σ) : List (RendezEvent TaskPtr) :=
  a.log.filterMap (rendezEvent r)

/-- The lock `l` with `ts` as its waiting list. -/
def Sys.handoffLock {σ : Type} (l : ℕ) (ts : List TaskPtr) (a : Sys σ) :
    HandoffLock.Lock TaskPtr where
  owner := (a.qlock l).owner
  waiting := ts
  log := a.qlog l

def Sys.readWriteLock {σ : Type} (l : ℕ) (rs ws : List TaskPtr) (a : Sys σ) :
    ReadWriteLock.Lock TaskPtr where
  readers := (a.rwlock l).readers
  writer := (a.rwlock l).writer
  rwaiting := rs
  wwaiting := ws
  log := a.rwlog l

def Sys.condVar {σ : Type} (r : ℕ) (ts : List TaskPtr) (a : Sys σ) : CondVar.Cond TaskPtr where
  waiting := ts
  log := a.rendezlog r

abbrev Sys.qview (l : ℕ) (a : Sys Queues) : HandoffLock.Lock TaskPtr :=
  a.handoffLock l (a.links (.qwaiting l))

abbrev Sys.rwview (l : ℕ) (a : Sys Queues) : ReadWriteLock.Lock TaskPtr :=
  a.readWriteLock l (a.links (.rwaiting l)) (a.links (.wwaiting l))

abbrev Sys.rendezview (r : ℕ) (a : Sys Queues) : CondVar.Cond TaskPtr :=
  a.condVar r (a.links (.rendez r))

theorem qEvent_obj (l : ℕ) (e : Event) (he : e.obj ≠ some (.qlock l)) : qEvent l e = none := by
  cases e with
  | q l' d =>
    have hne : l' ≠ l := by simpa [Event.obj] using he
    simp [qEvent, hne]
  | _ => rfl

theorem rwEvent_obj (l : ℕ) (e : Event) (he : e.obj ≠ some (.rwlock l)) : rwEvent l e = none := by
  cases e with
  | rw l' d =>
    have hne : l' ≠ l := by simpa [Event.obj] using he
    simp [rwEvent, hne]
  | _ => rfl

theorem rendezEvent_obj (r : ℕ) (e : Event) (he : e.obj ≠ some (.rendez r)) :
    rendezEvent r e = none := by
  cases e with
  | rendez r' d =>
    have hne : r' ≠ r := by simpa [Event.obj] using he
    simp [rendezEvent, hne]
  | _ => rfl

theorem SameAt.qview (h : SameAt (.qlock l) a b) : b.qview l = a.qview l := by
  have hlog : b.qlog l = a.qlog l := by
    have hf := congrArg (List.filterMap (qEvent l)) h.log
    rwa [filterMap_filter_obj (qEvent_obj l), filterMap_filter_obj (qEvent_obj l)] at hf
  simp only [Sys.qview, Sys.handoffLock, h.qlock l rfl, h.links (.qwaiting l) rfl, hlog]

theorem SameAt.rwview (h : SameAt (.rwlock l) a b) : b.rwview l = a.rwview l := by
  have hlog : b.rwlog l = a.rwlog l := by
    have hf := congrArg (List.filterMap (rwEvent l)) h.log
    rwa [filterMap_filter_obj (rwEvent_obj l), filterMap_filter_obj (rwEvent_obj l)] at hf
  simp only [Sys.rwview, Sys.readWriteLock, h.rwlock l rfl, h.links (.rwaiting l) rfl,
    h.links (.wwaiting l) rfl, hlog]

theorem SameAt.rendezview (h : SameAt (.rendez r) a b) : b.rendezview r = a.rendezview r := by
  have hlog : b.rendezlog r = a.rendezlog r := by
    have hf := congrArg (List.filterMap (rendezEvent r)) h.log
    rwa [filterMap_filter_obj (rendezEvent_obj r), filterMap_filter_obj (rendezEvent_obj r)] at hf
  simp only [Sys.rendezview, Sys.condVar, h.links (.rendez r) rfl, hlog]

/-- A move on queuing locks and rendezvous points leaves the reader-writer locks alone. -/
theorem QMove.sameAt {lab : Option Call} (m : QMove lab a b) : SameAt (.rwlock l) a b := by
  have hunlock : ∀ (c : Sys Queues) (l' : ℕ) (t : TaskPtr), SameAt (.rwlock l) c (c.unlock l' t) :=
    fun c l' t => (lockOps_unlock c l' t).sameAt (by simp)
  have hemit : ∀ (c : Sys Queues) (e : Event), e.obj ≠ some (.rwlock l) →
      SameAt (.rwlock l) c (c.emit e) := by
    intro c e he
    refine ⟨fun _ _ => rfl, fun _ _ => rfl, fun _ _ => rfl, ?_⟩
    simp [Sys.emit, he]
  cases m with
  | qback | awake => exact (hemit a _ (by simp [Event.obj])).control _
  | sleepback =>
    exact ((hemit a (.q _ _) (by simp [Event.obj])).trans
      (hemit _ (.rendez _ _) (by simp [Event.obj]))).control _
  | @reacquire _ t r l' =>
    have hset : SameAt (.rwlock l) a (a.setOwner l' (some t)) :=
      LockOp.sameAt (.setOwner l' _ rfl) (by simp)
    exact ((hset.trans (hemit _ (.q _ _) (by simp [Event.obj]))).trans
      (hemit _ (.rendez _ _) (by simp [Event.obj]))).control _
  | @qacquire _ t l' =>
    have hset : SameAt (.rwlock l) a (a.setOwner l' (some t)) :=
      LockOp.sameAt (.setOwner l' _ rfl) (by simp)
    exact hset.trans (hemit _ (.q _ _) (by simp [Event.obj]))
  | @qblock _ t l' =>
    refine ((hemit a (.q l' (.block t)) (by simp [Event.obj])).trans ?_).switch _ _
    exact LockOp.sameAt (.enq _ t rfl) (by simp)
  | qunlock => exact hunlock _ _ _
  | @tasksleep _ t r =>
    refine SameAt.switch ?_ _ _
    obtain ⟨a', ha, _, hs | ⟨l', _, hs⟩⟩ := lockOps_sleep a r t
    · rw [hs]
      exact ha.sameAt (by simp)
    · rw [hs]
      exact (ha.sameAt (by simp)).trans (hunlock a' l' t)
  | @wakeup _ _ u r _ _ hq =>
    refine (hemit a (.rendez r (.woken u)) (by simp [Event.obj])).trans ?_
    exact LockOp.sameAt (.wake rfl hq) (by simp)

/-- A move on a reader-writer lock leaves every other object alone. -/
theorem RWMove.sameAt {lab : Option Call} {o : Obj} (m : RWMove lab a b) (ho : ∀ l, o ≠ .rwlock l) :
    SameAt o a b := by
  have hops : ∀ {c d : Sys Queues} {l' : ℕ}, LockOps (.rwlock l') c d → SameAt o c d :=
    fun h => h.sameAt (ho _).symm
  cases m with
  | rback | wback => exact (hops (.single (.emit (.rw _ _) rfl))).control _
  | racquire => exact hops (.tail (.single (.setReaders _ _ rfl)) (.emit (.rw _ _) rfl))
  | wacquire => exact hops (.tail (.single (.setWriter _ _ rfl)) (.emit (.rw _ _) rfl))
  | rblock | wblock =>
    exact (hops (.tail (.single (.emit (.rw _ _) rfl)) (.enq _ _ rfl))).switch _ _
  | runlock => exact hops (lockOps_readUnlock _ _ _)
  | wunlock => exact hops (lockOps_writeUnlock _ _ _)

end
end Libtask
