import Libtask.Abstract.Objects
import Libtask.Properties.TaskTable

/-! An `RWLock` excludes, and serves those who wait in time, as long as only its holders
release it. -/
namespace Libtask
open Function Runs Relation ReadWriteLock

/-- The call releases a hold of `l` only if the caller has one of that kind. -/
def RWClient {σ : Type} (l : ℕ) (s : Sys σ) : Call → Prop
  | .runlock l' => l' = l → s.taskrunning.all (· ∈ readHolders (s.rwlog l))
  | .wunlock l' => l' = l → s.taskrunning.all (· ∈ writeHolders (s.rwlog l))
  | _ => True

instance {σ : Type} (l : ℕ) (s : Sys σ) (c : Call) : Decidable (RWClient l s c) := by
  unfold RWClient
  split <;> infer_instance

section
variable {lab : Option Call} {l : ℕ} {a b : Sys Queues} {pl : Placement} {t : TaskPtr}

/-- A lock without readers goes to its first waiting writer. -/
theorem rwview_grantWriter (a : Sys Queues) (l : ℕ) : (a.grantWriter l).rwview l =
    match a.links (.wwaiting l) with
    | [] => a.rwview l
    | u :: us => if (a.rwlock l).readers = 0 then
        ⟨0, some u, a.links (.rwaiting l), us, .whandoff u :: a.rwlog l⟩ else a.rwview l := by
  cases hq : a.links (.wwaiting l) with
  | nil => simp only [Sys.grantWriter, hq]
  | cons u us =>
    by_cases hr : (a.rwlock l).readers = 0
    · simp [Sys.grantWriter, hq, hr, Sys.rwview, Sys.readWriteLock, Sys.rwlog, Sys.wake, Sys.ready,
        Sys.enq, Sys.deq, Sys.setTask, Sys.emit, Sys.setWriter, rwEvent, List.filterMap_cons]
    · simp only [Sys.grantWriter, hq, if_neg hr]

theorem rwview_letIn (us rest : List TaskPtr) (hq : a.links (.rwaiting l) = us ++ rest) :
    (a.letIn l us).rwview l = ⟨(a.rwlock l).readers + us.length, (a.rwlock l).writer, rest,
      a.links (.wwaiting l), admitAll us (a.rwlog l)⟩ := by
  induction us generalizing a with
  | nil => simp [Sys.letIn, Sys.rwview, Sys.readWriteLock, admitAll, hq]
  | cons u us ih =>
    have hrest : (((a.emit (.rw l (.rhandoff u))).setReaders l ((a.rwlock l).readers + 1)).wake
        (.rwaiting l) u).links (.rwaiting l) = us ++ rest := by
      simp [Sys.wake, Sys.ready, Sys.enq, Sys.emit, Sys.setTask, Sys.deq, Sys.setReaders, hq]
    rw [Sys.letIn, ih hrest]
    simp only [Sys.wake, Sys.ready, Sys.enq, Sys.emit, Sys.setTask, Sys.deq, Sys.setReaders,
      Sys.rwlog, update_self, admitAll]
    simp [rwEvent, List.filterMap_cons]
    omega

theorem rwview_rrelease (a : Sys Queues) (l : ℕ) (t : TaskPtr) :
    ((a.setReaders l ((a.rwlock l).readers - 1)).emit (.rw l (.rrelease t))).rwview l =
      { a.rwview l with readers := (a.rwlock l).readers - 1, log := .rrelease t :: a.rwlog l } := by
  simp [Sys.rwview, Sys.readWriteLock, Sys.rwlog, Sys.emit, Sys.setReaders, rwEvent]

theorem rwview_wrelease (a : Sys Queues) (l : ℕ) (t : TaskPtr) :
    ((a.setWriter l none).emit (.rw l (.wrelease t))).rwview l =
      { a.rwview l with writer := none, log := .wrelease t :: a.rwlog l } := by
  simp [Sys.rwview, Sys.readWriteLock, Sys.rwlog, Sys.emit, Sys.setWriter, rwEvent]

/-- A lock without readers goes to a waiting writer, which is made ready. -/
theorem grantWriter_first {u : TaskPtr} {us : List TaskPtr} (hq : a.links (.wwaiting l) = u :: us)
    (hr : (a.rwlock l).readers = 0) :
    (a.grantWriter l).rwview l = { a.rwview l with
      writer := some u, wwaiting := us, log := .whandoff u :: a.rwlog l } ∧
      ((a.grantWriter l).task u).ready = true := by
  constructor
  · rw [rwview_grantWriter, hq]
    simp [hr, Sys.rwview, Sys.readWriteLock]
  · simp [Sys.grantWriter, hq, hr, Sys.wake, Sys.ready, Sys.enq, Sys.emit, Sys.setTask]

theorem grantWriter_none (h : (a.rwlock l).readers ≠ 0 ∨ a.links (.wwaiting l) = []) :
    a.grantWriter l = a := by
  unfold Sys.grantWriter
  cases hq : a.links (.wwaiting l) with
  | nil => rfl
  | cons u us =>
    have hr : (a.rwlock l).readers ≠ 0 := h.resolve_right (by simp [hq])
    exact if_neg hr

/-- A read hold is released, and others still read or nobody waits to write. -/
theorem rwview_readUnlock (h : (a.rwlock l).readers ≠ 1 ∨ a.links (.wwaiting l) = []) :
    (a.readUnlock l t).rwview l = { a.rwview l with
      readers := (a.rwlock l).readers - 1, log := .rrelease t :: a.rwlog l } := by
  have hreaders : (((a.setReaders l ((a.rwlock l).readers - 1)).emit
      (.rw l (.rrelease t))).rwlock l).readers = (a.rwlock l).readers - 1 :=
    congrArg Lock.readers (rwview_rrelease a l t)
  rw [Sys.readUnlock, grantWriter_none, rwview_rrelease]
  rw [hreaders]
  exact h.imp_left fun hr => by omega

/-- The last read hold is released, and goes on to a writer. -/
theorem rwview_readUnlock_first {u : TaskPtr} {us : List TaskPtr} (hr : (a.rwlock l).readers = 1)
    (hq : a.links (.wwaiting l) = u :: us) :
    (a.readUnlock l t).rwview l = { a.rwview l with
      readers := 0, writer := some u, wwaiting := us
      log := .whandoff u :: .rrelease t :: a.rwlog l } ∧
      ((a.readUnlock l t).task u).ready = true := by
  have hview := rwview_rrelease a l t
  have hreaders : (((a.setReaders l ((a.rwlock l).readers - 1)).emit
      (.rw l (.rrelease t))).rwlock l).readers = 0 :=
    (congrArg Lock.readers hview).trans (by simp [hr])
  obtain ⟨hgrant, hready⟩ := grantWriter_first (l := l) (u := u)
    (a := (a.setReaders l ((a.rwlock l).readers - 1)).emit (.rw l (.rrelease t))) hq hreaders
  refine ⟨?_, hready⟩
  have hlog : ((a.setReaders l ((a.rwlock l).readers - 1)).emit (.rw l (.rrelease t))).rwlog l =
      .rrelease t :: a.rwlog l := congrArg Lock.log hview
  rw [Sys.readUnlock, hgrant, hview, hlog, hr]
  rfl

/-- The write hold is released, and nobody waits. -/
theorem rwview_writeUnlock (hr : a.links (.rwaiting l) = []) (hw : a.links (.wwaiting l) = []) :
    (a.writeUnlock l t).rwview l =
      { a.rwview l with writer := none, log := .wrelease t :: a.rwlog l } := by
  have hnone := grantWriter_none (l := l)
    (a := (a.setWriter l none).emit (.rw l (.wrelease t))) (.inr hw)
  rw [Sys.writeUnlock_nil hr, hnone, rwview_wrelease]

/-- The write hold is released, and goes on to a writer. -/
theorem rwview_writeUnlock_first {u : TaskPtr} {us : List TaskPtr}
    (h0 : (a.rwlock l).readers = 0) (hr : a.links (.rwaiting l) = [])
    (hq : a.links (.wwaiting l) = u :: us) :
    (a.writeUnlock l t).rwview l = { a.rwview l with
      writer := some u, wwaiting := us, log := .whandoff u :: .wrelease t :: a.rwlog l } ∧
      ((a.writeUnlock l t).task u).ready = true := by
  have hview := rwview_wrelease a l t
  have hreaders : (((a.setWriter l none).emit (.rw l (.wrelease t))).rwlock l).readers = 0 :=
    (congrArg Lock.readers hview).trans h0
  obtain ⟨hgrant, hready⟩ := grantWriter_first (l := l) (u := u)
    (a := (a.setWriter l none).emit (.rw l (.wrelease t))) hq hreaders
  have hlog : ((a.setWriter l none).emit (.rw l (.wrelease t))).rwlog l =
      .wrelease t :: a.rwlog l := congrArg Lock.log hview
  rw [Sys.writeUnlock_nil hr]
  exact ⟨by rw [hgrant, hview, hlog], hready⟩

/-- All readers that are let in are ready, and stay so. -/
theorem letIn_ready (us : List TaskPtr) (u : TaskPtr) (h : u ∈ us ∨ (a.task u).ready = true) :
    ((a.letIn l us).task u).ready = true := by
  induction us generalizing a with
  | nil => exact h.resolve_left (by simp)
  | cons v us ih =>
    rw [Sys.letIn]
    apply ih
    by_cases hv : u = v
    · right
      simp [hv, Sys.wake, Sys.ready, Sys.enq, Sys.emit, Sys.setTask]
    · rcases h with h | h
      · exact .inl ((List.mem_cons.mp h).resolve_left hv)
      · right
        simpa [hv, Sys.wake, Sys.ready, Sys.enq, Sys.emit, Sys.setTask, Sys.deq, Sys.setReaders]
          using h

/-- The write hold is released, and all waiting readers get in. -/
theorem rwview_writeUnlock_batch (h0 : (a.rwlock l).readers = 0) (hr : a.links (.rwaiting l) ≠ []) :
    (a.writeUnlock l t).rwview l = { a.rwview l with
      readers := (a.links (.rwaiting l)).length, writer := none, rwaiting := []
      log := admitAll (a.links (.rwaiting l)) (.rbatch :: .wrelease t :: a.rwlog l) } ∧
      ∀ u ∈ a.links (.rwaiting l), ((a.writeUnlock l t).task u).ready = true := by
  obtain ⟨u, us, hq⟩ := List.exists_cons_of_ne_nil hr
  have hbatch := rwview_letIn (l := l) (u :: us) []
    (a := ((a.setWriter l none).emit (.rw l (.wrelease t))).emit (.rw l .rbatch))
    (hq.trans (List.append_nil _).symm)
  rw [Sys.writeUnlock_cons hq]
  refine ⟨?_, fun v hv => letIn_ready _ v (.inl (hq ▸ hv))⟩
  rw [hbatch]
  simp [Sys.rwview, Sys.readWriteLock, Sys.rwlog, Sys.emit, Sys.setWriter, rwEvent, hq, h0]

theorem step_readUnlock (ht : t ∈ readHolders (a.rwlog l)) :
    Step (a.rwview l) ((a.readUnlock l t).rwview l) := by
  by_cases h : (a.rwlock l).readers ≠ 1 ∨ a.links (.wwaiting l) = []
  · rw [rwview_readUnlock h]
    exact .runlock t ht h
  · push Not at h
    obtain ⟨u, us, hq⟩ := List.exists_cons_of_ne_nil h.2
    rw [(rwview_readUnlock_first h.1 hq).1]
    exact .rgrant t u us ht h.1 hq

theorem step_writeUnlock (ht : t ∈ writeHolders (a.rwlog l)) (h0 : (a.rwlock l).readers = 0) :
    Step (a.rwview l) ((a.writeUnlock l t).rwview l) := by
  by_cases hr : a.links (.rwaiting l) = []
  · cases hw : a.links (.wwaiting l) with
    | nil =>
      rw [rwview_writeUnlock hr hw]
      exact .wunlock t ht hr hw
    | cons u us =>
      rw [(rwview_writeUnlock_first h0 hr hw).1]
      exact .wgrant t u us ht hr hw
  · rw [(rwview_writeUnlock_batch h0 hr).1]
    have hs := Step.batch (s := a.rwview l) t ht hr
    simpa only [Sys.rwview, Sys.readWriteLock, h0, zero_add] using hs

theorem RWMove.rwview (hI : Inv a pl) (m : RWMove lab a b)
    (hlab : ∀ c, lab = some c → RWClient l a c) :
    b.rwview l = a.rwview l ∨ Step (a.rwview l) (b.rwview l) := by
  have hother : ∀ {c d : Sys Queues} {l' : ℕ}, LockOps (.rwlock l') c d → l' ≠ l →
      SameAt (.rwlock l) c d := fun h hl => h.sameAt (by simpa using hl)
  have hgranted : ∀ {u : TaskPtr} {c : Context}, a.Resuming u c → c.granted a u := by
    intro u c h
    have hg := hI.fits u _ (hI.resuming h)
    rw [← h.2.2]
    exact hg
  cases m with
  | @rback _ t l' h =>
    by_cases hl : l' = l
    · subst hl
      have hs := Step.rback (s := a.rwview l') t (hgranted h)
      right
      simpa [Sys.rwview, Sys.readWriteLock, Sys.rwlog, Sys.emit, rwEvent] using hs
    · exact .inl (SameAt.rwview ((hother (.single (.emit (.rw l' _) rfl)) hl).control _))
  | @wback _ t l' h =>
    by_cases hl : l' = l
    · subst hl
      have hs := Step.wback (s := a.rwview l') t (hgranted h)
      right
      simpa [Sys.rwview, Sys.readWriteLock, Sys.rwlog, Sys.emit, rwEvent] using hs
    · exact .inl (SameAt.rwview ((hother (.single (.emit (.rw l' _) rfl)) hl).control _))
  | @racquire _ t l' _ h hw hq =>
    by_cases hl : l' = l
    · subst hl
      have hs := Step.racquire (s := a.rwview l') t hw hq
      right
      simpa [Sys.rwview, Sys.readWriteLock, Sys.rwlog, Sys.emit, Sys.setReaders, rwEvent] using hs
    · exact .inl (SameAt.rwview (hother (.tail (.single (.setReaders l' _ rfl))
        (.emit (.rw l' _) rfl)) hl))
  | @rblock _ t l' h hw =>
    by_cases hl : l' = l
    · subst hl
      have ht : t ∉ a.links (.rwaiting l') := hI.off_lists (hI.user h) (.inl rfl) _
      have hs := Step.rblock (s := a.rwview l') t ht hw
      right
      simpa [Sys.rwview, Sys.readWriteLock, Sys.rwlog, Sys.emit, Sys.enq, Sys.switch, Sys.setTask,
        rwEvent] using hs
    · exact .inl (SameAt.rwview ((hother (.tail (.single (.emit (.rw l' _) rfl))
        (.enq _ t rfl)) hl).switch _ t))
  | @runlock _ t l' h =>
    by_cases hl : l' = l
    · subst hl
      have ht := hlab _ rfl rfl
      rw [h.1] at ht
      exact .inr (step_readUnlock (by simpa using ht))
    · exact .inl (SameAt.rwview (hother (lockOps_readUnlock a l' t) hl))
  | @wacquire _ t l' h hw hr =>
    by_cases hl : l' = l
    · subst hl
      have hs := Step.wacquire (s := a.rwview l') t hw hr
      right
      simpa [Sys.rwview, Sys.readWriteLock, Sys.rwlog, Sys.emit, Sys.setWriter, rwEvent] using hs
    · exact .inl (SameAt.rwview (hother (.tail (.single (.setWriter l' _ rfl))
        (.emit (.rw l' _) rfl)) hl))
  | @wblock _ t l' h hw =>
    by_cases hl : l' = l
    · subst hl
      have ht : t ∉ a.links (.wwaiting l') := hI.off_lists (hI.user h) (.inl rfl) _
      have hs := Step.wblock (s := a.rwview l') t ht hw
      right
      simpa [Sys.rwview, Sys.readWriteLock, Sys.rwlog, Sys.emit, Sys.enq, Sys.switch, Sys.setTask,
        rwEvent] using hs
    · exact .inl (SameAt.rwview ((hother (.tail (.single (.emit (.rw l' _) rfl))
        (.enq _ t rfl)) hl).switch _ t))
  | @wunlock _ t l' h hw hr =>
    by_cases hl : l' = l
    · subst hl
      have ht := hlab _ rfl rfl
      rw [h.1] at ht
      exact .inr (step_writeUnlock (by simpa using ht) hr)
    · exact .inl (SameAt.rwview (hother (lockOps_writeUnlock a l' t) hl))

/-- The call keeps to the rules of `l`, and takes a read hold only where the `int` that counts
these can still grow. -/
def RWFew {σ : Type} (l : ℕ) (s : Sys σ) (c : Call) : Prop :=
  RWClient l s c ∧ (c = .rlock l ∨ c = .canrlock l → (s.rwlock l).readers < 2 ^ 31 - 1)

/-- No move makes the count of readers larger than an `int`. -/
theorem RWMove.readers_le (hI : Inv a pl) (hA : Aligned a) (h : (a.rwlock l).readers ≤ 2 ^ 31 - 1)
    (m : RWMove lab a b) (hlab : ∀ c, lab = some c → RWFew l a c) :
    (b.rwlock l).readers ≤ 2 ^ 31 - 1 := by
  have hother : ∀ {d : Sys Queues} {l' : ℕ}, LockOps (.rwlock l') a d → l' ≠ l →
      (d.rwlock l).readers ≤ 2 ^ 31 - 1 := by
    intro d l' hd hl
    rw [(hd.sameAt (o := .rwlock l) (by simpa using hl)).rwlock l rfl]
    exact h
  cases m with
  | rback | wback | rblock | wblock => exact h
  | @racquire _ t l' c _ hw hq hc =>
    by_cases hl : l' = l
    · subst hl
      have hlt := (hlab c rfl).2 hc
      simp only [Sys.setReaders, Sys.emit, update_self]
      omega
    · exact hother (.tail (.single (.setReaders l' _ rfl)) (.emit (.rw l' _) rfl)) hl
  | @wacquire _ t l' =>
    by_cases hl : l' = l
    · subst hl
      simpa [Sys.setWriter, Sys.emit] using h
    · exact hother (.tail (.single (.setWriter l' _ rfl)) (.emit (.rw l' _) rfl)) hl
  | @runlock _ t l' =>
    by_cases hl : l' = l
    · subst hl
      by_cases hn : (a.rwlock l').readers ≠ 1 ∨ a.links (.wwaiting l') = []
      · have hreaders : ((a.readUnlock l' t).rwlock l').readers = (a.rwlock l').readers - 1 :=
          congrArg Lock.readers (rwview_readUnlock hn)
        omega
      · push Not at hn
        obtain ⟨u, us, hq⟩ := List.exists_cons_of_ne_nil hn.2
        have hreaders : ((a.readUnlock l' t).rwlock l').readers = 0 :=
          congrArg Lock.readers (rwview_readUnlock_first hn.1 hq).1
        omega
    · exact hother (lockOps_readUnlock a l' t) hl
  | @wunlock _ t l' hu hw h0 =>
    by_cases hl : l' = l
    · subst hl
      by_cases hr : a.links (.rwaiting l') = []
      · cases hq : a.links (.wwaiting l') with
        | nil => exact (congrArg Lock.readers (rwview_writeUnlock (t := t) hr hq)).le.trans h
        | cons u us =>
          exact (congrArg Lock.readers (rwview_writeUnlock_first (t := t) h0 hr hq).1).le.trans h
      · -- those let in are as many as waited, all of them blocks of their own
        have hoff := hI.off_lists (hI.user hu) (.inl rfl) (.rwaiting l')
        have hlen := length_lt_of_aligned
          (List.nodup_cons.mpr ⟨hoff, hI.placed.nodup_list (.rwaiting l')⟩) (by
            intro u hu'
            rcases List.mem_cons.mp hu' with rfl | hu'
            · exact hA u (hI.mem_live (hI.user hu))
            · exact hA u (hI.mem_live (hI.placed.mem_list.mp hu')))
        have hreaders : ((a.writeUnlock l' t).rwlock l').readers =
            (a.links (.rwaiting l')).length :=
          congrArg Lock.readers (rwview_writeUnlock_batch h0 hr).1
        omega
    · exact hother (lockOps_writeUnlock a l' t) hl

theorem ReachedBy.readers_le (h : ReachedBy (RWFew l) a) : (a.rwlock l).readers ≤ 2 ^ 31 - 1 := by
  induction h using Reach.induct with
  | init h =>
    obtain ⟨P, rfl⟩ := h
    show (0 : ℤ) ≤ 2 ^ 31 - 1
    decide
  | step h hs ih =>
    obtain ⟨pl, hI⟩ := ReachedBy.inv h
    obtain ⟨_, m, hlab⟩ := hs
    rcases m.plain_or hI with hp | hq | hrw
    · rw [hp.rwlock]
      exact ih
    · rw [(hq.sameAt (l := l)).rwlock l rfl]
      exact ih
    · exact hrw.readers_le hI (ReachedBy.aligned h) ih hlab

/-- What is known of the lock `l` whenever its clients keep to its rules. -/
structure RWState (l : ℕ) (a : Sys Queues) : Prop where
  exclusive : Exclusive (a.rwview l)
  orderly : Orderly (a.rwview l)
  bounded : Bounded (a.rwview l)

theorem RWState.move (hI : Inv a pl) (h : RWState l a) (m : Move lab a b)
    (hlab : ∀ c, lab = some c → RWClient l a c) : RWState l b := by
  have hview : b.rwview l = a.rwview l ∨ Step (a.rwview l) (b.rwview l) := by
    rcases m.plain_or hI with hp | hq | hrw
    · exact .inl (hp.sameAt _).rwview
    · exact .inl hq.sameAt.rwview
    · exact hrw.rwview hI hlab
  rcases hview with hsame | hstep
  · constructor
    · rw [hsame]
      exact h.exclusive
    · rw [hsame]
      exact h.orderly
    · rw [hsame]
      exact h.bounded
  · constructor
    · exact hstep.exclusive h.exclusive
    · exact hstep.orderly h.exclusive h.orderly
    · exact hstep.bounded h.exclusive h.orderly h.bounded

theorem ReachedBy.rwState (h : ReachedBy (RWClient l) a) : RWState l a := by
  induction h using Reach.induct with
  | init h =>
    obtain ⟨P, rfl⟩ := h
    exact ⟨exclusive_init, orderly_init, bounded_init⟩
  | step h hs ih =>
    obtain ⟨pl, hI⟩ := ReachedBy.inv h
    obtain ⟨_, m, hlab⟩ := hs
    exact ih.move hI m hlab

theorem ReachableBy.rwState {s : Sys Links} (h : ReachableBy (RWClient l) s) :
    ∃ a pl, Inv a pl ∧ RWState l a ∧ Sim s a := by
  have hclient : ∀ (s : Sys Links) (a : Sys Queues) c, Sim s a → RWClient l s c →
      RWClient l a c := by
    intro s a c hs hc
    obtain ⟨q, hq, rfl⟩ := hs
    exact hc
  obtain ⟨a, ha, hs⟩ := ReachableBy.sim hclient h
  obtain ⟨pl, hI⟩ := ha.inv
  exact ⟨a, pl, hI, ha.rwState, hs⟩

end

/-- What the program shows of the lock: its fields, its two lists and its history. -/
structure Shows (l : ℕ) (s : Sys Links) (v : Lock TaskPtr) : Prop where
  rlist : WellLinked s.links (.rwaiting l) v.rwaiting
  wlist : WellLinked s.links (.wwaiting l) v.wwaiting
  lock : s.readWriteLock l v.rwaiting v.wwaiting = v

/-- What a call for the lock `v` by `t` does at once. The caller is back with 1 if and only if it
got a hold; `canrlock` and `canwlock` are back with 0 and did nothing; an unlock ends one hold of
the caller, and gives the lock to all who wait to read or to the first who waits to write. -/
structure RWLockCalls (l : ℕ) (t : TaskPtr) (v : Lock TaskPtr) (s : Sys Links) : Prop where
  reads : v.writer = none ∧ v.wwaiting = [] → ∀ e c s', c = .rlock l ∨ c = .canrlock l →
    step (e, .call c) s = some s' →
    s'.control = .user ∧ s'.log = .ret t 1 :: .rw l (.racquire t) :: s.log ∧
      Shows l s' { v with readers := v.readers + 1, log := .racquire t :: v.log }
  rwaits : ¬(v.writer = none ∧ v.wwaiting = []) → ∀ e s',
    step (e, .call (.rlock l)) s = some s' →
    s'.control = .scheduler ∧ (s'.task t).context = .rlock l ∧
      s'.log = .rw l (.rblock t) :: s.log ∧
      Shows l s' { v with rwaiting := v.rwaiting ++ [t], log := .rblock t :: v.log }
  rfails : ¬(v.writer = none ∧ v.wwaiting = []) → ∀ e s',
    step (e, .call (.canrlock l)) s = some s' → s' = s.emit (.ret t 0)
  writes : v.writer = none ∧ v.readers = 0 → ∀ e c s', c = .wlock l ∨ c = .canwlock l →
    step (e, .call c) s = some s' →
    s'.control = .user ∧ s'.log = .ret t 1 :: .rw l (.wacquire t) :: s.log ∧
      Shows l s' { v with writer := some t, log := .wacquire t :: v.log }
  wwaits : ¬(v.writer = none ∧ v.readers = 0) → ∀ e s', step (e, .call (.wlock l)) s = some s' →
    s'.control = .scheduler ∧ (s'.task t).context = .wlock l ∧
      s'.log = .rw l (.wblock t) :: s.log ∧
      Shows l s' { v with wwaiting := v.wwaiting ++ [t], log := .wblock t :: v.log }
  wfails : ¬(v.writer = none ∧ v.readers = 0) → ∀ e s',
    step (e, .call (.canwlock l)) s = some s' → s' = s.emit (.ret t 0)
  runlocks : t ∈ readHolders v.log → ∀ e s', step (e, .call (.runlock l)) s = some s' →
    s'.control = .user ∧ readHolders (s'.rwlog l) = (readHolders v.log).erase t ∧
      (v.readers ≠ 1 ∨ v.wwaiting = [] →
        Shows l s' { v with readers := v.readers - 1, log := .rrelease t :: v.log }) ∧
      ∀ u us, v.readers = 1 → v.wwaiting = u :: us → (s'.task u).ready = true ∧
        Shows l s' { v with
          readers := 0, writer := some u, wwaiting := us
          log := .whandoff u :: .rrelease t :: v.log }
  wunlocks : t ∈ writeHolders v.log → ∀ e s', step (e, .call (.wunlock l)) s = some s' →
    s'.control = .user ∧
      (v.rwaiting = [] → v.wwaiting = [] →
        Shows l s' { v with writer := none, log := .wrelease t :: v.log }) ∧
      (∀ u us, v.rwaiting = [] → v.wwaiting = u :: us → (s'.task u).ready = true ∧
        Shows l s' { v with
          writer := some u, wwaiting := us, log := .whandoff u :: .wrelease t :: v.log }) ∧
      (v.rwaiting ≠ [] → (∀ u ∈ v.rwaiting, (s'.task u).ready = true) ∧
        Shows l s' { v with
          readers := v.rwaiting.length, writer := none, rwaiting := []
          log := admitAll v.rwaiting (.rbatch :: .wrelease t :: v.log) })

section
variable {l : ℕ} {s s' : Sys Links} {a b : Sys Queues} {pl : Placement} {t : TaskPtr} {e : Env}

theorem Sim.shows (h : Sim s a) (l : ℕ) : Shows l s (a.rwview l) where
  rlist := h.wellLinked _
  wlist := h.wellLinked _
  lock := by
    obtain ⟨q, hq, rfl⟩ := h
    rfl

theorem Sim.shows_of_eq {v : Lock TaskPtr} (h : Sim s a) (hv : a.rwview l = v) : Shows l s v :=
  hv ▸ h.shows l

theorem rlock_step (h : Sim s a) (hI : Inv a pl) (ht : s.taskrunning = some t)
    (hc : s.control = .user) (block : Bool)
    (hs : step (e, .call (if block then .rlock l else .canrlock l)) s = some s') :
    ((s.rwlock l).writer = none ∧ a.links (.wwaiting l) = [] → s'.control = .user ∧
      s'.log = .ret t 1 :: .rw l (.racquire t) :: s.log ∧
      Shows l s' { a.rwview l with
        readers := (a.rwlock l).readers + 1, log := .racquire t :: a.rwlog l }) ∧
    (¬((s.rwlock l).writer = none ∧ a.links (.wwaiting l) = []) →
      if block then s'.control = .scheduler ∧ (s'.task t).context = .rlock l ∧
        s'.log = .rw l (.rblock t) :: s.log ∧
        Shows l s' { a.rwview l with
          rwaiting := a.links (.rwaiting l) ++ [t], log := .rblock t :: a.rwlog l }
      else s' = s.emit (.ret t 0)) := by
  have hu : a.User t := by
    obtain ⟨q, hq, rfl⟩ := h
    exact ⟨ht, hc⟩
  have hs' : s' = finish t s (.ok (rlockWith l block t s)) := by
    rw [step_call ht hs]
    cases block <;> rfl
  obtain ⟨hw, s₁, heq, hs₁⟩ | ⟨hw, rfl, heq⟩ | ⟨hw, rfl, s₁, heq, hs₁⟩ :=
    rlockWith_cases (l := l) h hI hu block
  · refine ⟨fun _ => ?_, fun hn => absurd hw hn⟩
    rw [hs', heq]
    refine ⟨rfl, ?_, (hs₁.setControl .user).emit (.ret t 1) |>.shows_of_eq ?_⟩
    · show .ret t 1 :: s₁.log = _
      rw [← hs₁.log, ← h.log]
      rfl
    · simp [Sys.rwview, Sys.readWriteLock, Sys.rwlog, Sys.emit, Sys.setReaders, rwEvent,
        List.filterMap_cons]
  · refine ⟨fun hp => absurd hp hw, fun _ => ?_⟩
    rw [hs', heq, finish, ← hc]
    rfl
  · refine ⟨fun hp => absurd hp hw, fun _ => ?_⟩
    rw [hs', heq]
    refine ⟨hs₁.control, ?_, ?_, hs₁.shows_of_eq ?_⟩
    · show (s₁.task t).context = .rlock l
      simp [hs₁.task]
    · show s₁.log = _
      rw [← hs₁.log, ← h.log]
      rfl
    · simp [Sys.rwview, Sys.readWriteLock, Sys.rwlog, Sys.emit, Sys.enq, Sys.switch, Sys.setTask,
        rwEvent]

theorem wlock_step (h : Sim s a) (hI : Inv a pl) (ht : s.taskrunning = some t)
    (hc : s.control = .user) (block : Bool)
    (hs : step (e, .call (if block then .wlock l else .canwlock l)) s = some s') :
    ((s.rwlock l).writer = none ∧ (s.rwlock l).readers = 0 → s'.control = .user ∧
      s'.log = .ret t 1 :: .rw l (.wacquire t) :: s.log ∧
      Shows l s' { a.rwview l with writer := some t, log := .wacquire t :: a.rwlog l }) ∧
    (¬((s.rwlock l).writer = none ∧ (s.rwlock l).readers = 0) →
      if block then s'.control = .scheduler ∧ (s'.task t).context = .wlock l ∧
        s'.log = .rw l (.wblock t) :: s.log ∧
        Shows l s' { a.rwview l with
          wwaiting := a.links (.wwaiting l) ++ [t], log := .wblock t :: a.rwlog l }
      else s' = s.emit (.ret t 0)) := by
  have hu : a.User t := by
    obtain ⟨q, hq, rfl⟩ := h
    exact ⟨ht, hc⟩
  have hs' : s' = finish t s (.ok (wlockWith l block t s)) := by
    rw [step_call ht hs]
    cases block <;> rfl
  obtain ⟨hw, s₁, heq, hs₁⟩ | ⟨hw, rfl, heq⟩ | ⟨hw, rfl, s₁, heq, hs₁⟩ :=
    wlockWith_cases (l := l) h hI hu block
  · refine ⟨fun _ => ?_, fun hn => absurd hw hn⟩
    rw [hs', heq]
    refine ⟨rfl, ?_, (hs₁.setControl .user).emit (.ret t 1) |>.shows_of_eq ?_⟩
    · show .ret t 1 :: s₁.log = _
      rw [← hs₁.log, ← h.log]
      rfl
    · simp [Sys.rwview, Sys.readWriteLock, Sys.rwlog, Sys.emit, Sys.setWriter, rwEvent,
        List.filterMap_cons]
  · refine ⟨fun hp => absurd hp hw, fun _ => ?_⟩
    rw [hs', heq, finish, ← hc]
    rfl
  · refine ⟨fun hp => absurd hp hw, fun _ => ?_⟩
    rw [hs', heq]
    refine ⟨hs₁.control, ?_, ?_, hs₁.shows_of_eq ?_⟩
    · show (s₁.task t).context = .wlock l
      simp [hs₁.task]
    · show s₁.log = _
      rw [← hs₁.log, ← h.log]
      rfl
    · simp [Sys.rwview, Sys.readWriteLock, Sys.rwlog, Sys.emit, Sys.enq, Sys.switch, Sys.setTask,
        rwEvent]

theorem rwLockCalls (h : Sim s a) (hI : Inv a pl) (hstate : RWState l a)
    (ht : s.taskrunning = some t) (hc : s.control = .user) :
    RWLockCalls l t (a.rwview l) s := by
  have hwriter : (a.rwlock l).writer = (s.rwlock l).writer := by rw [h.rwlock]
  have hreaders : (a.rwlock l).readers = (s.rwlock l).readers := by rw [h.rwlock]
  constructor
  case reads =>
    intro hw e c s' hcall hs
    rcases hcall with rfl | rfl
    · exact (rlock_step h hI ht hc true hs).1 ⟨hwriter ▸ hw.1, hw.2⟩
    · exact (rlock_step h hI ht hc false hs).1 ⟨hwriter ▸ hw.1, hw.2⟩
  case rwaits =>
    intro hw e s' hs
    exact (rlock_step h hI ht hc true hs).2 fun hp => hw ⟨hwriter.trans hp.1, hp.2⟩
  case rfails =>
    intro hw e s' hs
    exact (rlock_step h hI ht hc false hs).2 fun hp => hw ⟨hwriter.trans hp.1, hp.2⟩
  case writes =>
    intro hw e c s' hcall hs
    rcases hcall with rfl | rfl
    · exact (wlock_step h hI ht hc true hs).1 ⟨hwriter ▸ hw.1, hreaders ▸ hw.2⟩
    · exact (wlock_step h hI ht hc false hs).1 ⟨hwriter ▸ hw.1, hreaders ▸ hw.2⟩
  case wwaits =>
    intro hw e s' hs
    exact (wlock_step h hI ht hc true hs).2 fun hp =>
      hw ⟨hwriter.trans hp.1, hreaders.trans hp.2⟩
  case wfails =>
    intro hw e s' hs
    exact (wlock_step h hI ht hc false hs).2 fun hp =>
      hw ⟨hwriter.trans hp.1, hreaders.trans hp.2⟩
  case runlocks =>
    intro hmem e s' hs
    have hsim : Sim s' { a.readUnlock l t with control := .user } := by
      rw [step_call ht hs]
      exact (sim_runlock h t).setControl .user
    have hlog : s'.rwlog l = (a.readUnlock l t).rwlog l := by rw [Sys.rwlog, ← hsim.log]; rfl
    refine ⟨hsim.control, ?_, fun hn => hsim.shows_of_eq (rwview_readUnlock hn), ?_⟩
    · rw [hlog]
      by_cases hn : (a.rwlock l).readers ≠ 1 ∨ a.links (.wwaiting l) = []
      · rw [show (a.readUnlock l t).rwlog l = _ from congrArg Lock.log (rwview_readUnlock hn)]
        rfl
      · push Not at hn
        obtain ⟨u, us, hq⟩ := List.exists_cons_of_ne_nil hn.2
        rw [show (a.readUnlock l t).rwlog l = _ from
          congrArg Lock.log (rwview_readUnlock_first hn.1 hq).1]
        rfl
    · intro u us hr hq
      obtain ⟨hview, hready⟩ := rwview_readUnlock_first (l := l) (t := t) hr hq
      refine ⟨?_, hsim.shows_of_eq hview⟩
      rw [hsim.task]
      exact hready
  case wunlocks =>
    intro hmem e s' hs
    have hw : (a.rwlock l).writer = some t := hstate.exclusive.holder hmem
    have hne : (a.rwlock l).writer ≠ none := by simp [hw]
    have hzero : (a.rwlock l).readers = 0 := hstate.exclusive.excl hne
    obtain ⟨s₁, hok, hs₁⟩ := sim_wunlock (t := t) h hI hne hzero
    have hres : call e (.wunlock l) t s = .ok (s₁, .void) := by
      simp only [call, hok]
      rfl
    have hsim : Sim s' { a.writeUnlock l t with control := .user } := by
      rw [step_call ht hs, hres]
      exact hs₁.setControl .user
    refine ⟨hsim.control, fun hr hq => hsim.shows_of_eq (rwview_writeUnlock hr hq), ?_, ?_⟩
    · intro u us hr hq
      obtain ⟨hview, hready⟩ := rwview_writeUnlock_first (l := l) (t := t) hzero hr hq
      refine ⟨?_, hsim.shows_of_eq hview⟩
      rw [hsim.task]
      exact hready
    · intro hr
      obtain ⟨hview, hready⟩ := rwview_writeUnlock_batch (l := l) (t := t) hzero hr
      refine ⟨fun u hu => ?_, hsim.shows_of_eq hview⟩
      rw [hsim.task]
      exact hready u hu

/-- A blocked call goes on only where the lock was granted to it, and then returns. -/
theorem rwlock_resumed (h : Sim s a) (hI : Inv a pl) (ht : s.taskrunning = some t)
    (hc : s.control = .resume) :
    ((s.task t).context = .rlock l → .rhandoff t ∈ since (.rblock t) (s.rwlog l) ∧
      ∀ e s', step (e, .resume) s = some s' → s'.control = .user ∧ s'.rwlock = s.rwlock ∧
        s'.log = .ret t 1 :: .rw l (.rback t) :: s.log) ∧
    ((s.task t).context = .wlock l → .whandoff t ∈ since (.wblock t) (s.rwlog l) ∧
      ∀ e s', step (e, .resume) s = some s' → s'.control = .user ∧ s'.rwlock = s.rwlock ∧
        s'.log = .ret t 1 :: .rw l (.wback t) :: s.log) := by
  obtain ⟨q, hq, rfl⟩ := h
  have hres : (s.withLinks q).Resuming t (s.task t).context := ⟨ht, hc, rfl⟩
  have hgranted : (s.task t).context.granted (s.withLinks q) t := hI.fits t _ (hI.resuming hres)
  constructor
  · intro hx
    rw [hx] at hgranted
    refine ⟨hgranted, fun e s' hs => ?_⟩
    have hback : resume e t s = .ok (s.emit (.rw l (.rback t)), .value 1) := by
      simp only [resume, hx]
    rw [step_resume ht hs, hback]
    exact ⟨rfl, rfl, rfl⟩
  · intro hx
    rw [hx] at hgranted
    refine ⟨hgranted, fun e s' hs => ?_⟩
    have hback : resume e t s = .ok (s.emit (.rw l (.wback t)), .value 1) := by
      simp only [resume, hx]
    rw [step_resume ht hs, hback]
    exact ⟨rfl, rfl, rfl⟩

end

/-- Readers and writers exclude each other: the lock knows its holds, a call is back in user code
only with a hold of its own or with the lock as it was, and the writer can always release. The
count of readers stays an `int` in a run that never asks for a hold beyond that. -/
structure ReadWriteExclusion (l : ℕ) (s : Sys Links) : Prop where
  readers : (s.rwlock l).readers = (readHolders (s.rwlog l)).length
  writer : writeHolders (s.rwlog l) = (s.rwlock l).writer.toList
  excl : writeHolders (s.rwlog l) ≠ [] → readHolders (s.rwlog l) = []
  returns : ∀ newer e older, s.rwlog l = newer ++ e :: older → ∀ t,
    (e = .rback t → .rblock t ∈ older ∧ .rhandoff t ∈ since (.rblock t) older) ∧
    (e = .wback t → .wblock t ∈ older ∧ .whandoff t ∈ since (.wblock t) older)
  unlocks : ∀ t e s', s.taskrunning = some t → s.control = .user →
    t ∈ writeHolders (s.rwlog l) → step (e, .call (.wunlock l)) s = some s' → s'.control = .user
  calls : ∃ v, Shows l s v ∧
    ∀ t, s.taskrunning = some t → s.control = .user → RWLockCalls l t v s
  back : ∀ t, s.taskrunning = some t → s.control = .resume →
    ((s.task t).context = .rlock l → .rhandoff t ∈ since (.rblock t) (s.rwlog l) ∧
      ∀ e s', step (e, .resume) s = some s' → s'.control = .user ∧ s'.rwlock = s.rwlock ∧
        s'.log = .ret t 1 :: .rw l (.rback t) :: s.log) ∧
    ((s.task t).context = .wlock l → .whandoff t ∈ since (.wblock t) (s.rwlog l) ∧
      ∀ e s', step (e, .resume) s = some s' → s'.control = .user ∧ s'.rwlock = s.rwlock ∧
        s'.log = .ret t 1 :: .rw l (.wback t) :: s.log)
  int : ReachableBy (RWFew l) s → 0 ≤ (s.rwlock l).readers ∧ (s.rwlock l).readers ≤ 2 ^ 31 - 1

theorem rwlock_exclusion {l : ℕ} {s : Sys Links} (h : ReachableBy (RWClient l) s) :
    ReadWriteExclusion l s := by
  obtain ⟨a, pl, hI, hstate, hs⟩ := h.rwState
  have hsame : a.rwlock = s.rwlock ∧ a.rwlog l = s.rwlog l := by
    obtain ⟨q, hq, rfl⟩ := hs
    exact ⟨rfl, rfl⟩
  have hreaders : (a.rwlock l).readers = (readHolders (a.rwlog l)).length :=
    hstate.exclusive.readers
  have hwriter : writeHolders (a.rwlog l) = (a.rwlock l).writer.toList := hstate.exclusive.writer
  rw [hsame.1, hsame.2] at hreaders hwriter
  constructor
  case readers => exact hreaders
  case writer => exact hwriter
  case excl =>
    intro hne
    have hw : (s.rwlock l).writer ≠ none := by
      intro hw
      rw [hwriter, hw] at hne
      exact hne rfl
    have hzero : (a.rwlock l).readers = 0 := hstate.exclusive.excl (by
      show (a.rwlock l).writer ≠ none
      rwa [hsame.1])
    rw [hsame.1, hreaders] at hzero
    exact List.eq_nil_of_length_eq_zero (by omega)
  case returns =>
    intro newer e older hlog t
    have hserved := hstate.bounded.served newer e older (hsame.2.trans hlog)
    constructor
    · rintro rfl
      exact hserved
    · rintro rfl
      exact hserved
  case unlocks =>
    intro t e s' ht hc hmem hst
    rw [← hsame.2] at hmem
    exact ((rwLockCalls hs hI hstate ht hc).wunlocks hmem e s' hst).1
  case calls => exact ⟨a.rwview l, hs.shows l, fun t ht hc => rwLockCalls hs hI hstate ht hc⟩
  case back => exact fun t ht hc => rwlock_resumed hs hI ht hc
  case int =>
    intro hfew
    refine ⟨by omega, ?_⟩
    have hok : ∀ (s : Sys Links) (a : Sys Queues) c, Sim s a → RWFew l s c → RWFew l a c := by
      intro s a c hs hc
      obtain ⟨q, hq, rfl⟩ := hs
      exact hc
    obtain ⟨b, hb, hsb⟩ := hfew.sim hok
    rw [hsb.rwlock]
    exact hb.readers_le

/-- Nobody waits for a lock that is free, whoever waits is served in its turn, and a call that
does not get the lock takes its place at the end of the line. -/
structure ReadWriteProgress (l : ℕ) (s : Sys Links) (rs ws : List TaskPtr) : Prop where
  rlist : WellLinked s.links (.rwaiting l) rs
  wlist : WellLinked s.links (.wwaiting l) ws
  orderly : Orderly (s.readWriteLock l rs ws)
  free : (s.rwlock l).writer = none → (s.rwlock l).readers = 0 → rs = [] ∧ ws = []
  bounded : Bounded (s.readWriteLock l rs ws)
  calls : ∀ t, s.taskrunning = some t → s.control = .user →
    RWLockCalls l t (s.readWriteLock l rs ws) s

theorem rwlock_progress {l : ℕ} {s : Sys Links} (h : ReachableBy (RWClient l) s) :
    ∃ rs ws, ReadWriteProgress l s rs ws := by
  obtain ⟨a, _, hI, hstate, hs⟩ := h.rwState
  have hcalls : ∀ t, s.taskrunning = some t → s.control = .user →
      RWLockCalls l t (a.rwview l) s := fun t ht hc => rwLockCalls hs hI hstate ht hc
  obtain ⟨q, hq, rfl⟩ := hs
  refine ⟨q (.rwaiting l), q (.wwaiting l), ?_⟩
  constructor
  case rlist => exact wellLinked_of_isList (hq.isList _)
  case wlist => exact wellLinked_of_isList (hq.isList _)
  case orderly => exact hstate.orderly
  case free =>
    intro hw hr
    obtain ⟨hws, hrs⟩ := hstate.orderly.free hw hr.le
    exact ⟨hrs, hws⟩
  case bounded => exact hstate.bounded
  case calls => exact hcalls

/-- While the first task writes, the task it created queues to read and is let in. -/
def rwlockRun : List (Env × Action) :=
  [(.still 0, .schedule), (.still 0, .resume), (.still 8192, .call (.taskcreate .user)),
    (.still 0, .call (.wlock 0)), (.still 0, .call .taskyield), (.still 0, .schedule),
    (.still 0, .resume), (.still 0, .call (.rlock 0)), (.still 0, .schedule),
    (.still 0, .resume), (.still 0, .call (.wunlock 0)), (.still 0, .call .taskyield),
    (.still 0, .schedule), (.still 0, .resume)]

theorem rwlock_exclusion_small : ∃ s, Program.small.after (RWClient 0) rwlockRun = some s ∧
    readHolders (s.rwlog 0) = [8192] ∧ ReadWriteExclusion 0 s := by
  have hrun : (Program.small.after (RWClient 0) rwlockRun).map (fun s => readHolders (s.rwlog 0)) =
      some [8192] := by decide
  obtain ⟨s, hs, hread⟩ := Option.map_eq_some_iff.mp hrun
  exact ⟨s, hs, hread, rwlock_exclusion (Program.reachableBy_after hs)⟩

theorem rwlock_progress_small : ∃ s, Program.small.after (RWClient 0) rwlockRun = some s ∧
    batches (s.rwlog 0) = 1 ∧ ∃ rs ws, ReadWriteProgress 0 s rs ws := by
  have hrun : (Program.small.after (RWClient 0) rwlockRun).map (fun s => batches (s.rwlog 0)) =
      some 1 := by decide
  obtain ⟨s, hs, hbatch⟩ := Option.map_eq_some_iff.mp hrun
  exact ⟨s, hs, hbatch, rwlock_progress (Program.reachableBy_after hs)⟩

end Libtask
