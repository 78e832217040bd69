import Libtask.Abstract.LockOps
import Libtask.Refine.Walk

/-! Locks and rendezvous points: every call is a walk of the abstract machine. -/
namespace Libtask
open Function

section Locks
variable {s : Sys Links} {a : Sys Queues} {pl : Placement} {t : TaskPtr} {l : ℕ}

/-- How `qlock`, and `canqlock` with `block` false, end: the caller gets 1 with a free lock, 0 if
the lock is left as it is, or waits at the end of the line. -/
theorem qlockWith_cases (h : Sim s a) (hI : Inv a pl) (ht : a.User t) (block : Bool) :
    ((s.qlock l).owner = none ∧ ∃ s', qlockWith l block (.qlock l) t s = (s', .value 1) ∧
      Sim s' ((a.setOwner l (some t)).emit (.q l (.acquire t)))) ∨
    ((s.qlock l).owner ≠ none ∧ block = false ∧
      qlockWith l block (.qlock l) t s = (s, .value 0)) ∨
    ((s.qlock l).owner ≠ none ∧ block = true ∧
      ∃ s', qlockWith l block (.qlock l) t s = (s', .switched) ∧
        Sim s' (((a.emit (.q l (.block t))).enq (.qwaiting l) t).switch (.qlock l) t)) := by
  unfold qlockWith
  by_cases ho : (s.qlock l).owner = none
  · rw [if_pos ho]
    exact .inl ⟨ho, _, rfl, (h.setOwner l _).emit _⟩
  · rw [if_neg ho]
    cases block with
    | false => exact .inr (.inl ⟨ho, rfl, rfl⟩)
    | true =>
      have hswitch := ((h.emit (.q l (.block t))).addtask (k := .qwaiting l)
        (hI.off_lists (hI.user ht) (.inl rfl))).taskswitch (.qlock l) (hI.not_exiting (hI.user ht))
      exact .inr (.inr ⟨ho, rfl, _, rfl, hswitch⟩)

theorem walks_qlockWith (h : Sim s a) (hI : Inv a pl) (ht : a.User t) (block : Bool) :
    Walks none a (finish t s (.ok (qlockWith l block (.qlock l) t s))) := by
  obtain ⟨ho, s', heq, hs'⟩ | ⟨_, _, heq⟩ | ⟨ho, _, s', heq, hs'⟩ :=
    qlockWith_cases (l := l) h hI ht block
  · rw [heq]
    rw [h.qlock] at ho
    exact finish_value (.one (.queuing (.qacquire ht ho))) hs' ht.2
  · rw [heq]
    exact finish_value (.refl _ a) h ht.2
  · rw [heq]
    rw [h.qlock] at ho
    exact finish_switched (.one (.queuing (.qblock (.inl ⟨ht, rfl⟩) ho))) hs'

theorem sim_unlock (h : Sim s a) (ho : (a.qlock l).owner ≠ none) :
    ∃ s', qunlock l t s = .ok s' ∧ Sim s' (a.unlock l t) := by
  have howner : (s.qlock l).owner ≠ none := by rwa [h.qlock]
  have hhead : ∀ o, head (.qwaiting l) ((s.emit (.q l (.release t))).setOwner l o) =
      (a.links (.qwaiting l)).head? := fun o => h.head _
  have hhead' : head (.qwaiting l) (s.emit (.q l (.release t))) = (a.links (.qwaiting l)).head? :=
    h.head _
  have h' : ∀ o, Sim ((s.emit (.q l (.release t))).setOwner l o)
      ((a.emit (.q l (.release t))).setOwner l o) := fun o => (h.emit _).setOwner l o
  simp only [qunlock, howner, if_false, hhead', hhead]
  cases hq : a.links (.qwaiting l) with
  | nil =>
    rw [Sys.unlock_nil hq]
    exact ⟨_, rfl, h' none⟩
  | cons u us =>
    rw [Sys.unlock_cons hq]
    exact ⟨_, rfl, ((h' (some u)).emit _).wake hq⟩

theorem walks_qunlock (h : Sim s a) (ht : a.User t) :
    Walks (some (.qunlock l)) a (finish t s (do return (← qunlock l t s, .void))) := by
  by_cases ho : (a.qlock l).owner = none
  · have howner : (s.qlock l).owner = none := by rwa [h.qlock]
    simp only [qunlock, howner, if_true]
    exact finish_error (.call (.unowned ht ho (.inl rfl))) h
  · obtain ⟨s', hok, hs'⟩ := sim_unlock (t := t) h ho
    rw [hok]
    exact finish_void (.call (.queuing (.qunlock ht ho))) hs'
      (user_control ht (lockOps_unlock a l t).control)

/-- How `rlock`, and `canrlock` with `block` false, end: the caller gets 1 with a lock that no
writer has or waits for, 0 if the lock is left as it is, or waits at the end of the line. -/
theorem rlockWith_cases (h : Sim s a) (hI : Inv a pl) (ht : a.User t) (block : Bool) :
    (((s.rwlock l).writer = none ∧ a.links (.wwaiting l) = []) ∧
      ∃ s', rlockWith l block t s = (s', .value 1) ∧
        Sim s' ((a.setReaders l ((a.rwlock l).readers + 1)).emit (.rw l (.racquire t)))) ∨
    (¬((s.rwlock l).writer = none ∧ a.links (.wwaiting l) = []) ∧ block = false ∧
      rlockWith l block t s = (s, .value 0)) ∨
    (¬((s.rwlock l).writer = none ∧ a.links (.wwaiting l) = []) ∧ block = true ∧
      ∃ s', rlockWith l block t s = (s', .switched) ∧
        Sim s' (((a.emit (.rw l (.rblock t))).enq (.rwaiting l) t).switch (.rlock l) t)) := by
  unfold rlockWith
  simp only [h.head, List.head?_eq_none_iff]
  by_cases hw : (s.rwlock l).writer = none ∧ a.links (.wwaiting l) = []
  · rw [if_pos hw]
    refine .inl ⟨hw, _, rfl, ?_⟩
    rw [← h.rwlock]
    exact (h.setReaders l _).emit _
  · rw [if_neg hw]
    cases block with
    | false => exact .inr (.inl ⟨hw, rfl, rfl⟩)
    | true =>
      have hswitch := ((h.emit (.rw l (.rblock t))).addtask (k := .rwaiting l)
        (hI.off_lists (hI.user ht) (.inl rfl))).taskswitch (.rlock l) (hI.not_exiting (hI.user ht))
      exact .inr (.inr ⟨hw, rfl, _, rfl, hswitch⟩)

theorem walks_rlockWith (h : Sim s a) (hI : Inv a pl) (ht : a.User t) (block : Bool) :
    Walks (some (if block then .rlock l else .canrlock l)) a
      (finish t s (.ok (rlockWith l block t s))) := by
  obtain ⟨hw, s', heq, hs'⟩ | ⟨_, _, heq⟩ | ⟨hw, _, s', heq, hs'⟩ :=
    rlockWith_cases (l := l) h hI ht block
  · rw [heq]
    rw [h.rwlock] at hw
    have hcall : (if block then Call.rlock l else .canrlock l) = .rlock l ∨
        (if block then Call.rlock l else .canrlock l) = .canrlock l := by
      cases block
      · exact .inr rfl
      · exact .inl rfl
    exact finish_value (.call (.rw (.racquire ht hw.1 hw.2 hcall))) hs' ht.2
  · rw [heq]
    exact finish_value (.refl _ a) h ht.2
  · rw [heq]
    rw [h.rwlock] at hw
    exact finish_switched (.one (.rw (.rblock ht hw))) hs'

/-- How `wlock`, and `canwlock` with `block` false, end: the caller gets 1 with a lock that nobody
has, 0 if the lock is left as it is, or waits at the end of the line. -/
theorem wlockWith_cases (h : Sim s a) (hI : Inv a pl) (ht : a.User t) (block : Bool) :
    (((s.rwlock l).writer = none ∧ (s.rwlock l).readers = 0) ∧
      ∃ s', wlockWith l block t s = (s', .value 1) ∧
        Sim s' ((a.setWriter l (some t)).emit (.rw l (.wacquire t)))) ∨
    (¬((s.rwlock l).writer = none ∧ (s.rwlock l).readers = 0) ∧ block = false ∧
      wlockWith l block t s = (s, .value 0)) ∨
    (¬((s.rwlock l).writer = none ∧ (s.rwlock l).readers = 0) ∧ block = true ∧
      ∃ s', wlockWith l block t s = (s', .switched) ∧
        Sim s' (((a.emit (.rw l (.wblock t))).enq (.wwaiting l) t).switch (.wlock l) t)) := by
  unfold wlockWith
  by_cases hw : (s.rwlock l).writer = none ∧ (s.rwlock l).readers = 0
  · rw [if_pos hw]
    exact .inl ⟨hw, _, rfl, (h.setWriter l _).emit _⟩
  · rw [if_neg hw]
    cases block with
    | false => exact .inr (.inl ⟨hw, rfl, rfl⟩)
    | true =>
      have hswitch := ((h.emit (.rw l (.wblock t))).addtask (k := .wwaiting l)
        (hI.off_lists (hI.user ht) (.inl rfl))).taskswitch (.wlock l) (hI.not_exiting (hI.user ht))
      exact .inr (.inr ⟨hw, rfl, _, rfl, hswitch⟩)

theorem walks_wlockWith (h : Sim s a) (hI : Inv a pl) (ht : a.User t) (block : Bool) :
    Walks none a (finish t s (.ok (wlockWith l block t s))) := by
  obtain ⟨hw, s', heq, hs'⟩ | ⟨_, _, heq⟩ | ⟨hw, _, s', heq, hs'⟩ :=
    wlockWith_cases (l := l) h hI ht block
  · rw [heq]
    rw [h.rwlock] at hw
    exact finish_value (.one (.rw (.wacquire ht hw.1 hw.2))) hs' ht.2
  · rw [heq]
    exact finish_value (.refl _ a) h ht.2
  · rw [heq]
    rw [h.rwlock] at hw
    exact finish_switched (.one (.rw (.wblock ht hw))) hs'

theorem sim_wgrant (h : Sim s a) : Sim (wgrant l s) (a.grantWriter l) := by
  have hrw := h.rwlock
  unfold wgrant Sys.grantWriter
  rw [hrw, h.head]
  cases hq : a.links (.wwaiting l) with
  | nil => split <;> exact h
  | cons u us =>
    simp only [List.head?_cons]
    split
    · have hd := (h.emit (.rw l (.whandoff u))).deltask (k := .wwaiting l) hq
      exact (hd.setWriter l (some u)).taskready ((h.emit _).not_mem_deq hq)
    · exact h

theorem sim_runlock (h : Sim s a) (t : TaskPtr) : Sim (runlock l t s) (a.readUnlock l t) := by
  rw [runlock, h.rwlock]
  exact sim_wgrant ((h.setReaders l _).emit _)

theorem walks_runlock (h : Sim s a) (ht : a.User t) :
    Walks (some (.runlock l)) a (finish t s (.ok (runlock l t s, .void))) :=
  finish_void (.call (.rw (.runlock ht))) (sim_runlock h t)
    (user_control ht (lockOps_readUnlock a l t).control)

/-- The loop of `wunlock` admits the readers in their order and ends. -/
theorem sim_wunlockReaders {fuel : ℕ} (us : List TaskPtr) (h : Sim s a)
    (hq : a.links (.rwaiting l) = us) (hf : us.length < fuel) :
    ∃ s', wunlockReaders l fuel s = .ok s' ∧ Sim s' (a.letIn l us) := by
  induction us generalizing s a fuel with
  | nil =>
    obtain ⟨fuel, rfl⟩ : ∃ n, fuel = n + 1 := ⟨fuel - 1, by simp at hf; omega⟩
    exact ⟨s, by simp [wunlockReaders, h.head, hq], h⟩
  | cons u us ih =>
    obtain ⟨fuel, rfl⟩ : ∃ n, fuel = n + 1 := ⟨fuel - 1, by simp at hf; omega⟩
    have hrw := h.rwlock
    have hd := (h.emit (.rw l (.rhandoff u))).deltask (k := .rwaiting l) hq
    have hr : Sim (taskready u
      ((deltask (.rwaiting l) u (s.emit (.rw l (.rhandoff u)))).setReaders l
          ((a.rwlock l).readers + 1)))
        (((a.emit (.rw l (.rhandoff u))).setReaders l ((a.rwlock l).readers + 1)).wake
          (.rwaiting l) u) :=
      (hd.setReaders l ((a.rwlock l).readers + 1)).taskready ((h.emit _).not_mem_deq hq)
    simp only [wunlockReaders, h.head, hq, List.head?_cons]
    rw [show ((deltask (.rwaiting l) u (s.emit (.rw l (.rhandoff u)))).rwlock l).readers =
      (a.rwlock l).readers from by rw [← hrw]; rfl]
    refine ih hr ?_ (by simpa using hf)
    simp [Sys.wake, Sys.ready, Sys.enq, Sys.emit, Sys.setTask, Sys.deq, Sys.setReaders, hq]

theorem wunlock_unwritten (hw : (s.rwlock l).writer = none) :
    wunlock l t s = .error (.abort .wunlockNotLocked) := by
  simp [wunlock, hw, throw, throwThe, MonadExceptOf.throw, bind, Except.bind]

theorem wunlock_hasreaders (hw : (s.rwlock l).writer ≠ none) (hr : (s.rwlock l).readers ≠ 0) :
    wunlock l t s = .error (.abort .wunlockReaders) := by
  have hr' : (((s.setWriter l none).emit (.rw l (.wrelease t))).rwlock l).readers ≠ 0 := by
    simpa [Sys.setWriter, Sys.emit] using hr
  simp [wunlock, hw, hr', throw, throwThe, MonadExceptOf.throw, bind, Except.bind]

theorem wunlock_eq (hw : (s.rwlock l).writer ≠ none) (hr : (s.rwlock l).readers = 0) :
    wunlock l t s = (wunlockReaders l (s.live.card + 1)
      (if (head (.rwaiting l) s).isSome then
        ((s.setWriter l none).emit (.rw l (.wrelease t))).emit (.rw l .rbatch)
      else (s.setWriter l none).emit (.rw l (.wrelease t)))).map (wgrant l) := by
  have hr' : (((s.setWriter l none).emit (.rw l (.wrelease t))).rwlock l).readers = 0 := by
    simpa [Sys.setWriter, Sys.emit] using hr
  have hhead : head (.rwaiting l) ((s.setWriter l none).emit (.rw l (.wrelease t))) =
      head (.rwaiting l) s := rfl
  simp only [wunlock, hw, hr', hhead, if_false, ne_eq, not_true_eq_false]
  split <;> rfl

/-- Admitting a reader leaves the lock with readers, so that no writer gets it as well. -/
theorem letIn_readers (us : List TaskPtr) (h0 : 0 ≤ (a.rwlock l).readers) :
    0 ≤ ((a.letIn l us).rwlock l).readers ∧ (us ≠ [] → ((a.letIn l us).rwlock l).readers ≠ 0) := by
  induction us generalizing a with
  | nil => exact ⟨h0, fun h => absurd rfl h⟩
  | cons u us ih =>
    have hr : ((((a.emit (.rw l (.rhandoff u))).setReaders l ((a.rwlock l).readers + 1)).wake
        (.rwaiting l) u).rwlock l).readers = (a.rwlock l).readers + 1 := by
      simp [Sys.wake, Sys.ready, Sys.enq, Sys.emit, Sys.setTask, Sys.deq, Sys.setReaders]
    have hge := ih (a := ((a.emit (.rw l (.rhandoff u))).setReaders l
      ((a.rwlock l).readers + 1)).wake (.rwaiting l) u) (by omega)
    refine ⟨hge.1, fun _ => ?_⟩
    by_cases hus : us = []
    · subst hus
      rw [Sys.letIn, Sys.letIn, hr]
      omega
    · exact hge.2 hus

theorem sim_wunlock (h : Sim s a) (hI : Inv a pl) (hw : (a.rwlock l).writer ≠ none)
    (hr : (a.rwlock l).readers = 0) :
    ∃ s', wunlock l t s = .ok s' ∧ Sim s' (a.writeUnlock l t) := by
  have hrw : s.rwlock = a.rwlock ∧ s.live = a.live := ⟨h.rwlock, h.live⟩
  have hd := (h.setWriter l none).emit (.rw l (.wrelease t))
  have hlen : (a.links (.rwaiting l)).length < s.live.card + 1 := by
    rw [hrw.2]
    exact Nat.lt_succ_of_le (hI.length_le _)
  rw [wunlock_eq (hrw.1 ▸ hw) (hrw.1 ▸ hr), h.head]
  cases hq : a.links (.rwaiting l) with
  | nil =>
    obtain ⟨s', hok, hs'⟩ := sim_wunlockReaders [] hd hq (hq ▸ hlen)
    rw [Sys.writeUnlock_nil hq]
    exact ⟨wgrant l s', by simp [hok, Except.map], sim_wgrant hs'⟩
  | cons u us =>
    obtain ⟨s', hok, hs'⟩ := sim_wunlockReaders (u :: us) (hd.emit (.rw l .rbatch)) hq
      (hq ▸ hlen)
    rw [Sys.writeUnlock_cons hq]
    refine ⟨wgrant l s', by simp [hok, Except.map], ?_⟩
    have hne := (letIn_readers (l := l) (u :: us)
      (a := ((a.setWriter l none).emit (.rw l (.wrelease t))).emit (.rw l .rbatch))
      (by simp [Sys.setWriter, Sys.emit, hr])).2 (by simp)
    rw [wgrant, hs'.rwlock, if_neg hne]
    exact hs'

theorem walks_wunlock (h : Sim s a) (hI : Inv a pl) (ht : a.User t) :
    Walks (some (.wunlock l)) a (finish t s (do return (← wunlock l t s, .void))) := by
  have hrw := h.rwlock
  by_cases hw : (a.rwlock l).writer = none
  · rw [wunlock_unwritten (hrw ▸ hw)]
    exact finish_error (.call (.unwritten ht hw)) h
  by_cases hr : (a.rwlock l).readers = 0
  · obtain ⟨s', hok, hs'⟩ := sim_wunlock (t := t) h hI hw hr
    rw [hok]
    exact finish_void (.call (.rw (.wunlock ht hw hr))) hs'
      (user_control ht (lockOps_writeUnlock a l t).control)
  · rw [wunlock_hasreaders (hrw ▸ hw) (hrw ▸ hr)]
    exact finish_error (.call (.hasreaders ht hw hr)) h

end Locks

section Rendez
variable {s : Sys Links} {a : Sys Queues} {pl : Placement} {t : TaskPtr} {r l : ℕ}

theorem unlock_exiting (a : Sys Queues) (l : ℕ) (t u : TaskPtr) :
    ((a.unlock l t).task u).exiting = (a.task u).exiting := by
  cases hq : a.links (.qwaiting l) with
  | nil =>
    rw [Sys.unlock_nil hq]
    rfl
  | cons v vs =>
    rw [Sys.unlock_cons hq, Sys.wake, Inv.ready_exiting]
    rfl

theorem sim_sleep (h : Sim s a) (hI : Inv a pl) (ht : a.User t)
    (ho : ∀ l, (a.rendez r).l = some l → (a.qlock l).owner ≠ none) :
    ∃ s', tasksleep r t s = .ok (s', .switched) ∧
      Sim s' ((a.sleep r t).switch (.tasksleep r) t) := by
  have hr : (s.rendez r).l = (a.rendez r).l := by
    obtain ⟨q, hq, rfl⟩ := h
    rfl
  have hadd := (h.emit (.rendez r (.sleep t))).addtask (k := .rendez r)
    (hI.off_lists (hI.user ht) (.inl rfl))
  have hex := hI.not_exiting (hI.user ht)
  have hr' : ((addtask (.rendez r) t (s.emit (.rendez r (.sleep t)))).rendez r).l =
      (a.rendez r).l := hr
  simp only [tasksleep, hr']
  cases hl : (a.rendez r).l with
  | none =>
    rw [Sys.sleep_none hl]
    exact ⟨_, rfl, hadd.taskswitch _ hex⟩
  | some l =>
    obtain ⟨s', hok, hs'⟩ := sim_unlock (t := t) hadd (ho l hl)
    rw [Sys.sleep_some hl, ← Sys.enq_unlock]
    refine ⟨taskswitch (.tasksleep r) t s', by simp only [hok]; rfl, hs'.taskswitch _ ?_⟩
    rw [unlock_exiting]
    exact hex

theorem walks_tasksleep (h : Sim s a) (hI : Inv a pl) (ht : a.User t) :
    Walks (some (.tasksleep r)) a (finish t s (tasksleep r t s)) := by
  by_cases ho : ∀ l, (a.rendez r).l = some l → (a.qlock l).owner ≠ none
  · obtain ⟨s', hok, hs'⟩ := sim_sleep h hI ht ho
    rw [hok]
    exact finish_switched (.call (.queuing (.tasksleep ht ho))) hs'
  · push Not at ho
    obtain ⟨l, hl, ho⟩ := ho
    have hs : ((addtask (.rendez r) t (s.emit (.rendez r (.sleep t)))).rendez r).l = some l ∧
        ((addtask (.rendez r) t (s.emit (.rendez r (.sleep t)))).qlock l).owner = none := by
      obtain ⟨q, hq, rfl⟩ := h
      exact ⟨hl, ho⟩
    have herr : tasksleep r t s = .error (.abort .qunlockOwner) := by
      simp only [tasksleep, hs.1, qunlock, hs.2, if_true]
      rfl
    rw [herr]
    exact finish_error (.call (.unowned ht ho (.inr ⟨r, rfl, hl⟩))) h

theorem walks_tasksleepBack (h : Sim s a) (hI : Inv a pl) (ht : a.Resuming t (.tasksleep r)) :
    Walks none a (finish t s (.ok (tasksleepBack r t s))) := by
  have hr : (s.rendez r).l = (a.rendez r).l ∧ s.qlock = a.qlock := by
    obtain ⟨q, hq, rfl⟩ := h
    exact ⟨rfl, rfl⟩
  simp only [tasksleepBack, hr.1]
  cases hl : (a.rendez r).l with
  | none => exact back_void (.queuing (.awake ht hl)) (h.emit _)
  | some l =>
    simp only [qlockWith, hr.2]
    by_cases ho : (a.qlock l).owner = none
    · simp only [ho, if_true]
      exact back_void (.queuing (.reacquire ht hl ho)) (((h.setOwner l _).emit _).emit _)
    · simp only [ho, if_false]
      exact finish_switched (.one (.queuing (.qblock (.inr ⟨r, ht, rfl, hl⟩) ho)))
        (((h.emit _).addtask (hI.off_lists (hI.resuming ht) (.inr rfl))).taskswitch _
          (hI.not_exiting (hI.resuming ht)))

theorem walks_qlockBack (h : Sim s a) (ht : a.Resuming t (.qlock l)) :
    Walks none a (finish t s (qlockBack l t s)) := by
  have hq := h.qlock
  unfold qlockBack
  rw [hq]
  split
  · rename_i ho
    exact finish_error (.one (.oops ht (.inl rfl) ho)) h
  · rename_i ho
    exact back_value (.queuing (.qback ht (not_not.mp ho))) (h.emit _)

theorem walks_sleepBack (h : Sim s a) (ht : a.Resuming t (.sleepqlock r l)) :
    Walks none a (finish t s (do
      let (s, _) ← qlockBack l t s
      return (s.emit (.rendez r (.awake t)), .void))) := by
  have hq := h.qlock
  unfold qlockBack
  rw [hq]
  split
  · rename_i ho
    exact finish_error (.one (.oops ht (.inr ⟨r, rfl⟩) ho)) h
  · rename_i ho
    exact back_void (.queuing (.sleepback ht (not_not.mp ho))) ((h.emit _).emit _)

/-- The loop of `taskwakeupall` readies the sleepers in their order and ends. -/
theorem sim_wakeupall {us : List TaskPtr} {fuel : ℕ} (i : ℕ) (h : Sim s a)
    (hq : a.links (.rendez r) = us) (hf : us.length < fuel) :
    ∃ s', taskwakeupWith r true fuel i s = .ok (s', i + us.length) ∧ Sim s' (a.wakeAll r us) := by
  induction us generalizing s a fuel i with
  | nil =>
    obtain ⟨fuel, rfl⟩ : ∃ n, fuel = n + 1 := ⟨fuel - 1, by simp at hf; omega⟩
    exact ⟨s, by simp [taskwakeupWith, h.head, hq], h⟩
  | cons u us ih =>
    obtain ⟨fuel, rfl⟩ : ∃ n, fuel = n + 1 := ⟨fuel - 1, by simp at hf; omega⟩
    have hw := (h.emit (.rendez r (.woken u))).wake (k := .rendez r) hq
    obtain ⟨s', hok, hs'⟩ := ih (i + 1) hw
      (by simp [Sys.wake, Sys.ready, Sys.enq, Sys.emit, Sys.setTask, Sys.deq, hq])
      (by simpa using hf)
    refine ⟨s', ?_, hs'⟩
    rw [List.length_cons, ← Nat.add_assoc, Nat.add_right_comm, ← hok]
    simp [taskwakeupWith, h.head, hq]

theorem walk_wakeAll {us : List TaskPtr} (ht : a.User t) (hq : a.links (.rendez r) = us) :
    Walk none a (a.wakeAll r us) ∧ (a.wakeAll r us).User t := by
  induction us generalizing a with
  | nil => exact ⟨.refl _ a, ht⟩
  | cons u us ih =>
    have hw := ih (a := (a.emit (.rendez r (.woken u))).wake (.rendez r) u) ht
      (by simp [Sys.wake, Sys.ready, Sys.enq, Sys.emit, Sys.setTask, Sys.deq, hq])
    exact ⟨(Walk.one (.queuing (.wakeup ht hq))).append hw.1, hw.2⟩

theorem sim_wakeup {us : List TaskPtr} {u : TaskPtr} (h : Sim s a)
    (hq : a.links (.rendez r) = u :: us) (hlive : 0 < s.live.card) :
    ∃ s', taskwakeup r s = .ok (s', 1) ∧
      Sim s' ((a.emit (.rendez r (.woken u))).wake (.rendez r) u) := by
  obtain ⟨n, hn⟩ : ∃ n, s.live.card = n + 1 := ⟨s.live.card - 1, by omega⟩
  refine ⟨_, ?_, (h.emit (.rendez r (.woken u))).wake hq⟩
  simp [taskwakeup, hn, taskwakeupWith, h.head, hq]

theorem taskwakeup_nil (h : Sim s a) (all : Bool) (hq : a.links (.rendez r) = []) (n : ℕ) :
    taskwakeupWith r all (n + 1) 0 s = .ok (s, 0) := by
  simp [taskwakeupWith, h.head, hq]

theorem walks_taskwakeup (h : Sim s a) (hI : Inv a pl) (ht : a.User t) :
    Walks none a (finish t s (do
      let (s, n) ← taskwakeup r s
      return (s, .value n))) := by
  have hlive : s.live = a.live := by
    obtain ⟨q, hq, rfl⟩ := h
    rfl
  cases hq : a.links (.rendez r) with
  | nil =>
    rw [taskwakeup, taskwakeup_nil h false hq]
    exact finish_value (.refl _ a) h ht.2
  | cons u us =>
    obtain ⟨s', hok, hs'⟩ := sim_wakeup h hq
      (hlive ▸ Finset.card_pos.mpr ⟨t, hI.mem_live (hI.user ht)⟩)
    rw [hok]
    exact finish_value (.one (.queuing (.wakeup ht hq))) hs' ht.2

theorem walks_taskwakeupall (h : Sim s a) (hI : Inv a pl) (ht : a.User t) :
    Walks none a (finish t s (do
      let (s, n) ← taskwakeupall r s
      return (s, .value n))) := by
  have hlive : s.live = a.live := by
    obtain ⟨q, hq, rfl⟩ := h
    rfl
  obtain ⟨s', hok, hs'⟩ := sim_wakeupall 0 h rfl
    (show _ < s.live.card + 1 by rw [hlive]; exact Nat.lt_succ_of_le (hI.length_le _))
  obtain ⟨hw, hu⟩ := walk_wakeAll ht rfl
  rw [taskwakeupall, hok]
  exact finish_value hw hs' hu.2

end Rendez
end Libtask
