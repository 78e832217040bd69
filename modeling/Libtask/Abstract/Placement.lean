import Libtask.Abstract.Moves
import Libtask.Base.SwapRemove

/-! Where every task is. A placement gives each live task its one place; the lists, the poll
table and the ready flags agree with it, and each operation on them moves one task. -/
namespace Libtask
open Function

/-- A place for a live task: one list, the poll table, blocked in the alt of an array, or on
the CPU, where it either resumes inside a library call or runs user code. -/
inductive Loc
  | list (k : TasklistRef)
  | poll
  | alt (base : ℕ)
  | resuming
  | user
  deriving DecidableEq

abbrev Loc.runqueue : Loc := .list .taskrunqueue

abbrev Placement := TaskPtr → Option Loc

/-- The task is in no list and in no slot of the poll table. -/
def Placement.Off (pl : Placement) (t : TaskPtr) : Prop :=
  (∀ k, pl t ≠ some (.list k)) ∧ pl t ≠ some .poll

theorem Placement.off_update {pl : Placement} {t : TaskPtr} {o : Option Loc}
    (hl : ∀ k, o ≠ some (.list k)) (hp : o ≠ some .poll) : Placement.Off (update pl t o) t := by
  simp only [Placement.Off, update_self]
  exact ⟨hl, hp⟩

/-- The tasks in the slots of the poll table. -/
def Sys.polls {σ : Type} (a : Sys σ) : List TaskPtr := (List.range a.npollfd).map a.polltask

/-- The lists, the poll table and the ready flags are as the placement says. -/
structure Placed (a : Sys Queues) (pl : Placement) : Prop where
  list : ∀ k t, (a.links k).count t = if pl t = some (.list k) then 1 else 0
  poll : ∀ t, a.polls.count t = if pl t = some .poll then 1 else 0
  ready : ∀ t, (a.task t).ready = decide (pl t = some .runqueue)

namespace Placed
variable {a b : Sys Queues} {pl : Placement} {k : TasklistRef} {t u : TaskPtr} {o : Option Loc}

theorem mem_list (h : Placed a pl) : t ∈ a.links k ↔ pl t = some (.list k) := by
  rw [← List.count_pos_iff, h.list]
  split <;> simp_all

theorem mem_poll (h : Placed a pl) : t ∈ a.polls ↔ pl t = some .poll := by
  rw [← List.count_pos_iff, h.poll]
  split <;> simp_all

theorem nodup_list (h : Placed a pl) (k : TasklistRef) : (a.links k).Nodup := by
  rw [List.nodup_iff_count_le_one]
  intro t
  rw [h.list]
  split <;> simp

theorem nodup_polls (h : Placed a pl) : a.polls.Nodup := by
  rw [List.nodup_iff_count_le_one]
  intro t
  rw [h.poll]
  split <;> simp

/-- Nothing but the lists, the poll table and the ready flags matters. -/
theorem congr (h : Placed a pl) (hl : b.links = a.links) (hp : b.polls = a.polls)
    (hr : ∀ t, (b.task t).ready = (a.task t).ready) : Placed b pl where
  list := by rw [hl]; exact h.list
  poll := by rw [hp]; exact h.poll
  ready t := by rw [hr]; exact h.ready t

theorem move (h : Placed a pl) (t : TaskPtr) (o : Option Loc)
    (hl : ∀ k u, (b.links k).count u =
      if u = t then if o = some (.list k) then 1 else 0 else (a.links k).count u)
    (hp : ∀ u, b.polls.count u = if u = t then if o = some .poll then 1 else 0 else a.polls.count u)
    (hr : ∀ u, (b.task u).ready =
      if u = t then decide (o = some .runqueue) else (a.task u).ready) :
    Placed b (update pl t o) where
  list k u := by
    rw [hl]
    by_cases hu : u = t
    · simp [hu]
    · simp [hu, h.list]
  poll u := by
    rw [hp]
    by_cases hu : u = t
    · simp [hu]
    · simp [hu, h.poll]
  ready u := by
    rw [hr]
    by_cases hu : u = t
    · simp [hu]
    · simp [hu, h.ready]

/-- A task may change between places that no list and no slot shows. -/
theorem off (h : Placed a pl) (ht : pl.Off t) (hl : ∀ k, o ≠ some (.list k))
    (hp : o ≠ some .poll) : Placed a (update pl t o) := by
  refine h.move t o (fun k u => ?_) (fun u => ?_) fun u => ?_
  · by_cases hu : u = t
    · subst hu
      simp [hl, h.list, ht.1]
    · simp [hu]
  · by_cases hu : u = t
    · subst hu
      simp [hp, h.poll, ht.2]
    · simp [hu]
  · by_cases hu : u = t
    · subst hu
      simp [hl, h.ready, ht.1]
    · simp [hu]

/-- A task that is in no list enters list `k`, wherever it is put. -/
theorem insert (h : Placed a pl) (ht : pl.Off t) {xs ys : List TaskPtr}
    (hxy : a.links k = xs ++ ys) (hl : b.links = update a.links k (xs ++ t :: ys))
    (hp : b.polls = a.polls)
    (hr : ∀ u, (b.task u).ready = if u = t then decide (k = .taskrunqueue) else (a.task u).ready) :
    Placed b (update pl t (some (.list k))) := by
  refine h.move t _ (fun k' u => ?_) (fun u => ?_) fun u => by simpa using hr u
  · have h0 : (a.links k').count t = 0 := by simp [h.list, ht.1]
    by_cases hk : k' = k
    · subst hk
      rw [hxy, List.count_append] at h0
      by_cases hu : u = t
      · subst hu
        simp only [hl, update_self, List.count_append, List.count_cons_self, if_true]
        omega
      · simp [hl, hxy, hu, Ne.symm hu]
    · by_cases hu : u = t
      · subst hu
        simp [hl, hk, h0, Ne.symm hk]
      · simp [hl, hk, hu]
  · by_cases hu : u = t
    · subst hu
      simp [hp, h.poll, ht.2]
    · simp [hp, hu]

theorem enq (h : Placed a pl) (ht : pl.Off t) (hk : k ≠ .taskrunqueue) :
    Placed (a.enq k t) (update pl t (some (.list k))) := by
  refine h.insert ht (List.append_nil _).symm rfl rfl fun u => ?_
  by_cases hu : u = t
  · subst hu
    simp [Sys.enq, hk, h.ready, ht.1]
  · simp [Sys.enq, hu]

theorem makeReady (h : Placed a pl) (ht : pl.Off t) :
    Placed (a.ready t) (update pl t (some .runqueue)) := by
  refine h.insert ht (List.append_nil _).symm rfl rfl fun u => ?_
  by_cases hu : u = t
  · subst hu
    simp [Sys.ready, Sys.enq, Sys.emit, Sys.setTask]
  · simp [Sys.ready, Sys.enq, Sys.emit, Sys.setTask, hu]

/-- Taking the first task off a list leaves it nowhere. -/
theorem pop {ts : List TaskPtr} (h : Placed a pl) (hq : a.links k = t :: ts)
    (hl : b.links = update a.links k ts) (hp : b.polls = a.polls)
    (hr : ∀ u, (b.task u).ready = if u = t then false else (a.task u).ready) :
    Placed b (update pl t none) := by
  have ht : pl t = some (.list k) := h.mem_list.mp (by simp [hq])
  refine h.move t none (fun k' u => ?_) (fun u => ?_) fun u => by simpa using hr u
  · by_cases hk : k' = k
    · subst hk
      by_cases hu : u = t
      · subst hu
        have h1 := h.list k' u
        rw [hq, List.count_cons_self, if_pos ht] at h1
        simp only [hl, update_self, if_true, reduceCtorEq, if_false]
        omega
      · simp [hl, hq, hu, Ne.symm hu]
    · by_cases hu : u = t
      · subst hu
        simp [hl, hk, h.list, ht, Ne.symm hk]
      · simp [hl, hk, hu]
  · by_cases hu : u = t
    · subst hu
      simp [hp, h.poll, ht]
    · simp [hp, hu]

theorem deq {ts : List TaskPtr} (h : Placed a pl) (hk : k ≠ .taskrunqueue)
    (hq : a.links k = t :: ts) : Placed (a.deq k) (update pl t none) := by
  have ht : pl t = some (.list k) := h.mem_list.mp (by simp [hq])
  refine h.pop hq (by simp [Sys.deq, hq]) rfl fun u => ?_
  by_cases hu : u = t
  · subst hu
    simp [Sys.deq, h.ready, ht, hk]
  · simp [Sys.deq, hu]

theorem wake {ts : List TaskPtr} (h : Placed a pl) (hk : k ≠ .taskrunqueue)
    (hq : a.links k = t :: ts) : Placed (a.wake k t) (update pl t (some .runqueue)) := by
  have hd := (h.deq hk hq).makeReady (Placement.off_update (by simp) (by simp))
  rwa [update_idem] at hd

/-- A task that is in no list takes the next slot of the poll table. -/
theorem pollAdd (h : Placed a pl) (ht : pl.Off t) (hl : b.links = a.links)
    (hp : b.polls = a.polls ++ [t]) (hr : ∀ u, (b.task u).ready = (a.task u).ready) :
    Placed b (update pl t (some .poll)) := by
  refine h.move t _ (fun k u => ?_) (fun u => ?_) fun u => ?_
  · by_cases hu : u = t
    · subst hu
      simp [hl, h.list, ht.1]
    · simp [hl, hu]
  · by_cases hu : u = t
    · subst hu
      simp [hp, h.poll, ht.2]
    · simp [hp, hu, Ne.symm hu]
  · by_cases hu : u = t
    · subst hu
      simp [hr, h.ready, ht.1]
    · simp [hr, hu]

end Placed

/-- Taking a slot out of the poll table takes one task out. -/
theorem Sys.polls_pollRemove {σ : Type} (a : Sys σ) {i : ℕ} (hi : i < a.npollfd) :
    (a.polltask i :: (a.pollRemove i).polls).Perm a.polls := by
  have hlen : i < a.polls.length := by simpa [Sys.polls] using hi
  have hlast : a.polls.getLast? = some (a.polltask (a.npollfd - 1)) := by
    rw [List.getLast?_eq_getElem?]
    simp [Sys.polls, show a.npollfd - 1 < a.npollfd by omega]
  have hset : (a.polls.set i (a.polltask (a.npollfd - 1))).dropLast = (a.pollRemove i).polls := by
    refine List.ext_getElem (by simp [Sys.polls, Sys.pollRemove]) fun j hj hj' => ?_
    by_cases hji : i = j
    · subst hji
      simp [Sys.polls, Sys.pollRemove]
    · simp [Sys.polls, Sys.pollRemove, hji, Ne.symm hji]
  have hp := SwapRemove.cons_perm hlast hlen
  rw [hset] at hp
  simpa [Sys.polls] using hp

namespace Placed
variable {a : Sys Queues} {pl : Placement}

theorem pollWake {i : ℕ} (h : Placed a pl) (hi : i < a.npollfd) :
    Placed ((a.ready (a.polltask i)).pollRemove i)
      (update pl (a.polltask i) (some .runqueue)) := by
  have hperm := a.polls_pollRemove hi
  have ht : pl (a.polltask i) = some .poll := h.mem_poll.mp
    (List.mem_map.mpr ⟨i, List.mem_range.mpr hi, rfl⟩)
  have hd : Placed (a.pollRemove i) (update pl (a.polltask i) none) := by
    refine h.move _ none (fun k u => ?_) (fun u => ?_) fun u => ?_
    · by_cases hu : u = a.polltask i
      · subst hu
        simp [Sys.pollRemove, h.list, ht]
      · simp [Sys.pollRemove, hu]
    · have hc := hperm.count_eq u
      by_cases hu : u = a.polltask i
      · subst hu
        rw [h.poll, if_pos ht, List.count_cons_self] at hc
        simpa using hc
      · simpa [hu, Ne.symm hu] using hc
    · by_cases hu : u = a.polltask i
      · subst hu
        simp [Sys.pollRemove, h.ready, ht]
      · simp [Sys.pollRemove, hu]
  have hr := hd.makeReady (Placement.off_update (by simp) (by simp))
  rwa [update_idem] at hr

end Placed
end Libtask
