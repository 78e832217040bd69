import Libtask.Refine.Steps

/-! Where the tasks are: each live task is in one place, the lists are well formed, and
nothing refers to a task that was freed. -/
namespace Libtask
open Function

/-- `t` is blocked in its call of `chanalt` on the array `base`: it gave up the CPU there, and
no branch has been executed for it yet. -/
def AltBlocked {σ : Type} (s : Sys σ) (t : TaskPtr) (base : ℕ) : Prop :=
  t ∈ s.live ∧ s.taskrunning ≠ some t ∧ (s.task t).context = .chanalt base ∧
    transfers t base s.log = []

instance {σ : Type} (s : Sys σ) (t : TaskPtr) (base : ℕ) : Decidable (AltBlocked s t base) :=
  inferInstanceAs (Decidable (_ ∧ _))

/-- A place where a task can be while it does not run. -/
inductive Place
  | list (k : TasklistRef)
  | poll
  | alt (base : ℕ)
  deriving DecidableEq

/-- How often `t` is in a place, `q` being the contents of the lists. -/
def Sys.occurrences {σ : Type} (s : Sys σ) (q : Queues) (t : TaskPtr) : Place → ℕ
  | .list k => (q k).count t
  | .poll => s.polls.count t
  | .alt base => if AltBlocked s t base then 1 else 0

/-- A `Tasklist` and the links of its tasks form a doubly linked list of `ts`. -/
structure WellLinked (L : Links) (k : TasklistRef) (ts : List TaskPtr) : Prop where
  isList : DList.IsList L.next L.prev (L.list k).head (L.list k).tail ts
  head_prev : ∀ t, (L.list k).head = some t → L.prev t = none
  tail_next : ∀ t, (L.list k).tail = some t → L.next t = none
  inverse : ∀ t ∈ ts, ∀ u ∈ ts, L.next t = some u ↔ L.prev u = some t
  nil_iff : (L.list k).head = none ↔ (L.list k).tail = none

theorem wellLinked_of_isList {L : Links} {k : TasklistRef} {ts : List TaskPtr}
    (h : DList.IsList L.next L.prev (L.list k).head (L.list k).tail ts) : WellLinked L k ts where
  isList := h
  head_prev _ ht := DList.IsList.first_prev (ht ▸ h)
  tail_next _ ht := DList.IsList.last_next (ht ▸ h)
  inverse _ ht _ hu := ⟨fun hn => h.prev_of_next ht hn, fun hp => h.next_of_prev hu hp⟩
  nil_iff := h.head_eq_none_iff

theorem Sim.wellLinked {s : Sys Links} {a : Sys Queues} (h : Sim s a) (k : TasklistRef) :
    WellLinked s.links k (a.links k) := by
  obtain ⟨q, hq, rfl⟩ := h
  exact wellLinked_of_isList (hq.isList k)

section
variable {a : Sys Queues} {pl : Placement} {t : TaskPtr} {base : ℕ}

/-- The placement has a task in an alt exactly when it is blocked in that alt. -/
theorem Inv.altBlocked_iff (h : Inv a pl) : AltBlocked a t base ↔ pl t = some (.alt base) := by
  constructor
  · rintro ⟨hl, hr, hc, ht⟩
    obtain ⟨loc, hloc⟩ := Option.ne_none_iff_exists'.mp (mt (h.live t).mp (not_not.mpr hl))
    have hcpu : ¬loc.cpu := fun hcpu => hr ((h.onCpu.running t).mpr ⟨loc, hloc, hcpu⟩)
    have hfit := h.fits t loc hloc
    unfold Loc.fits at hfit
    split at hfit
    · exact absurd (.inl rfl) hcpu
    · exact absurd (.inr rfl) hcpu
    · rw [hc] at hfit
      obtain ⟨j, x, _, _, hj, _⟩ := hfit
      rw [ht] at hj
      cases hj
    · rw [hc] at hfit
      obtain rfl : Loc.alt base = loc := Option.some.inj hfit.1
      exact hloc
  · intro ht
    obtain ⟨hhome, hw⟩ := h.fits t _ ht
    have hc : (a.task t).context = .chanalt base := by
      cases hx : (a.task t).context <;> rw [hx] at hhome <;> cases hhome
      rfl
    rw [hc] at hw
    refine ⟨h.mem_live ht, fun hr => ?_, hc, hw.transfers⟩
    obtain ⟨loc, hloc, hcpu⟩ := (h.onCpu.running t).mp hr
    rw [ht] at hloc
    cases hloc
    rcases hcpu with h | h <;> cases h

/-- A waiting task is in its place once, and in no other place. -/
theorem Inv.occurrences_eq (h : Inv a pl) (p : Place) : a.occurrences a.links t p =
    match p with
    | .list k => if pl t = some (.list k) then 1 else 0
    | .poll => if pl t = some .poll then 1 else 0
    | .alt base => if pl t = some (.alt base) then 1 else 0 := by
  cases p with
  | list k => exact h.placed.list k t
  | poll => exact h.placed.poll t
  | alt base => simp only [Sys.occurrences, h.altBlocked_iff]

/-- The tasks the channel queues refer to are live. -/
theorem Inv.queue_live (h : Inv a pl) {c : ℕ} {p : AltPtr}
    (hp : p ∈ (a.chan c).asend ∨ p ∈ (a.chan c).arecv) :
    ∃ x, a.alt? p = some x ∧ x.task ∈ a.live := by
  obtain ⟨op, hop, hp⟩ : ∃ op : Op, op.queued ∧ p ∈ (a.chan c).arr op :=
    hp.elim (fun hp => ⟨.CHANSND, .inl rfl, hp⟩) fun hp => ⟨.CHANRCV, .inr rfl, hp⟩
  obtain ⟨⟨u, hu⟩, hlt, x, hx, _⟩ := ((h.queue c op hop).2 p).mp hp
  obtain ⟨ht, _⟩ := (h.altWaiting hu).stamped p.idx hlt x hx
  exact ⟨x, hx, ht ▸ h.mem_live hu⟩

end

/-- Whenever the scheduler is about to dispatch, every live task is in exactly one place, once;
the task lists are well-formed doubly linked lists; the ready flags say who is on the run
queue; and neither a list nor the poll table nor a channel queue refers to a task that is
not live, such as one that has been freed. -/
theorem placement_at_scheduler {s : Sys Links} (h : Reachable s) (hc : s.control = .scheduler) :
    ∃ q : Queues, (∀ k, WellLinked s.links k (q k)) ∧
      (∀ t ∈ s.live, ∃ p, ∀ p', s.occurrences q t p' = if p' = p then 1 else 0) ∧
      (∀ t, (s.task t).ready = true ↔ t ∈ q .taskrunqueue) ∧
      ∀ t ∉ s.live, (∀ p, s.occurrences q t p = 0) ∧
        ∀ c p, p ∈ (s.chan c).asend ∨ p ∈ (s.chan c).arecv →
          ∃ x, s.alt? p = some x ∧ x.task ≠ t := by
  obtain ⟨_, pl, _, hI, q, hq, rfl⟩ := h.sim
  have hocc : ∀ t p, s.occurrences q t p = (s.withLinks q).occurrences q t p := by
    intro t p
    cases p <;> rfl
  refine ⟨q, fun k => wellLinked_of_isList (hq.isList k), fun t ht => ?_, fun t => ?_,
    fun t ht => ⟨fun p => ?_, fun c p hp => ?_⟩⟩
  · obtain ⟨loc, hloc⟩ := Option.ne_none_iff_exists'.mp (mt (hI.live t).mp (not_not.mpr ht))
    have hcpu : ¬loc.cpu := fun hcpu => by
      have hr := (hI.onCpu.running t).mpr ⟨loc, hloc, hcpu⟩
      rw [hI.onCpu.scheduler hc] at hr
      cases hr
    obtain ⟨p, hp⟩ : ∃ p : Place, loc = match p with
        | .list k => .list k
        | .poll => .poll
        | .alt base => .alt base := by
      cases loc with
      | list k => exact ⟨.list k, rfl⟩
      | poll => exact ⟨.poll, rfl⟩
      | alt base => exact ⟨.alt base, rfl⟩
      | resuming => exact absurd (.inr rfl) hcpu
      | user => exact absurd (.inl rfl) hcpu
    refine ⟨p, fun p' => ?_⟩
    rw [hocc]
    refine (hI.occurrences_eq p').trans ?_
    rw [hloc, hp]
    cases p <;> cases p' <;> simp [eq_comm]
  · have hr := hI.placed.ready t
    rw [show (s.task t).ready = ((s.withLinks q).task t).ready from rfl, hr,
      show q .taskrunqueue = (s.withLinks q).links .taskrunqueue from rfl, hI.placed.mem_list]
    simp
  · rw [hocc]
    refine (hI.occurrences_eq p).trans ?_
    rw [(hI.live t).mpr ht]
    cases p <;> simp
  · obtain ⟨x, hx, hl⟩ := hI.queue_live (c := c) hp
    refine ⟨x, hx, ?_⟩
    rintro rfl
    exact ht hl

/-- The first task of a program yields, with another task created. -/
def placementRun : List (Env × Action) :=
  [(.still 0, .schedule), (.still 0, .resume), (.still 8192, .call (.taskcreate .user)),
    (.still 0, .call .taskyield)]

theorem placement_at_scheduler_small : ∃ s, Program.small.after
    (fun _ _ => True) placementRun = some s ∧
    ∃ q : Queues, (∀ k, WellLinked s.links k (q k)) ∧
      (∀ t ∈ s.live, ∃ p, ∀ p', s.occurrences q t p' = if p' = p then 1 else 0) ∧
      (∀ t, (s.task t).ready = true ↔ t ∈ q .taskrunqueue) ∧
      ∀ t ∉ s.live, (∀ p, s.occurrences q t p = 0) ∧
        ∀ c p, p ∈ (s.chan c).asend ∨ p ∈ (s.chan c).arecv →
          ∃ x, s.alt? p = some x ∧ x.task ≠ t := by
  have hrun : (Program.small.after (fun _ _ => True) placementRun).isSome := by decide
  obtain ⟨s, hs⟩ := Option.isSome_iff_exists.mp hrun
  have hc : (Program.small.after (fun _ _ => True) placementRun).map Sys.control =
      some .scheduler := by
    decide
  rw [hs] at hc
  exact ⟨s, hs, placement_at_scheduler (Program.reachableBy_after hs) (Option.some.inj hc)⟩

end Libtask
