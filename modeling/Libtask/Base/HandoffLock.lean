import Libtask.Base.Runs

/-! A lock that its releaser hands to the first task in line, which need not be awake for
it. The history says who got the lock and how. -/
namespace HandoffLock
open Runs

inductive Event (τ : Type)
  | acquire (t : τ)
  | block (t : τ)
  | handoff (t : τ)
  | release (t : τ)
  | back (t : τ)
  deriving DecidableEq

variable {τ : Type}

def Event.task : Event τ → τ
  | .acquire t | .block t | .handoff t | .release t | .back t => t

/-- The owner, the line, and the history, newest event first. -/
structure Lock (τ : Type) where
  owner : Option τ
  waiting : List τ
  log : List (Event τ)

/-- Since `t` got the lock, by itself or by coming back with it, it did not release it. -/
def Holds (t : τ) : List (Event τ) → Prop
  | [] => False
  | .acquire u :: log | .back u :: log => u = t ∨ Holds t log
  | .release u :: log => u ≠ t ∧ Holds t log
  | .block _ :: log | .handoff _ :: log => Holds t log

def blocked? : Event τ → Option τ
  | .block t => some t
  | _ => none

def handed? : Event τ → Option τ
  | .handoff t => some t
  | _ => none

section
variable [DecidableEq τ]

/-- Since it blocked, `t` was not handed the lock. -/
def Blocked (t : τ) (log : List (Event τ)) : Prop :=
  .handoff t ∉ since (.block t) log ∧ .back t ∉ since (.block t) log

/-- Since it blocked, `t` was handed the lock and has not come back from its call. -/
def Handed (t : τ) (log : List (Event τ)) : Prop :=
  .handoff t ∈ since (.block t) log ∧ .back t ∉ since (.block t) log

theorem not_handed_nil (t : τ) : ¬Handed t [] := by simp [Handed, since]

theorem Handed.of_cons {t : τ} {e : Event τ} {log : List (Event τ)} (h : Handed t (e :: log)) :
    e = .handoff t ∨ Handed t log ∧ e ≠ .block t ∧ e ≠ .back t := by
  unfold Handed at h
  by_cases hb : e = .block t
  · subst hb
    simp at h
  · rw [since_cons_ne hb] at h
    obtain ⟨hin, hout⟩ := h
    simp only [List.mem_cons, not_or] at hin hout
    rcases hin with rfl | hin
    · exact .inl rfl
    · exact .inr ⟨⟨hin, hout.2⟩, hb, fun he => hout.1 he.symm⟩

/-- What can happen to the lock, when only a task that owns it and is awake releases it. -/
inductive Step : Lock τ → Lock τ → Prop
  | acquire {s : Lock τ} (t : τ) (h : s.owner = none) :
      Step s { s with owner := some t, log := .acquire t :: s.log }
  | block {s : Lock τ} (t : τ) (h : s.owner ≠ none) :
      Step s { s with waiting := s.waiting ++ [t], log := .block t :: s.log }
  | release {s : Lock τ} (t : τ) (h : s.owner = some t) (hn : ¬Handed t s.log)
      (hq : s.waiting = []) : Step s { s with owner := none, log := .release t :: s.log }
  | handoff {s : Lock τ} (t u : τ) (us : List τ) (h : s.owner = some t) (hn : ¬Handed t s.log)
      (hq : s.waiting = u :: us) :
      Step s { owner := some u, waiting := us, log := .handoff u :: .release t :: s.log }
  | back {s : Lock τ} (t : τ) (h : s.owner = some t) : Step s { s with log := .back t :: s.log }

theorem not_handed_back (t : τ) (log : List (Event τ)) : ¬Handed t (.back t :: log) := by
  intro h
  rcases h.of_cons with he | ⟨_, _, he⟩
  · cases he
  · exact he rfl

/-- The lock is handed to those who wait. -/
theorem Step.handed {s s' : Lock τ} {t : τ} (hs : Step s s') (ht : Handed t s'.log) :
    t ∈ s.waiting ∨ Handed t s.log := by
  cases hs with
  | acquire | block | release | back =>
    rcases ht.of_cons with he | ⟨h, _⟩
    · cases he
    · exact .inr h
  | handoff u v vs _ _ hq =>
    rcases ht.of_cons with he | ⟨h, _⟩
    · left
      rw [hq, Event.handoff.inj he]
      exact List.mem_cons_self
    · rcases h.of_cons with he | ⟨h, _⟩
      · cases he
      · exact .inr h

/-- Nobody gets the lock by itself while a task it was handed to is still to come back. -/
def Waits (e : Event τ) (older : List (Event τ)) : Prop :=
  ∀ t, e = .acquire t → ∀ u, ¬Handed u older

structure Inv (s : Lock τ) : Prop where
  free : s.owner = none → s.waiting = []
  holds : ∀ t, Holds t s.log → s.owner = some t
  handed : ∀ t, Handed t s.log → s.owner = some t
  fifo : hist blocked? s.log = hist handed? s.log ++ s.waiting
  waits : Always Waits s.log

theorem inv_init : Inv (⟨none, [], []⟩ : Lock τ) where
  free _ := rfl
  holds _ h := h.elim
  handed t h := absurd h (not_handed_nil t)
  fifo := rfl
  waits := always_nil Waits

theorem Waits.of_ne {e : Event τ} (he : ∀ t, e ≠ .acquire t) (older : List (Event τ)) :
    Waits e older := fun t ht => absurd ht (he t)

/-- Nobody is handed the lock while its owner is awake. -/
theorem Inv.not_handed {s : Lock τ} {t u : τ} (h : Inv s) (ho : s.owner = some t)
    (hn : ¬Handed t s.log) : ¬Handed u s.log := by
  intro hu
  have hu' := h.handed u hu
  rw [ho] at hu'
  exact hn (Option.some.inj hu' ▸ hu)

theorem Inv.holds_owner {s : Lock τ} {t u : τ} (h : Inv s) (ho : s.owner = some t)
    (hu : Holds u s.log) : t = u := by
  have hu' := h.holds u hu
  rw [ho] at hu'
  exact Option.some.inj hu'

theorem Step.inv {s s' : Lock τ} (h : Inv s) (hs : Step s s') : Inv s' := by
  have hfifo := h.fifo
  cases hs with
  | acquire t ho =>
    have hnone : ∀ u, s.owner ≠ some u := by simp [ho]
    constructor
    case free => intro h; cases h
    case holds =>
      intro u hu
      rcases hu with rfl | hu
      · rfl
      · exact absurd (h.holds u hu) (hnone u)
    case handed =>
      intro u hu
      rcases hu.of_cons with he | ⟨hu, _⟩
      · cases he
      · exact absurd (h.handed u hu) (hnone u)
    case fifo => simpa [blocked?, handed?] using hfifo
    case waits => exact always_cons (fun _ _ u hu => hnone u (h.handed u hu)) h.waits
  | block t ho =>
    constructor
    case free => exact fun h => absurd h ho
    case holds => exact h.holds
    case handed =>
      intro u hu
      rcases hu.of_cons with he | ⟨hu, _⟩
      · cases he
      · exact h.handed u hu
    case fifo => simp [blocked?, handed?, hfifo]
    case waits => exact always_cons (.of_ne (by simp) _) h.waits
  | release t ho hn hq =>
    constructor
    case free => exact fun _ => hq
    case holds =>
      intro u hu
      exact absurd (h.holds_owner ho hu.2) hu.1
    case handed =>
      intro u hu
      rcases hu.of_cons with he | ⟨hu, _⟩
      · cases he
      · exact absurd hu (h.not_handed ho hn)
    case fifo => simpa [blocked?, handed?] using hfifo
    case waits => exact always_cons (.of_ne (by simp) _) h.waits
  | handoff t v vs ho hn hq =>
    constructor
    case free => intro h; cases h
    case holds =>
      intro u hu
      exact absurd (h.holds_owner ho hu.2) hu.1
    case handed =>
      intro u hu
      rcases hu.of_cons with he | ⟨hu, _⟩
      · rw [Event.handoff.inj he]
      rcases hu.of_cons with he | ⟨hu, _⟩
      · cases he
      · exact absurd hu (h.not_handed ho hn)
    case fifo =>
      rw [hq] at hfifo
      simp [blocked?, handed?, hfifo]
    case waits =>
      exact always_cons (.of_ne (by simp) _) (always_cons (.of_ne (by simp) _) h.waits)
  | back t ho =>
    constructor
    case free => exact h.free
    case holds =>
      intro u hu
      rcases hu with rfl | hu
      · exact ho
      · exact h.holds u hu
    case handed =>
      intro u hu
      rcases hu.of_cons with he | ⟨hu, _⟩
      · cases he
      · exact h.handed u hu
    case fifo => simpa [blocked?, handed?] using hfifo
    case waits => exact always_cons (.of_ne (by simp) _) h.waits

end
end HandoffLock
