import Libtask.Base.Runs

/-! A condition variable: a line of sleepers, woken from its front, and its history. -/
namespace CondVar
open Runs

inductive Event (τ : Type)
  | sleep (t : τ)
  | woken (t : τ)
  | awake (t : τ)
  deriving DecidableEq

variable {τ : Type}

def Event.task : Event τ → τ
  | .sleep t | .woken t | .awake t => t

def slept? : Event τ → Option τ
  | .sleep t => some t
  | _ => none

def woken? : Event τ → Option τ
  | .woken t => some t
  | _ => none

/-- The line of sleepers and the history, newest event first. -/
structure Cond (τ : Type) where
  waiting : List τ
  log : List (Event τ)

theorem mem_hist_slept {t : τ} {log : List (Event τ)} :
    t ∈ hist slept? log ↔ .sleep t ∈ log := by
  simp only [hist, List.mem_reverse, List.mem_filterMap]
  constructor
  · rintro ⟨e, he, ht⟩
    cases e <;> simp only [slept?, reduceCtorEq, Option.some.injEq] at ht
    rwa [← ht]
  · exact fun h => ⟨_, h, rfl⟩

theorem mem_hist_woken {t : τ} {log : List (Event τ)} (h : .woken t ∈ log) :
    t ∈ hist woken? log :=
  List.mem_reverse.mpr (List.mem_filterMap.mpr ⟨_, h, rfl⟩)

variable [DecidableEq τ]

/-- The number of wakeups of `t` since it last went to sleep. -/
def wakeups (t : τ) (log : List (Event τ)) : ℕ := (since (.sleep t) log).count (.woken t)

theorem wakeups_cons {t : τ} {e : Event τ} (h : e ≠ .sleep t) (log : List (Event τ)) :
    wakeups t (e :: log) = wakeups t log + if e = .woken t then 1 else 0 := by
  rw [wakeups, since_cons_ne h, List.count_cons, wakeups]
  congr 1
  by_cases he : e = .woken t <;> simp [he]

inductive Step : Cond τ → Cond τ → Prop
  | sleep {s : Cond τ} (t : τ) : Step s ⟨s.waiting ++ [t], .sleep t :: s.log⟩
  | wake {s : Cond τ} (u : τ) (us : List τ) (hq : s.waiting = u :: us) :
      Step s ⟨us, .woken u :: s.log⟩
  | awake {s : Cond τ} (t : τ) (h : wakeups t s.log = 1) :
    Step s { s with log := .awake t :: s.log }

/-- A task that is awake went to sleep and was woken once since. -/
def Woken (e : Event τ) (older : List (Event τ)) : Prop :=
  ∀ t, e = .awake t → .sleep t ∈ older ∧ wakeups t older = 1

structure Inv (s : Cond τ) : Prop where
  fifo : hist slept? s.log = hist woken? s.log ++ s.waiting
  asleep : ∀ t, .sleep t ∈ s.log → wakeups t s.log = 0 → t ∈ s.waiting
  woken : Always Woken s.log

theorem inv_init : Inv (⟨[], []⟩ : Cond τ) where
  fifo := rfl
  asleep _ h := absurd h (by simp)
  woken := always_nil Woken

/-- Whoever was woken had gone to sleep. -/
theorem Inv.slept {s : Cond τ} (h : Inv s) {t : τ} (ht : wakeups t s.log ≠ 0) :
    .sleep t ∈ s.log := by
  have hmem : .woken t ∈ since (.sleep t) s.log :=
    List.count_pos_iff.mp (Nat.pos_of_ne_zero ht)
  have hlog : .woken t ∈ s.log := (List.takeWhile_sublist _).subset hmem
  rw [← mem_hist_slept, h.fifo]
  exact List.mem_append_left _ (mem_hist_woken hlog)

theorem Step.inv {s s' : Cond τ} (h : Inv s) (hs : Step s s') : Inv s' := by
  have hfifo := h.fifo
  cases hs with
  | sleep t =>
    constructor
    case fifo => simp [slept?, woken?, hfifo]
    case asleep =>
      intro u hu hw
      by_cases hut : u = t
      · simp [hut]
      · have hne : Event.sleep t ≠ .sleep u := fun he => hut (Event.sleep.inj he).symm
        rw [wakeups_cons hne, if_neg (by simp)] at hw
        have hold : .sleep u ∈ s.log := by simpa [hut] using hu
        exact List.mem_append_left _ (h.asleep u hold hw)
    case woken => exact always_cons (by simp [Woken]) h.woken
  | wake u us hq =>
    constructor
    case fifo =>
      rw [hq] at hfifo
      simp [slept?, woken?, hfifo]
    case asleep =>
      intro v hv hw
      rw [wakeups_cons (by simp)] at hw
      have hvu : v ≠ u := by
        rintro rfl
        simp at hw
      have hold := h.asleep v (by simpa using hv) (by omega)
      rw [hq] at hold
      simpa [hvu] using hold
    case woken => exact always_cons (by simp [Woken]) h.woken
  | awake t ht =>
    constructor
    case fifo => simpa [slept?, woken?] using hfifo
    case asleep =>
      intro u hu hw
      rw [wakeups_cons (by simp), if_neg (by simp)] at hw
      exact h.asleep u (by simpa using hu) hw
    case woken =>
      refine always_cons (fun u hu => ?_) h.woken
      obtain rfl := Event.awake.inj hu
      exact ⟨h.slept (by omega), ht⟩

end CondVar
