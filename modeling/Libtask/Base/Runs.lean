import Mathlib.Logic.Relation
import Mathlib.Data.List.Basic

/-! Runs of a step relation, the invariant and simulation rules for what they reach, and
histories read off a log that is kept newest first. -/
namespace Runs
open Relation

section Reach
variable {σ τ ι : Type*}

/-- One step of a partial step function on an input that `ok` admits. -/
def Step (step : ι → σ → Option σ) (ok : σ → ι → Prop) (s t : σ) : Prop :=
  ∃ i, ok s i ∧ step i s = some t

/-- States that `r` leads to from an initial state. -/
def Reach (r : σ → σ → Prop) (init : σ → Prop) (t : σ) : Prop := ∃ s, init s ∧ ReflTransGen r s t

/-- Run a whole list of inputs. -/
def exec (step : ι → σ → Option σ) : List ι → σ → Option σ
  | [], s => some s
  | i :: is, s => (step i s).bind (exec step is)

variable {r : σ → σ → Prop} {r' : τ → τ → Prop} {init : σ → Prop} {init' : τ → Prop}

theorem Reach.of_init {s : σ} (h : init s) : Reach r init s := ⟨s, h, .refl⟩

theorem Reach.snoc {s t : σ} (h : Reach r init s) (hs : r s t) : Reach r init t := by
  obtain ⟨s₀, h₀, hp⟩ := h
  exact ⟨s₀, h₀, hp.tail hs⟩

theorem Reach.trans {s t : σ} (h : Reach r init s) (hp : ReflTransGen r s t) : Reach r init t := by
  obtain ⟨s₀, h₀, hp₀⟩ := h
  exact ⟨s₀, h₀, hp₀.trans hp⟩

theorem Reach.mono {p : σ → σ → Prop} (hrp : ∀ s t, r s t → p s t) {t : σ} (h : Reach r init t) :
    Reach p init t := by
  obtain ⟨s, hs, hp⟩ := h
  exact ⟨s, hs, ReflTransGen.mono hrp _ _ hp⟩

/-- Induction over what is reached, the invariant rule as an eliminator. -/
@[elab_as_elim]
theorem Reach.induct {motive : (t : σ) → Reach r init t → Prop}
    (init : ∀ {s} (h : init s), motive s (.of_init h))
    (step : ∀ {s t} (h : Reach r _ s) (hs : r s t), motive s h → motive t (h.snoc hs))
    {t : σ} (h : Reach r _ t) : motive t h := by
  obtain ⟨s, hi, hp⟩ := h
  induction hp with
  | refl => exact init hi
  | tail hp hst ih => exact step ⟨s, hi, hp⟩ hst ih

/-- Forward simulation: every step from a reachable state is matched by a run on the other
side that keeps the states related. -/
theorem ReflTransGen.simulate {R : σ → τ → Prop}
    (hs : ∀ s t a, Reach r init s → Reach r' init' a → R s a → r s t →
      ∃ b, ReflTransGen r' a b ∧ R t b)
    {s t : σ} {a : τ} (h : Reach r init s) (h' : Reach r' init' a) (hR : R s a)
    (hp : ReflTransGen r s t) : ∃ b, ReflTransGen r' a b ∧ R t b := by
  induction hp with
  | refl => exact ⟨a, .refl, hR⟩
  | tail hp hst ih =>
    obtain ⟨b, hb, hRb⟩ := ih
    obtain ⟨c, hc, hRc⟩ := hs _ _ b (h.trans hp) (h'.trans hb) hRb hst
    exact ⟨c, hb.trans hc, hRc⟩

theorem Reach.simulate {R : σ → τ → Prop} (h₀ : ∀ s, init s → ∃ a, init' a ∧ R s a)
    (hs : ∀ s t a, Reach r init s → Reach r' init' a → R s a → r s t →
      ∃ b, ReflTransGen r' a b ∧ R t b)
    {t : σ} (h : Reach r init t) : ∃ b, Reach r' init' b ∧ R t b := by
  obtain ⟨s, hi, hp⟩ := h
  obtain ⟨a, ha, hR⟩ := h₀ s hi
  obtain ⟨b, hb, hRb⟩ := ReflTransGen.simulate hs (.of_init hi) (.of_init ha) hR hp
  exact ⟨b, ⟨a, ha, hb⟩, hRb⟩

/-- Run a list of inputs as long as each is admitted. -/
def execBy (step : ι → σ → Option σ) (ok : σ → ι → Prop) [∀ s i, Decidable (ok s i)] :
    List ι → σ → Option σ :=
  exec fun i s => if ok s i then step i s else none

theorem path_of_execBy {step : ι → σ → Option σ} {ok : σ → ι → Prop} [∀ s i, Decidable (ok s i)]
    {is : List ι} {s t : σ} (h : execBy step ok is s = some t) :
    ReflTransGen (Step step ok) s t := by
  induction is generalizing s with
  | nil =>
    cases h
    exact .refl
  | cons i is ih =>
    obtain ⟨u, hu, ht⟩ := Option.bind_eq_some_iff.mp h
    obtain ⟨hok, hs⟩ := Option.ite_none_right_eq_some.mp hu
    exact .head ⟨i, hok, hs⟩ (ih ht)

end Reach

section History
variable {ε β : Type*}

/-- The `f`-events of a newest-first log, oldest first. -/
def hist (f : ε → Option β) (log : List ε) : List β := (log.filterMap f).reverse

variable (f : ε → Option β)

@[simp] theorem hist_nil : hist f [] = [] := rfl

@[simp] theorem hist_cons (e : ε) (log : List ε) :
    hist f (e :: log) = hist f log ++ (f e).toList := by
  cases h : f e <;> simp [hist, h]

@[simp] theorem hist_append (new log : List ε) :
    hist f (new ++ log) = hist f log ++ hist f new := by
  simp [hist]

/-- The part of a newest-first log that is younger than the last occurrence of `e`. -/
def since [DecidableEq ε] (e : ε) (log : List ε) : List ε := log.takeWhile (· ≠ e)

@[simp] theorem since_cons_self [DecidableEq ε] (e : ε) (log : List ε) :
    since e (e :: log) = [] := by
  simp [since]

theorem since_cons_ne [DecidableEq ε] {e d : ε} (h : d ≠ e) (log : List ε) :
    since e (d :: log) = d :: since e log := by
  simp [since, h]

theorem since_append [DecidableEq ε] {e : ε} {new : List ε} (h : e ∉ new) (log : List ε) :
    since e (new ++ log) = new ++ since e log := by
  induction new with
  | nil => rfl
  | cons d new ih =>
    simp only [List.mem_cons, not_or] at h
    rw [List.cons_append, since_cons_ne (Ne.symm h.1), ih h.2, List.cons_append]

/-- Every event of a newest-first log satisfies `P`, given what is older. -/
def Always (P : ε → List ε → Prop) (log : List ε) : Prop :=
  ∀ newer e older, log = newer ++ e :: older → P e older

theorem always_nil (P : ε → List ε → Prop) : Always P [] := by
  intro newer e older h
  simp at h

theorem always_cons {P : ε → List ε → Prop} {e : ε} {log : List ε} (he : P e log)
    (h : Always P log) : Always P (e :: log) := by
  intro newer d older hl
  cases newer with
  | nil =>
    obtain ⟨rfl, rfl⟩ := List.cons.inj hl
    exact he
  | cons e' newer => exact h newer d older (List.cons.inj hl).2

theorem Always.head {P : ε → List ε → Prop} {e : ε} {log : List ε} (h : Always P (e :: log)) :
    P e log :=
  h [] e log rfl

theorem Always.tail {P : ε → List ε → Prop} {e : ε} {log : List ε} (h : Always P (e :: log)) :
    Always P log := by
  intro newer d older hl
  exact h (e :: newer) d older (by rw [hl, List.cons_append])

/-- Events that satisfy `P` whatever is older may come at any time. -/
theorem always_append {P : ε → List ε → Prop} {new log : List ε}
    (hnew : ∀ e ∈ new, ∀ older, P e older) (h : Always P log) : Always P (new ++ log) := by
  induction new with
  | nil => exact h
  | cons e new ih =>
    exact always_cons (hnew e (by simp) _) (ih fun d hd => hnew d (by simp [hd]))

/-- What came after the last `b` of a newest-first log and what came before it satisfy `P`. -/
def SinceLast (b : ε) (P : List ε → List ε → Prop) (log : List ε) : Prop :=
  ∃ mid old, log = mid ++ b :: old ∧ b ∉ mid ∧ P mid old

theorem SinceLast.start {b : ε} {P : List ε → List ε → Prop} {log : List ε} (h : P [] log) :
    SinceLast b P (b :: log) := ⟨[], log, rfl, by simp, h⟩

theorem SinceLast.append {b : ε} {P Q : List ε → List ε → Prop} {log : List ε}
    (h : SinceLast b P log) (new : List ε) (hb : b ∉ new)
    (hPQ : ∀ mid old, P mid old → Q (new ++ mid) old) :
    SinceLast b Q (new ++ log) := by
  obtain ⟨mid, old, rfl, hmid, hP⟩ := h
  refine ⟨new ++ mid, old, by simp, ?_, hPQ mid old hP⟩
  simp only [List.mem_append, not_or]
  exact ⟨hb, hmid⟩

theorem SinceLast.cons {b e : ε} {P Q : List ε → List ε → Prop} {log : List ε}
    (h : SinceLast b P log) (hb : b ≠ e) (hPQ : ∀ mid old, P mid old → Q (e :: mid) old) :
    SinceLast b Q (e :: log) :=
  h.append [e] (by simpa using hb) hPQ

theorem SinceLast.mono {b : ε} {P Q : List ε → List ε → Prop} {log : List ε}
    (h : SinceLast b P log) (hPQ : ∀ mid old, P mid old → Q mid old) : SinceLast b Q log := by
  obtain ⟨mid, old, hl, hmid, hP⟩ := h
  exact ⟨mid, old, hl, hmid, hPQ mid old hP⟩

/-- `start` has happened, and `stop` has not happened since. -/
def Pending (start stop : ε) (log : List ε) : Prop :=
  SinceLast start (fun mid _ => stop ∉ mid) log

section Pending
variable {start stop : ε} {new log : List ε}

theorem Pending.begin (start stop : ε) (log : List ε) : Pending start stop (start :: log) :=
  .start (by simp)

theorem Pending.mem (h : Pending start stop log) : start ∈ log := by
  obtain ⟨mid, old, rfl, _⟩ := h
  simp

theorem Pending.append (h : Pending start stop log) (new : List ε) (hstart : start ∉ new)
    (hstop : stop ∉ new) :
    Pending start stop (new ++ log) := by
  apply SinceLast.append h new hstart
  intro mid _ hmid
  simp only [List.mem_append, not_or]
  exact ⟨hstop, hmid⟩

/-- What is pending and did not start just now was pending before. -/
theorem Pending.of_append (new : List ε) (h : Pending start stop (new ++ log))
    (hstart : start ∉ new) :
    Pending start stop log ∧ stop ∉ new := by
  obtain ⟨mid, old, hlog, hmid, hstop⟩ := h
  rcases List.append_eq_append_iff.mp hlog with ⟨rest, rfl, hrest⟩ | ⟨rest, rfl, hrest⟩
  · simp only [List.mem_append, not_or] at hmid hstop
    exact ⟨⟨rest, old, hrest, hmid.2, hstop.2⟩, hstop.1⟩
  · cases rest with
    | nil =>
      rw [List.append_nil]
      exact ⟨⟨[], old, hrest.symm, by simp, by simp⟩, hstop⟩
    | cons e rest =>
      obtain ⟨rfl, _⟩ := List.cons.inj hrest
      exact absurd (by simp) hstart

/-- Two ways to split a log: `e`, of which nothing but `new` is younger, is younger than `d`. -/
theorem mem_since {e d : ε} {new old mid old' : List ε} (h : new ++ e :: old = mid ++ d :: old')
    (hnew : d ∉ new) (hne : d ≠ e) : e ∈ mid := by
  rcases List.append_eq_append_iff.mp h with ⟨rest, rfl, hrest⟩ | ⟨rest, rfl, hrest⟩
  · cases rest with
    | nil => exact absurd (List.cons.inj hrest).1.symm hne
    | cons x rest =>
      obtain ⟨rfl, _⟩ := List.cons.inj hrest
      simp
  · cases rest with
    | nil => exact absurd (List.cons.inj hrest).1 hne
    | cons x rest =>
      obtain ⟨rfl, _⟩ := List.cons.inj hrest
      simp at hnew

end Pending

end History
end Runs
