import Libtask.ChannelSpec

/-! What the functions of channel.c leave alone and what they do not look at: whatever the state,
they neither switch nor queue an alt before the end of `chanalt`, and they commute with any
change that keeps the channels and the arrays they are given. -/
namespace Libtask
open Function

variable {σ τ : Type}

/-- From `s` to `s'` nobody gave up the CPU and no alt was queued. -/
structure Serves (s s' : Sys σ) : Prop where
  taskrunning : s'.taskrunning = s.taskrunning
  control : s'.control = s.control
  queued : ∀ c op p, p ∈ (s'.chan c).arr op → p ∈ (s.chan c).arr op

/-- A computation that succeeds went through its first part. -/
theorem bind_ok {α β ε : Type} {x : Except ε α} {f : α → Except ε β} {b : β}
    (h : (x >>= f) = .ok b) : ∃ a, x = .ok a ∧ f a = .ok b := by
  cases x with
  | error e => cases h
  | ok a => exact ⟨a, rfl, h⟩

theorem map_ok {α β ε : Type} {x : Except ε α} {f : α → β} {b : β} (h : x.map f = .ok b) :
    ∃ a, x = .ok a ∧ f a = b := by
  cases x with
  | error e => cases h
  | ok a => exact ⟨a, rfl, Except.ok.inj h⟩

/-- The ways an element can go through a channel. -/
inductive Copies (s : Sys σ) : Sys σ → Prop
  | nothing : Copies s s
  | direct (c : ℕ) (p : AltPtr) (snd : Alt) (q : AltPtr) (rcv : Alt) :
      Copies s (altcopyDirect c p snd q rcv s)
  | recv (c : ℕ) (q : AltPtr) (rcv : Alt) : Copies s (altcopyRecv c q rcv s)
  | send {s' : Sys σ} (c : ℕ) (p : AltPtr) (snd : Alt) (h : altcopySend c p snd s = .ok s') :
      Copies s s'
  | both {s' : Sys σ} (c : ℕ) (p : AltPtr) (snd : Alt) (q : AltPtr) (rcv : Alt)
      (h : altcopySend c p snd (altcopyRecv c q rcv s) = .ok s') : Copies s s'

theorem altcopy_cases {s s' : Sys σ} {a b : Option AltPtr} (h : altcopy a b s = .ok s') :
    Copies s s' := by
  unfold altcopy at h
  split at h
  · cases h
    exact .nothing
  · cases h
  · obtain ⟨x, _, h⟩ := bind_ok h
    simp only at h
    split at h
    · obtain ⟨y, _, h⟩ := bind_ok h
      obtain ⟨z, _, h⟩ := bind_ok h
      split at h
      · cases h
      · split at h
        · cases h
          exact .direct _ _ _ _ _
        · exact .both _ _ _ _ _ h
    · obtain ⟨z, _, h⟩ := bind_ok h
      split at h
      · cases h
      · cases h
        exact .recv _ _ _
    · obtain ⟨y, _, h⟩ := bind_ok h
      split at h
      · cases h
      · exact .send _ _ _ h
    · cases h
      exact .nothing

theorem altcopySend_alts {s s' : Sys σ} {c : ℕ} {p : AltPtr} {snd : Alt}
    (h : altcopySend c p snd s = .ok s') : s'.alts = s.alts := by
  unfold altcopySend at h
  simp only at h
  split at h
  · cases h
  · cases h
    rfl

theorem altcopy_alts {s s' : Sys σ} {a b : Option AltPtr} (h : altcopy a b s = .ok s') :
    s'.alts = s.alts := by
  cases altcopy_cases h with
  | nothing | direct | recv => rfl
  | send _ _ _ hs => exact altcopySend_alts hs
  | both _ _ _ _ _ hs => exact (altcopySend_alts hs).trans rfl

namespace Serves
variable {s s' s'' : Sys σ} {p q : AltPtr}

theorem refl (s : Sys σ) : Serves s s := ⟨rfl, rfl, fun _ _ _ h => h⟩

theorem trans (h : Serves s s') (h' : Serves s' s'') : Serves s s'' where
  taskrunning := h'.taskrunning.trans h.taskrunning
  control := h'.control.trans h.control
  queued c op p hp := h.queued c op p (h'.queued c op p hp)

/-- One channel changes, and its queues lose entries at most. -/
theorem of_chan {c : ℕ} {x : Channel} (hr : s'.taskrunning = s.taskrunning)
    (hc : s'.control = s.control) (hchan : s'.chan = update s.chan c x)
    (h : ∀ op, ∀ p ∈ x.arr op, p ∈ (s.chan c).arr op) : Serves s s' where
  taskrunning := hr
  control := hc
  queued c' op p hp := by
    rw [hchan] at hp
    by_cases hc' : c' = c
    · subst hc'
      rw [update_self] at hp
      exact h op p hp
    · rwa [update_of_ne hc'] at hp

/-- An element goes through a channel, and its queues stay as they are. -/
theorem of_copy {c : ℕ} {x : Channel} (hr : s'.taskrunning = s.taskrunning)
    (hc : s'.control = s.control) (hchan : s'.chan = update s.chan c x)
    (hs : x.asend = (s.chan c).asend) (hv : x.arecv = (s.chan c).arecv) : Serves s s' := by
  refine of_chan hr hc hchan fun op p hp => ?_
  cases op with
  | CHANSND =>
    have hp' : p ∈ x.asend := hp
    rwa [hs] at hp'
  | CHANRCV =>
    have hp' : p ∈ x.arecv := hp
    rwa [hv] at hp'
  | CHANEND | CHANNOP | CHANNOBLK => exact hp

theorem mem_delarray {α : Type} {a : List α} {i : ℕ} {x : α} (h : x ∈ delarray a i) : x ∈ a := by
  unfold delarray at h
  split at h
  · rename_i y hy
    have hset := List.mem_of_mem_dropLast h
    rcases List.mem_or_eq_of_mem_set hset with hx | rfl
    · exact hx
    · exact List.mem_of_getLast? hy
  · exact h

theorem altdequeue (h : altdequeue p s = .ok s') : Serves s s' := by
  unfold Libtask.altdequeue at h
  cases hd : s.deref p with
  | error v =>
    rw [hd] at h
    cases h
  | ok a =>
    simp only [hd, bind, Except.bind] at h
    split at h
    · cases h
    · rename_i ar har
      split at h
      · cases h
        refine of_chan rfl rfl rfl fun op q hq => ?_
        cases hop : a.op with
        | CHANSND | CHANRCV =>
          rw [hop] at har hq
          cases har
          cases op with
          | CHANSND | CHANRCV => first | exact hq | exact mem_delarray hq
          | CHANEND | CHANNOP | CHANNOBLK => exact hq
        | CHANEND | CHANNOP | CHANNOBLK =>
          rw [hop] at har
          cases har
      · cases h

theorem altalldequeueFrom {as : List Alt} (h : altalldequeueFrom p as s = .ok s') :
    Serves s s' := by
  induction as generalizing s p with
  | nil => cases h
  | cons a as ih =>
    unfold Libtask.altalldequeueFrom at h
    split at h
    · cases h
      exact refl _
    · split at h
      · cases hd : Libtask.altdequeue p s with
        | error v =>
          rw [hd] at h
          cases h
        | ok s₁ =>
          rw [hd] at h
          exact (altdequeue hd).trans (ih h)
      · exact ih h

theorem altalldequeue (h : altalldequeue p s = .ok s') : Serves s s' := altalldequeueFrom h

theorem altcopyDirect (s : Sys σ) (c : ℕ) (snd rcv : Alt) :
    Serves s (altcopyDirect c p snd q rcv s) := ⟨rfl, rfl, fun _ _ _ h => h⟩

theorem altcopyRecv (s : Sys σ) (c : ℕ) (rcv : Alt) : Serves s (altcopyRecv c q rcv s) := by
  exact of_copy rfl rfl rfl rfl rfl

theorem altcopySend {c : ℕ} {snd : Alt} (h : altcopySend c p snd s = .ok s') : Serves s s' := by
  unfold Libtask.altcopySend at h
  simp only at h
  split at h
  · cases h
  · cases h
    exact of_copy rfl rfl rfl rfl rfl

theorem altcopy {a b : Option AltPtr} (h : altcopy a b s = .ok s') : Serves s s' := by
  cases altcopy_cases h with
  | nothing => exact refl s
  | direct => exact altcopyDirect s _ _ _
  | recv => exact altcopyRecv s _ _
  | send _ _ _ hs => exact altcopySend hs
  | both _ _ _ _ _ hs => exact (altcopyRecv s _ _).trans (altcopySend hs)

theorem altexecMatch {rand : ℕ} {u : Option TaskPtr} (h : altexecMatch p rand s = .ok (s', u)) :
    Serves s s' := by
  unfold Libtask.altexecMatch at h
  obtain ⟨a, _, h⟩ := bind_ok h
  split at h
  · obtain ⟨s₁, hcopy, h⟩ := bind_ok h
    obtain ⟨x, _, h⟩ := bind_ok h
    obtain ⟨s₂, hdeq, h⟩ := bind_ok h
    cases h
    have hserves := (altcopy hcopy).trans (altalldequeue hdeq)
    exact ⟨hserves.taskrunning, hserves.control, hserves.queued⟩
  · obtain ⟨s₁, hcopy, h⟩ := bind_ok h
    cases h
    exact altcopy hcopy

/-- Readying the partner puts it on the run queue and does not switch to it. -/
theorem altexec {s s' : Sys Links} {rand : ℕ} (h : altexec p rand s = .ok s') : Serves s s' := by
  unfold Libtask.altexec at h
  obtain ⟨r, hmatch, h⟩ := bind_ok h
  obtain ⟨s₁, u⟩ := r
  have hserves := altexecMatch hmatch
  cases u with
  | none =>
    cases h
    exact hserves
  | some u =>
    cases h
    exact ⟨hserves.taskrunning, hserves.control, hserves.queued⟩

end Serves

/-- A change `f` of the state that the writes of channel.c commute with. It keeps the channels,
and every array of which `B` holds. -/
structure Unseen (f : Sys σ → Sys τ) (B : ℕ → Prop) : Prop where
  chan : ∀ s, (f s).chan = s.chan
  alts : ∀ s base, B base → (f s).alts base = s.alts base
  setChan : ∀ s c x, (f s).setChan c x = f (s.setChan c x)
  setXalt : ∀ s p q, B p.base → (f s).setXalt p q = f (s.setXalt p q)
  altcopyDirect : ∀ s c p snd q rcv,
    altcopyDirect c p snd q rcv (f s) = f (altcopyDirect c p snd q rcv s)
  altcopyRecv : ∀ s c q rcv, altcopyRecv c q rcv (f s) = f (altcopyRecv c q rcv s)
  altcopySend : ∀ s c p snd, altcopySend c p snd (f s) = (altcopySend c p snd s).map f

/-- A change `f` of the state that the writes of the queues commute with. It keeps the channels,
and every array of which `B` holds. -/
structure OffQueues (f : Sys σ → Sys τ) (B : ℕ → Prop) : Prop where
  chan : ∀ s, (f s).chan = s.chan
  alts : ∀ s base, B base → (f s).alts base = s.alts base
  setChan : ∀ s c x, (f s).setChan c x = f (s.setChan c x)
  setXalt : ∀ s p q, B p.base → (f s).setXalt p q = f (s.setXalt p q)

/-- The branch `p` is the same before and after the change `f`. -/
def KeepsAlt (f : Sys σ → Sys τ) (p : AltPtr) : Prop := ∀ s, (f s).alt? p = s.alt? p

namespace OffQueues
variable {f : Sys σ → Sys τ} {B : ℕ → Prop} {s : Sys σ} {p q : AltPtr} {base : ℕ}

theorem deref (hp : KeepsAlt f p) : (f s).deref p = s.deref p := by
  rw [Sys.deref, hp, Sys.deref]

theorem alt? (h : OffQueues f B) (hp : B p.base) : KeepsAlt f p := by
  intro s
  rw [Sys.alt?, h.alts s p.base hp, Sys.alt?]

theorem altcanexec (h : OffQueues f B) (hp : KeepsAlt f p) :
    altcanexec (f s) p = altcanexec s p := by
  unfold Libtask.altcanexec
  rw [hp, h.chan]

theorem altcanexec_branch (h : OffQueues f B) (hb : B base) (i : ℕ) :
    Libtask.altcanexec (f s) ⟨base, i⟩ = Libtask.altcanexec s ⟨base, i⟩ :=
  h.altcanexec (h.alt? (p := ⟨base, i⟩) hb)

theorem altselect (h : OffQueues f B) (hb : B base) (j : ℕ) (is : List ℕ) :
    altselect base (f s) j is = altselect base s j is := by
  induction is generalizing j with
  | nil => rfl
  | cons i is ih =>
    simp only [Libtask.altselect, ih, h.altcanexec_branch hb]

theorem altpick (h : OffQueues f B) (hb : B base) (n rand : ℕ) :
    altpick base (f s) n rand = altpick base s n rand := by
  have hncan : altncan base (f s) n = altncan base s n := by
    simp only [altncan, h.altcanexec_branch hb]
  rw [Libtask.altpick, hncan, h.altselect hb, Libtask.altpick]

theorem altqueue (h : OffQueues f B) (hp : KeepsAlt f p) :
    altqueue p (f s) = (altqueue p s).map f := by
  unfold Libtask.altqueue
  rw [deref hp]
  cases s.deref p with
  | error v => rfl
  | ok a =>
    simp only [bind, Except.bind, h.chan, h.setChan]
    split <;> rfl

theorem altqueueAll (h : OffQueues f B) (hb : B base) (is : List ℕ) :
    altqueueAll base is (f s) = (altqueueAll base is s).map f := by
  induction is generalizing s with
  | nil => rfl
  | cons i is ih =>
    have hp : KeepsAlt f ⟨base, i⟩ := h.alt? hb
    simp only [Libtask.altqueueAll, deref hp]
    cases s.deref ⟨base, i⟩ with
    | error v => rfl
    | ok a =>
      simp only [bind, Except.bind]
      split
      · rw [h.altqueue hp]
        cases Libtask.altqueue ⟨base, i⟩ s with
        | error v => rfl
        | ok s' => exact ih
      · exact ih

theorem altdequeue (h : OffQueues f B) (hp : KeepsAlt f p) :
    altdequeue p (f s) = (altdequeue p s).map f := by
  unfold Libtask.altdequeue
  rw [deref hp]
  cases s.deref p with
  | error v => rfl
  | ok a =>
    simp only [bind, Except.bind, h.chan, h.setChan]
    split
    · rfl
    · split <;> rfl

theorem altalldequeueFrom (h : OffQueues f B) (hp : B p.base) (as : List Alt) :
    altalldequeueFrom p as (f s) = (altalldequeueFrom p as s).map f := by
  induction as generalizing s p with
  | nil => rfl
  | cons a as ih =>
    unfold Libtask.altalldequeueFrom
    split
    · rfl
    · simp only [bind, Except.bind]
      split
      · rw [h.altdequeue (h.alt? hp)]
        cases Libtask.altdequeue p s with
        | error v => rfl
        | ok s' => exact ih (p := { p with idx := p.idx + 1 }) hp
      · exact ih (p := { p with idx := p.idx + 1 }) hp

theorem altalldequeue (h : OffQueues f B) (hp : B p.base) :
    altalldequeue p (f s) = (altalldequeue p s).map f := by
  unfold Libtask.altalldequeue
  rw [h.alts s p.base hp]
  exact h.altalldequeueFrom hp _

theorem altpartner (h : OffQueues f B) (hp : KeepsAlt f p) (rand : ℕ) :
    altpartner p rand (f s) = altpartner p rand s := by
  simp only [Libtask.altpartner, hp s, h.chan]

theorem altcommit (h : OffQueues f B) {o : Option AltPtr}
    (ho : ∀ q, o = some q → KeepsAlt f q ∧ ∀ y, s.alt? q = some y → B y.xalt.base) :
    altcommit (f s) o = (altcommit s o).map fun r => (f r.1, r.2) := by
  cases o with
  | none => rfl
  | some q =>
    obtain ⟨hq, hb⟩ := ho q rfl
    simp only [Libtask.altcommit, deref hq]
    cases hy : s.deref q with
    | error v => rfl
    | ok y =>
      have hxalt := hb y (alt?_of_deref hy)
      simp only [bind, Except.bind, h.altalldequeue hxalt]
      cases Libtask.altalldequeue y.xalt s with
      | error v => rfl
      | ok s' => exact congrArg (fun s => Except.ok (s, some y.task)) (h.setXalt s' y.xalt q hxalt)

end OffQueues

namespace Unseen
variable {f : Sys σ → Sys τ} {B : ℕ → Prop} {s : Sys σ} {p q : AltPtr}

theorem offQueues (h : Unseen f B) : OffQueues f B where
  chan := h.chan
  alts := h.alts
  setChan := h.setChan
  setXalt := h.setXalt

theorem altcopy (h : Unseen f B) {a b : Option AltPtr} (ha : ∀ p, a = some p → KeepsAlt f p)
    (hb : ∀ p, b = some p → KeepsAlt f p) : altcopy a b (f s) = (altcopy a b s).map f := by
  cases a with
  | none => cases b <;> rfl
  | some p =>
    have hsees : ∀ x : Alt, ∀ snd rcv : Option AltPtr,
        (if x.op = .CHANRCV then (b, some p) else (some p, b)) = (snd, rcv) →
        (∀ q, snd = some q → KeepsAlt f q) ∧ ∀ q, rcv = some q → KeepsAlt f q := by
      intro x snd rcv hsr
      split at hsr
      · cases hsr
        exact ⟨hb, ha⟩
      · cases hsr
        exact ⟨ha, hb⟩
    simp only [Libtask.altcopy, bind, Except.bind, OffQueues.deref (ha p rfl)]
    cases s.deref p with
    | error v => rfl
    | ok x =>
      simp only [h.chan]
      generalize hsr : (if x.op = .CHANRCV then (b, some p) else (some p, b)) = sr
      obtain ⟨snd, rcv⟩ := sr
      obtain ⟨hsnd, hrcv⟩ := hsees x snd rcv hsr
      cases snd with
      | none =>
        cases rcv with
        | none => rfl
        | some q =>
          simp only [OffQueues.deref (hrcv q rfl)]
          cases s.deref q with
          | error v => rfl
          | ok z =>
            simp only [h.altcopyRecv]
            split <;> rfl
      | some p' =>
        cases rcv with
        | none =>
          simp only [OffQueues.deref (hsnd p' rfl)]
          cases s.deref p' with
          | error v => rfl
          | ok y =>
            simp only [h.altcopySend]
            split <;> rfl
        | some q =>
          simp only [OffQueues.deref (hsnd p' rfl), OffQueues.deref (hrcv q rfl)]
          cases s.deref p' with
          | error v => rfl
          | ok y =>
            cases s.deref q with
            | error v => rfl
            | ok z =>
              simp only [h.altcopyDirect, h.altcopyRecv, h.altcopySend]
              split
              · rfl
              · split <;> rfl

/-- Only the alts that wait on the other side of the branch are looked at besides it. -/
theorem altexecMatch (h : Unseen f B) (hp : KeepsAlt f p) (rand : ℕ)
    (hq : ∀ x, s.alt? p = some x → ∀ q ∈ (s.chan x.c).arr (otherop x.op),
      KeepsAlt f q ∧ ∀ y, s.alt? q = some y → B y.xalt.base) :
    altexecMatch p rand (f s) = (altexecMatch p rand s).map fun r => (f r.1, r.2) := by
  cases hx : s.alt? p with
  | none =>
    unfold Libtask.altexecMatch
    rw [OffQueues.deref hp, Sys.deref, hx]
    rfl
  | some x =>
    have hother : ∀ q, altpartner p rand s = some q →
        KeepsAlt f q ∧ ∀ y, s.alt? q = some y → B y.xalt.base := fun q he =>
      hq x hx q (mem_of_altpartner hx he)
    rw [altexecMatch_eq hx, altexecMatch_eq ((hp s).trans hx), h.offQueues.altpartner hp,
      h.altcopy (fun _ he => Option.some.inj he ▸ hp) fun q he => (hother q he).1]
    cases hcopy : Libtask.altcopy (some p) (altpartner p rand s) s with
    | error v => rfl
    | ok s₁ =>
      refine h.offQueues.altcommit fun q he => ?_
      rw [Sys.alt?, altcopy_alts hcopy, ← Sys.alt?]
      exact hother q he

end Unseen
end Libtask
