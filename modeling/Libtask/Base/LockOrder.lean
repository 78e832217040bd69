import Libtask.Base.HandoffLock
import Mathlib.Order.WellFoundedSet

/-! Many locks that are handed over in line, and a rank for each. As long as nobody gets in
line for a lock that does not rank above all those it owns, nobody ever waits in a circle. -/
namespace LockOrder
open Function Relation Runs
open HandoffLock (Event)

variable {κ τ : Type} {ι : Type*} [Preorder ι]

/-- The owners, the lines and one history of all the locks, newest event first. -/
structure Locks (κ τ : Type) where
  owner : κ → Option τ
  line : κ → List τ
  log : List (κ × Event τ)

/-- `t` is in line for a lock that `u` owns. -/
def WaitsFor (s : Locks κ τ) (t u : τ) : Prop := ∃ k, t ∈ s.line k ∧ s.owner k = some u

/-- Who is in line for a lock owns only locks below it. -/
def Ordered (rank : κ → ι) (s : Locks κ τ) : Prop :=
  ∀ k t, t ∈ s.line k → ∀ k', s.owner k' = some t → rank k' < rank k

section Ordered
variable {rank : κ → ι} {s : Locks κ τ} {t u : τ}

/-- Along a chain of waiting tasks the ranks go up. -/
theorem Ordered.chain (h : Ordered rank s) (hw : TransGen (WaitsFor s) t u) :
    ∃ k k', t ∈ s.line k ∧ s.owner k' = some u ∧ rank k ≤ rank k' := by
  induction hw with
  | single hw =>
    obtain ⟨k, ht, hu⟩ := hw
    exact ⟨k, k, ht, hu, le_refl _⟩
  | tail _ hw ih =>
    obtain ⟨k, k', ht, hu, hle⟩ := ih
    obtain ⟨k'', hline, hown⟩ := hw
    have hlt : rank k' < rank k'' := h k'' _ hline k' hu
    exact ⟨k, k'', ht, hown, hle.trans hlt.le⟩

theorem Ordered.acyclic (h : Ordered rank s) (t : τ) : ¬TransGen (WaitsFor s) t t := by
  intro hw
  obtain ⟨k, k', ht, hown, hle⟩ := h.chain hw
  exact absurd hle (h k t ht k' hown).not_ge

/-- When finitely many are in line, and nobody for a lock without owner, each of them waits, in
the end, for somebody who is in no line. -/
theorem Ordered.leads (h : Ordered rank s) {W : Set τ} (hW : W.Finite)
    (hline : ∀ k t, t ∈ s.line k → t ∈ W) (hown : ∀ k t, t ∈ s.line k → s.owner k ≠ none)
    {k : κ} (ht : t ∈ s.line k) : ∃ u, TransGen (WaitsFor s) t u ∧ ∀ k, u ∉ s.line k := by
  have hord : IsStrictOrder τ fun t u => TransGen (WaitsFor s) u t :=
    { irrefl := h.acyclic
      trans := fun _ _ _ h₁ h₂ => h₂.trans h₁ }
  have hwf := hW.wellFoundedOn (r := fun t u => TransGen (WaitsFor s) u t)
  have hall : ∀ t ∈ W, ∀ k, t ∈ s.line k →
      ∃ u, TransGen (WaitsFor s) t u ∧ ∀ k, u ∉ s.line k := by
    intro t htW
    apply hwf.induction htW
    intro t _ ih k ht
    obtain ⟨u, hu⟩ := Option.ne_none_iff_exists'.mp (hown k t ht)
    have htu : TransGen (WaitsFor s) t u := .single ⟨k, ht, hu⟩
    by_cases hq : ∃ k', u ∈ s.line k'
    · obtain ⟨k', hk'⟩ := hq
      obtain ⟨v, huv, hv⟩ := ih u (hline k' u hk') htu k' hk'
      exact ⟨v, htu.trans huv, hv⟩
    · exact ⟨u, htu, fun k' hk' => hq ⟨k', hk'⟩⟩
  exact hall t (hline k t ht) k ht

end Ordered

section Step
variable [DecidableEq κ]

/-- Who owns the lock `k`, going by the history. -/
def ownerOf (k : κ) : List (κ × Event τ) → Option τ
  | [] => none
  | (k', e) :: log =>
    if k' = k then
      match e with
      | .acquire t | .handoff t => some t
      | .release _ => none
      | .block _ | .back _ => ownerOf k log
    else ownerOf k log

/-- Whoever gets in line owns, by then, only locks below the one it waits for. -/
def InOrder (rank : κ → ι) (e : κ × Event τ) (older : List (κ × Event τ)) : Prop :=
  ∀ t, e.2 = .block t → ∀ k, ownerOf k older = some t → rank k < rank e.1

/-- What can happen to the locks, whoever releases them: a task acts while it is in no line. -/
inductive Step : Locks κ τ → Locks κ τ → Prop
  | acquire {s : Locks κ τ} (k : κ) (t : τ) (ho : s.owner k = none) (ht : ∀ k, t ∉ s.line k) :
      Step s { s with owner := update s.owner k (some t), log := (k, .acquire t) :: s.log }
  | block {s : Locks κ τ} (k : κ) (t : τ) (ho : s.owner k ≠ none) (ht : ∀ k, t ∉ s.line k) :
      Step s { s with line := update s.line k (s.line k ++ [t]), log := (k, .block t) :: s.log }
  | release {s : Locks κ τ} (k : κ) (t : τ) (hq : s.line k = []) :
      Step s { s with owner := update s.owner k none, log := (k, .release t) :: s.log }
  | handoff {s : Locks κ τ} (k : κ) (t u : τ) (us : List τ) (hq : s.line k = u :: us) :
      Step s {
        owner := update s.owner k (some u)
        line := update s.line k us
        log := (k, .handoff u) :: (k, .release t) :: s.log }
  | back {s : Locks κ τ} (k : κ) (t : τ) : Step s { s with log := (k, .back t) :: s.log }

structure Inv (rank : κ → ι) (s : Locks κ τ) : Prop where
  owner : ∀ k, s.owner k = ownerOf k s.log
  free : ∀ k, s.owner k = none → s.line k = []
  nodup : ∀ k, (s.line k).Nodup
  once : ∀ t k k', t ∈ s.line k → t ∈ s.line k' → k = k'
  ordered : Always (InOrder rank) s.log → Ordered rank s

variable {rank : κ → ι} {s s' : Locks κ τ}

theorem inv_init : Inv rank (⟨fun _ => none, fun _ => [], []⟩ : Locks κ τ) where
  owner _ := rfl
  free _ _ := rfl
  nodup _ := List.nodup_nil
  once _ _ _ h := absurd h List.not_mem_nil
  ordered _ _ _ h := absurd h List.not_mem_nil

/-- What an event does to the owners. -/
theorem ownerOf_cons (k k' : κ) (e : Event τ) (log : List (κ × Event τ)) :
    ownerOf k ((k', e) :: log) = if k' = k then
      match e with
      | .acquire t | .handoff t => some t
      | .release _ => none
      | .block _ | .back _ => ownerOf k log
    else ownerOf k log := rfl

theorem Step.owner (h : ∀ k, s.owner k = ownerOf k s.log) (hs : Step s s') (k : κ) :
    s'.owner k = ownerOf k s'.log := by
  cases hs with
  | acquire l t | release l t | handoff l t u us =>
    by_cases hk : l = k
    · simp [ownerOf_cons, hk]
    · simp [ownerOf_cons, hk, Ne.symm hk, h]
  | block l t | back l t => simp [ownerOf_cons, h]

theorem Step.free (h : ∀ k, s.owner k = none → s.line k = []) (hs : Step s s') (k : κ)
    (ho : s'.owner k = none) : s'.line k = [] := by
  cases hs with
  | acquire l t =>
    by_cases hk : k = l
    · simp [hk] at ho
    · simp only [update_of_ne hk] at ho
      exact h k ho
  | block l t hl =>
    by_cases hk : k = l
    · subst hk
      exact absurd ho hl
    · simp only [update_of_ne hk]
      exact h k ho
  | release l t hq =>
    by_cases hk : k = l
    · rwa [hk]
    · simp only [update_of_ne hk] at ho
      exact h k ho
  | handoff l t u us =>
    by_cases hk : k = l
    · simp [hk] at ho
    · simp only [update_of_ne hk] at ho ⊢
      exact h k ho
  | back l t => exact h k ho

/-- Only a task that blocks gets in line, and it was in no other. -/
theorem Step.line (hs : Step s s') {k : κ} {t : τ} (ht : t ∈ s'.line k) :
    t ∈ s.line k ∨ (∀ k, t ∉ s.line k) ∧ s'.log = (k, .block t) :: s.log := by
  cases hs with
  | acquire | release | back => exact .inl ht
  | block l u hl hu =>
    by_cases hk : k = l
    · subst hk
      simp only [update_self, List.mem_append, List.mem_singleton] at ht
      rcases ht with ht | rfl
      · exact .inl ht
      · exact .inr ⟨hu, rfl⟩
    · simp only [update_of_ne hk] at ht
      exact .inl ht
  | handoff l u v vs hq =>
    left
    by_cases hk : k = l
    · subst hk
      simp only [update_self] at ht
      rw [hq]
      exact List.mem_cons_of_mem v ht
    · simpa only [update_of_ne hk] using ht

theorem Step.nodup (h : ∀ k, (s.line k).Nodup) (hs : Step s s') (k : κ) : (s'.line k).Nodup := by
  cases hs with
  | acquire | release | back => exact h k
  | block l u hl hu =>
    by_cases hk : k = l
    · subst hk
      simp only [update_self]
      simpa using (h k).concat (hu k)
    · simp only [update_of_ne hk]
      exact h k
  | handoff l u v vs hq =>
    by_cases hk : k = l
    · subst hk
      simp only [update_self]
      have hnd : (v :: vs).Nodup := hq ▸ h k
      exact hnd.of_cons
    · simp only [update_of_ne hk]
      exact h k

theorem Step.once (h : ∀ t k k', t ∈ s.line k → t ∈ s.line k' → k = k') (hs : Step s s') (t : τ)
    (k k' : κ) (ht : t ∈ s'.line k) (ht' : t ∈ s'.line k') : k = k' := by
  rcases hs.line ht with hk | ⟨hno, hlog⟩
  · rcases hs.line ht' with hk' | ⟨hno, _⟩
    · exact h t k k' hk hk'
    · exact absurd hk (hno k)
  · rcases hs.line ht' with hk' | ⟨_, hlog'⟩
    · exact absurd hk' (hno k')
    · rw [hlog] at hlog'
      exact congrArg Prod.fst (List.cons.inj hlog').1

/-- Who gets a lock, by itself or from its owner, is in no line then. -/
theorem Step.gets (h : Inv rank s) (hs : Step s s') {k : κ} {t : τ} (ho : s'.owner k = some t) :
    s.owner k = some t ∨ ∀ k, t ∉ s'.line k := by
  cases hs with
  | acquire l u hl hu =>
    by_cases hk : k = l
    · subst hk
      simp only [update_self, Option.some.injEq] at ho
      exact .inr (ho ▸ hu)
    · simp only [update_of_ne hk] at ho
      exact .inl ho
  | block | back => exact .inl ho
  | release l u hq =>
    by_cases hk : k = l
    · simp [hk] at ho
    · simp only [update_of_ne hk] at ho
      exact .inl ho
  | handoff l u v vs hq =>
    by_cases hk : k = l
    · subst hk
      simp only [update_self, Option.some.injEq] at ho
      subst ho
      have hnd : (v :: vs).Nodup := hq ▸ h.nodup k
      right
      intro k' hv
      by_cases hk' : k' = k
      · subst hk'
        simp only [update_self] at hv
        exact (List.nodup_cons.mp hnd).1 hv
      · simp only [update_of_ne hk'] at hv
        exact hk' (h.once v k' k hv (hq ▸ List.mem_cons_self))
    · simp only [update_of_ne hk] at ho
      exact .inl ho

theorem Step.always (hs : Step s s') (ha : Always (InOrder rank) s'.log) :
    Always (InOrder rank) s.log := by
  cases hs with
  | acquire | block | release | back => exact ha.tail
  | handoff => exact ha.tail.tail

/-- Who is in line owns nothing new, and who gets in line does it in order. -/
theorem Step.ordered (h : Inv rank s) (hs : Step s s') (ha : Always (InOrder rank) s'.log) :
    Ordered rank s' := by
  intro k t ht k' ho
  rcases hs.gets h ho with hown | hno
  · rcases hs.line ht with hold | ⟨_, hlog⟩
    · exact h.ordered (hs.always ha) k t hold k' hown
    · rw [hlog] at ha
      rw [h.owner] at hown
      exact ha.head t rfl k' hown
  · exact absurd ht (hno k)

theorem Step.inv (h : Inv rank s) (hs : Step s s') : Inv rank s' where
  owner := hs.owner h.owner
  free := hs.free h.free
  nodup := hs.nodup h.nodup
  once := hs.once h.once
  ordered := hs.ordered h

end Step
end LockOrder
