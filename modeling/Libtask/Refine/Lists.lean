import Libtask.Base.DList
import Libtask.Abstract.Moves

/-! The linked lists as sequences: each `Tasklist` is a well-formed doubly linked list of the
tasks of its sequence, and the surgery of the source does to the sequences what it should. -/
namespace Libtask
open Function DList

/-- The links denote the sequences `q`, which share no task. -/
structure Rep (L : Links) (q : Queues) : Prop where
  isList : ∀ k, IsList L.next L.prev (L.list k).head (L.list k).tail (q k)
  nodup : ∀ k, (q k).Nodup
  disjoint : ∀ k k' t, t ∈ q k → t ∈ q k' → k = k'

namespace Rep
variable {L : Links} {q : Queues} {k : TasklistRef} {t : TaskPtr} {xs ys : List TaskPtr}

theorem head (h : Rep L q) (k : TasklistRef) : (L.list k).head = (q k).head? :=
  (h.isList k).head_eq

/-- Links that no task of list `k` has may change without changing it. -/
theorem frame {L' : Links} (h : Rep L q) {k : TasklistRef} (hl : L'.list k = L.list k)
    (hn : ∀ x ∈ q k, L'.next x = L.next x) (hp : ∀ x ∈ q k, L'.prev x = L.prev x) :
    IsList L'.next L'.prev (L'.list k).head (L'.list k).tail (q k) := by
  rw [hl]
  exact (h.isList k).congr hn hp

/-- The sequences stay apart when one of them becomes `zs`, of its own tasks and `t`. -/
theorem update_of {L' : Links} (h : Rep L q) {zs : List TaskPtr} (hnd : zs.Nodup)
    (hmem : ∀ x ∈ zs, x ∈ q k ∨ ∀ k', x ∉ q k')
    (hk : IsList L'.next L'.prev (L'.list k).head (L'.list k).tail zs)
    (hother : ∀ k' ≠ k, IsList L'.next L'.prev (L'.list k').head (L'.list k').tail (q k')) :
    Rep L' (update q k zs) where
  isList k' := by
    by_cases hkk : k' = k
    · subst hkk
      rwa [update_self]
    · rw [update_of_ne hkk]
      exact hother k' hkk
  nodup k' := by
    by_cases hkk : k' = k
    · subst hkk
      rwa [update_self]
    · rw [update_of_ne hkk]
      exact h.nodup k'
  disjoint k₁ k₂ x h₁ h₂ := by
    by_cases hk₁ : k₁ = k <;> by_cases hk₂ : k₂ = k
    · rw [hk₁, hk₂]
    · subst hk₁
      rw [update_self] at h₁
      rw [update_of_ne hk₂] at h₂
      exact (hmem x h₁).elim (fun hx => h.disjoint _ _ x hx h₂) fun hx => absurd h₂ (hx k₂)
    · subst hk₂
      rw [update_self] at h₂
      rw [update_of_ne hk₁] at h₁
      exact (hmem x h₂).elim (fun hx => h.disjoint _ _ x h₁ hx) fun hx => absurd h₁ (hx k₁)
    · rw [update_of_ne hk₁] at h₁
      rw [update_of_ne hk₂] at h₂
      exact h.disjoint _ _ x h₁ h₂

theorem mem_of_tail (h : Rep L q) {u : TaskPtr} (hu : (L.list k).tail = some u) : u ∈ q k := by
  rw [(h.isList k).tail_eq] at hu
  exact List.mem_of_mem_getLast? hu

/-- A link set in a node of list `k` is no link of another list. -/
theorem setLink_other {link : TaskPtr → Option TaskPtr} {k' : TasklistRef} {x : TaskPtr}
    {u v : Option TaskPtr} (h : Rep L q) (hk : k' ≠ k) (hx : x ∈ q k')
    (hu : ∀ y, u = some y → y ∈ q k) : setLink link u v x = link x := by
  cases u with
  | none => rfl
  | some y =>
    refine update_of_ne ?_ _ _
    rintro rfl
    exact hk (h.disjoint _ _ x hx (hu x rfl))

theorem addtask (h : Rep L q) (ht : ∀ k, t ∉ q k) :
    Rep (L.addtask k t) (update q k (q k ++ [t])) := by
  obtain ⟨hnext, hprev, hlist⟩ : (L.addtask k t).next =
        update (setLink L.next (L.list k).tail (some t)) t none ∧
      (L.addtask k t).prev = update L.prev t (L.list k).tail ∧
      (L.addtask k t).list = update L.list k
        ⟨header (L.list k).head (L.list k).tail (some t), some t⟩ := by
    cases hu : (L.list k).tail <;> simp [Links.addtask, Links.setNext, Links.setPrev,
      Links.setHead, Links.setTail, hu]
  have hne : ∀ k', ∀ x ∈ q k', x ≠ t := by
    rintro k' x hx rfl
    exact ht k' hx
  refine h.update_of ?_ (fun x hx => ?_) ?_ fun k' hk => h.frame ?_ (fun x hx => ?_) fun x hx => ?_
  · refine List.nodup_append.mpr ⟨h.nodup k, List.nodup_singleton t, ?_⟩
    rintro x hx y hy rfl
    exact ht k (List.mem_singleton.mp hy ▸ hx)
  · rcases List.mem_append.mp hx with hx | hx
    · exact .inl hx
    · exact .inr (List.mem_singleton.mp hx ▸ ht)
  · rw [hlist, hnext, hprev, update_self]
    exact (h.isList k).pushBack (h.nodup k) (ht k)
  · rw [hlist, update_of_ne hk]
  · rw [hnext, update_of_ne (hne k' x hx)]
    exact h.setLink_other hk hx fun u hu => h.mem_of_tail hu
  · rw [hprev, update_of_ne (hne k' x hx)]

theorem neighbours (h : Rep L q) (hq : q k = xs ++ t :: ys) :
    (∀ u, L.prev t = some u → u ∈ xs) ∧ ∀ u, L.next t = some u → u ∈ ys := by
  have hl := h.isList k
  rw [hq] at hl
  obtain ⟨m, g, hx, hg, hm, hy⟩ := seg_append.mp hl
  constructor
  · intro u hu
    by_cases he : xs = []
    · subst he
      rw [hm, hx.2] at hu
      cases hu
    · obtain ⟨y, hy', hmy⟩ := hx.last_mem he
      rw [hm, hmy] at hu
      exact Option.some.inj hu ▸ hy'
  · intro u hu
    by_cases he : ys = []
    · subst he
      rw [hy.1] at hu
      cases hu
    · rw [hy.first_eq he] at hu
      exact List.mem_of_mem_head? hu

theorem deltask (h : Rep L q) (hq : q k = xs ++ t :: ys) :
    Rep (L.deltask k t) (update q k (xs ++ ys)) := by
  have hnd := h.nodup k
  rw [hq] at hnd
  obtain ⟨hxs, hys⟩ := h.neighbours hq
  have htx : ∀ u ∈ xs, t ≠ u :=
    fun u hu he => (List.nodup_append.mp hnd).2.2 u hu t (by simp) he.symm
  obtain ⟨hnext, hprev, hlist⟩ : (L.deltask k t).next = setLink L.next (L.prev t) (L.next t) ∧
      (L.deltask k t).prev = setLink L.prev (L.next t) (L.prev t) ∧
      (L.deltask k t).list = update L.list k ⟨header (L.list k).head (L.prev t) (L.next t),
        header (L.list k).tail (L.next t) (L.prev t)⟩ := by
    cases hp : L.prev t with
    | none =>
      cases hn : L.next t <;>
        simp [Links.deltask, Links.setPrev, Links.setHead, Links.setTail, hp, hn]
    | some u =>
      have hne : t ≠ u := htx u (hxs u hp)
      cases hn : L.next t <;>
        simp [Links.deltask, Links.setNext, Links.setPrev, Links.setTail, hp, hn, hne]
  have hin : ∀ u, u ∈ xs ∨ u ∈ ys → u ∈ q k := by
    rintro u (hu | hu) <;> simp [hq, hu]
  refine h.update_of ?_ (fun x hx => .inl (hin x (List.mem_append.mp hx))) ?_
    fun k' hk' => h.frame ?_ (fun x hx => ?_) fun x hx => ?_
  · exact hnd.sublist ((List.sublist_cons_self t ys).append_left xs)
  · rw [hlist, hnext, hprev, update_self]
    exact (hq ▸ h.isList k).unlink hnd
  · rw [hlist, update_of_ne hk']
  · rw [hnext]
    exact h.setLink_other hk' hx fun u hu => hin u (.inl (hxs u hu))
  · rw [hprev]
    exact h.setLink_other hk' hx fun u hu => hin u (.inr (hys u hu))

theorem deltask_head (h : Rep L q) (hq : q k = t :: ys) :
    Rep (L.deltask k t) (update q k ys) :=
  h.deltask (show q k = [] ++ t :: ys from hq)

/-- The ends of two halves of a list, as the links and the header give them. -/
theorem halves (h : Rep L q) (hq : q k = xs ++ ys) :
    ∃ m, Seg L.next L.prev none (L.list k).head xs m ys.head? ∧
      Seg L.next L.prev m ys.head? ys (L.list k).tail none ∧
      (match ys.head? with
        | some v => L.prev v
        | none => (L.list k).tail) = m ∧ ∀ u, m = some u → u ∈ xs := by
  have hl := h.isList k
  rw [hq] at hl
  obtain ⟨m, g, hx, hy⟩ := seg_append.mp hl
  have hm : ∀ u, m = some u → u ∈ xs := by
    rintro u rfl
    by_cases he : xs = []
    · subst he
      exact absurd hx.2 (by simp)
    · obtain ⟨y, hy', hu⟩ := hx.last_mem he
      exact Option.some.inj hu ▸ hy'
  cases ys with
  | nil =>
    obtain ⟨rfl, ht⟩ := hy
    exact ⟨m, hx, ⟨rfl, ht⟩, ht, hm⟩
  | cons y ys =>
    obtain ⟨rfl, hp, hs⟩ := hy
    exact ⟨m, hx, ⟨rfl, hp, hs⟩, hp, hm⟩

theorem splice (h : Rep L q) (hq : q k = xs ++ ys) (ht : ∀ k, t ∉ q k) :
    Rep (L.splice k t ys.head?) (update q k (xs ++ t :: ys)) := by
  obtain ⟨m, hx, hy, hprevm, hm⟩ := h.halves hq
  have hnd := h.nodup k
  have htk := ht k
  rw [hq] at hnd htk
  have hin : ∀ u, u ∈ xs ∨ u ∈ ys → u ∈ q k := by
    rintro u (hu | hu) <;> simp [hq, hu]
  have hne : ∀ k', ∀ x ∈ q k', x ≠ t := by
    rintro k' x hx rfl
    exact ht k' hx
  have hmt : ∀ u, m = some u → u ≠ t := fun u hu => hne k u (hin u (.inl (hm u hu)))
  have hys : ∀ u, ys.head? = some u → u ∈ ys := fun u hu => List.mem_of_mem_head? hu
  obtain ⟨hnext, hprev, hlist⟩ :
      (L.splice k t ys.head?).next = setLink (update L.next t ys.head?) m (some t) ∧
      (L.splice k t ys.head?).prev = setLink (update L.prev t m) ys.head? (some t) ∧
      (L.splice k t ys.head?).list = update L.list k ⟨header (L.list k).head m (some t),
        header (L.list k).tail ys.head? (some t)⟩ := by
    cases hg : ys.head? with
    | none =>
      simp only [hg] at hprevm
      subst hprevm
      cases hu : (L.list k).tail with
      | none => simp [Links.splice, Links.setNext, Links.setPrev, Links.setHead, Links.setTail, hu]
      | some u =>
        have := hmt u hu
        simp [Links.splice, Links.setNext, Links.setPrev, Links.setTail, hu, this.symm]
    | some v =>
      simp only [hg] at hprevm
      subst hprevm
      have hv := hne k v (hin v (.inr (hys v hg)))
      cases hu : L.prev v with
      | none =>
        simp [Links.splice, Links.setNext, Links.setPrev, Links.setHead, hu]
      | some u =>
        have := hmt u hu
        simp [Links.splice, Links.setNext, Links.setPrev, hu, this.symm]
  refine h.update_of ?_ (fun x hx => ?_) ?_ fun k' hk' => h.frame ?_ (fun x hx => ?_) fun x hx => ?_
  · exact (List.perm_middle.nodup_iff).mpr (List.nodup_cons.mpr ⟨htk, hnd⟩)
  · rcases List.mem_append.mp hx with hx | hx
    · exact .inl (hin x (.inl hx))
    · rcases List.mem_cons.mp hx with rfl | hx
      · exact .inr ht
      · exact .inl (hin x (.inr hx))
  · rw [hlist, hnext, hprev, update_self]
    exact (hq ▸ h.isList k).insert hx hy hnd htk
  · rw [hlist, update_of_ne hk']
  · rw [hnext, h.setLink_other hk' hx fun u hu => hin u (.inl (hm u hu)),
      update_of_ne (hne k' x hx)]
  · rw [hprev, h.setLink_other hk' hx fun u hu => hin u (.inr (hys u hu)),
      update_of_ne (hne k' x hx)]

/-- The search loop of `taskdelay` ends, in front of the sleepers that are not due before
`when`. -/
theorem delayscan {alarmtime : TaskPtr → UInt64} {deadline : UInt64} {m p : Option TaskPtr}
    {l : Option TaskPtr} {fuel : ℕ} (h : Seg L.next L.prev m p ys l none)
    (hfuel : ys.length < fuel) :
    L.delayscan alarmtime deadline fuel p =
      some (ys.dropWhile fun u => alarmtime u < deadline).head? := by
  induction ys generalizing m p fuel with
  | nil =>
    obtain ⟨fuel, rfl⟩ : ∃ n, fuel = n + 1 := ⟨fuel - 1, by simp at hfuel; omega⟩
    rw [h.1]
    rfl
  | cons y ys ih =>
    obtain ⟨fuel, rfl⟩ : ∃ n, fuel = n + 1 := ⟨fuel - 1, by simp at hfuel; omega⟩
    obtain ⟨rfl, _, hs⟩ := h
    by_cases hd : alarmtime y < deadline
    · simp only [Links.delayscan, hd, if_true, List.dropWhile_cons, decide_true]
      exact ih hs (by simpa using hfuel)
    · simp [Links.delayscan, hd]

end Rep
end Libtask
