import Mathlib.Logic.Function.Basic
import Mathlib.Data.List.Nodup

/-! Doubly linked lists threaded through `next` and `prev` fields: segments, whole
lists, and the link updates that append, unlink and insert a node. -/
namespace DList

variable {α : Type*}

/-- The nodes `xs` linked both ways, entered from `p` through `f`; `l` is the last node
(or `p` when there is none) and `n` is what follows it. -/
def Seg (next prev : α → Option α) : Option α → Option α → List α → Option α → Option α → Prop
  | p, f, [], l, n => f = n ∧ l = p
  | p, f, x :: xs, l, n => f = some x ∧ prev x = p ∧ Seg next prev (some x) (next x) xs l n

/-- A whole list, from the header fields `head` and `tail`. -/
def IsList (next prev : α → Option α) (head tail : Option α) (xs : List α) : Prop :=
  Seg next prev none head xs tail none

variable {next prev next' prev' : α → Option α} {p f l n head tail : Option α} {xs ys : List α}

theorem seg_append : Seg next prev p f (xs ++ ys) l n ↔
    ∃ m g, Seg next prev p f xs m g ∧ Seg next prev m g ys l n := by
  induction xs generalizing p f with
  | nil =>
    constructor
    · intro h
      exact ⟨p, f, ⟨rfl, rfl⟩, h⟩
    · rintro ⟨m, g, ⟨rfl, rfl⟩, h⟩
      exact h
  | cons x xs ih =>
    simp only [List.cons_append, Seg, ih]
    constructor
    · rintro ⟨hf, hp, m, g, hx, hy⟩
      exact ⟨m, g, ⟨hf, hp, hx⟩, hy⟩
    · rintro ⟨m, g, ⟨hf, hp, hx⟩, hy⟩
      exact ⟨hf, hp, m, g, hx, hy⟩

/-- A segment reads only the links of its own nodes. -/
theorem Seg.congr (h : Seg next prev p f xs l n) (hn : ∀ x ∈ xs, next' x = next x)
    (hp : ∀ x ∈ xs, prev' x = prev x) : Seg next' prev' p f xs l n := by
  induction xs generalizing p f with
  | nil => exact h
  | cons x xs ih =>
    obtain ⟨hf, hx, hs⟩ := h
    refine ⟨hf, (hp x (by simp)).trans hx, ?_⟩
    rw [hn x (by simp)]
    exact ih hs (fun y hy => hn y (by simp [hy])) (fun y hy => hp y (by simp [hy]))

theorem Seg.last_mem (h : Seg next prev p f xs l n) (hne : xs ≠ []) : ∃ y ∈ xs, l = some y := by
  induction xs generalizing p f with
  | nil => exact absurd rfl hne
  | cons x xs ih =>
    obtain ⟨_, _, hs⟩ := h
    cases xs with
    | nil => exact ⟨x, by simp, hs.2⟩
    | cons y ys =>
      obtain ⟨z, hz, hl⟩ := ih hs (by simp)
      exact ⟨z, by simp [hz], hl⟩

theorem Seg.first_eq (h : Seg next prev p f xs l n) (hne : xs ≠ []) : f = xs.head? := by
  cases xs with
  | nil => exact absurd rfl hne
  | cons x xs => exact h.1

/-- Redirecting the `next` link of the last node changes only what follows. -/
theorem Seg.relink_last [DecidableEq α] {y : α} (n' : Option α)
    (h : Seg next prev p f xs (some y) n) (hne : xs ≠ []) (hd : xs.Nodup) :
    Seg (Function.update next y n') prev p f xs (some y) n' := by
  induction xs generalizing p f with
  | nil => exact absurd rfl hne
  | cons x xs ih =>
    obtain ⟨hf, hx, hs⟩ := h
    obtain ⟨hnx, hd⟩ := List.nodup_cons.mp hd
    refine ⟨hf, hx, ?_⟩
    cases xs with
    | nil =>
      obtain rfl : y = x := Option.some.inj hs.2
      simp [Seg]
    | cons z zs =>
      obtain ⟨w, hw, hl⟩ := hs.last_mem (by simp)
      have hyx : x ≠ y := by
        intro he
        subst he
        exact hnx (Option.some.inj hl ▸ hw)
      rw [Function.update_of_ne hyx]
      exact ih hs (by simp) hd

/-- Redirecting the `prev` link of the first node changes only where it is entered from. -/
theorem Seg.relink_first [DecidableEq α] {x : α} (p' : Option α)
    (h : Seg next prev p f (x :: xs) l n) (hx : x ∉ xs) :
    Seg next (Function.update prev x p') p' f (x :: xs) l n := by
  obtain ⟨hf, _, hs⟩ := h
  refine ⟨hf, by simp, hs.congr (fun _ _ => rfl) fun y hy => ?_⟩
  exact Function.update_of_ne (ne_of_mem_of_not_mem hy hx) _ _

theorem IsList.congr (h : IsList next prev head tail xs) (hn : ∀ x ∈ xs, next' x = next x)
    (hp : ∀ x ∈ xs, prev' x = prev x) : IsList next' prev' head tail xs :=
  Seg.congr h hn hp

theorem IsList.head_eq (h : IsList next prev head tail xs) : head = xs.head? := by
  cases xs with
  | nil => exact h.1
  | cons x xs => exact h.1

theorem Seg.last_eq (h : Seg next prev p f xs l n) (hne : xs ≠ []) : l = xs.getLast? := by
  induction xs generalizing p f with
  | nil => exact absurd rfl hne
  | cons x xs ih =>
    obtain ⟨_, _, hs⟩ := h
    cases xs with
    | nil => simpa using hs.2
    | cons y ys => simpa using ih hs (by simp)

theorem IsList.tail_eq (h : IsList next prev head tail xs) : tail = xs.getLast? := by
  by_cases hx : xs = []
  · subst hx
    exact h.2
  · exact Seg.last_eq h hx

/-- The list a header denotes is unique. -/
theorem Seg.unique (hx : Seg next prev p f xs l none) (hy : Seg next prev p f ys l none) :
    xs = ys := by
  induction xs generalizing p f ys with
  | nil =>
    obtain ⟨rfl, _⟩ := hx
    cases ys with
    | nil => rfl
    | cons y ys => exact absurd hy.1 (by simp)
  | cons x xs ih =>
    obtain ⟨rfl, _, hs⟩ := hx
    cases ys with
    | nil => exact absurd hy.1 (by simp)
    | cons y ys =>
      obtain ⟨hxy, _, ht⟩ := hy
      obtain rfl : x = y := Option.some.inj hxy
      rw [ih hs ht]

theorem IsList.unique (hx : IsList next prev head tail xs) (hy : IsList next prev head tail ys) :
    xs = ys := Seg.unique hx hy

theorem IsList.first_prev {x : α} (h : IsList next prev (some x) tail xs) : prev x = none := by
  cases xs with
  | nil => exact absurd h.1 (by simp)
  | cons y ys =>
    obtain ⟨hy, hp, _⟩ := h
    rwa [Option.some.inj hy]

theorem Seg.last_next {x : α} (h : Seg next prev p f xs (some x) n) (hne : xs ≠ []) :
    next x = n := by
  induction xs generalizing p f with
  | nil => exact absurd rfl hne
  | cons y ys ih =>
    obtain ⟨_, _, hs⟩ := h
    cases ys with
    | nil =>
      obtain ⟨hn, hx⟩ := hs
      rwa [Option.some.inj hx]
    | cons z zs => exact ih hs (by simp)

theorem IsList.last_next {x : α} (h : IsList next prev head (some x) xs) : next x = none := by
  refine Seg.last_next h ?_
  rintro rfl
  exact absurd h.2 (by simp)

theorem IsList.prev_of_next {x y : α} (h : IsList next prev head tail xs) (hx : x ∈ xs)
    (hn : next x = some y) : prev y = some x := by
  obtain ⟨as, bs, rfl⟩ := List.append_of_mem hx
  obtain ⟨m, g, _, _, _, hb⟩ := seg_append.mp h
  cases bs with
  | nil => exact absurd (hb.1.symm.trans hn) (by simp)
  | cons z zs =>
    obtain rfl : y = z := Option.some.inj (hn.symm.trans hb.1)
    exact hb.2.1

theorem IsList.next_of_prev {x y : α} (h : IsList next prev head tail xs) (hy : y ∈ xs)
    (hp : prev y = some x) : next x = some y := by
  obtain ⟨as, bs, rfl⟩ := List.append_of_mem hy
  obtain ⟨m, g, ha, rfl, rfl, _⟩ := seg_append.mp h
  rw [hp] at ha
  by_cases hne : as = []
  · subst hne
    exact absurd ha.2 (by simp)
  · exact ha.last_next hne

theorem IsList.head_eq_none_iff (h : IsList next prev head tail xs) :
    head = none ↔ tail = none := by
  rw [h.head_eq, h.tail_eq, List.head?_eq_none_iff, List.getLast?_eq_none_iff]

/-- A header field: it stays where there is a node `u` before its node, and else becomes `v`. -/
def header (head u v : Option α) : Option α := u.elim v fun _ => head

@[simp] theorem header_none (v : Option α) : header head none v = v := rfl

@[simp] theorem header_some (u : α) (v : Option α) : header head (some u) v = head := rfl

section Update
variable [DecidableEq α]

/-- Set the link of `u` to `v`, where there is a node `u`. -/
def setLink (link : α → Option α) (u v : Option α) : α → Option α :=
  u.elim link fun u => Function.update link u v

@[simp] theorem setLink_none (v : Option α) : setLink next none v = next := rfl

@[simp] theorem setLink_some (u : α) (v : Option α) :
    setLink next (some u) v = Function.update next u v := rfl

/-- Append a node: link the old last node to it, or make it the head. -/
theorem IsList.pushBack {t : α} (h : IsList next prev head tail xs) (hd : xs.Nodup) (ht : t ∉ xs) :
    IsList (Function.update (setLink next tail (some t)) t none) (Function.update prev t tail)
      (header head tail (some t)) (some t) (xs ++ [t]) := by
  have hprev : ∀ x ∈ xs, Function.update prev t tail x = prev x := fun x hx =>
    Function.update_of_ne (ne_of_mem_of_not_mem hx ht) _ _
  refine seg_append.mpr ⟨tail, some t, ?_, rfl, by simp, by simp, rfl⟩
  by_cases hx : xs = []
  · subst hx
    obtain ⟨rfl, rfl⟩ := h
    exact ⟨rfl, rfl⟩
  · obtain ⟨y, hy, rfl⟩ := Seg.last_mem h hx
    refine (Seg.relink_last (some t) h hx hd).congr (fun x hx => ?_) hprev
    exact Function.update_of_ne (ne_of_mem_of_not_mem hx ht) _ _

/-- Unlink a node: join its neighbours, or move the header past it. -/
theorem IsList.unlink {t : α} (h : IsList next prev head tail (xs ++ t :: ys))
    (hd : (xs ++ t :: ys).Nodup) :
    IsList (setLink next (prev t) (next t)) (setLink prev (next t) (prev t))
      (header head (prev t) (next t)) (header tail (next t) (prev t)) (xs ++ ys) := by
  obtain ⟨m, g, hx, hg, hm, hy⟩ := seg_append.mp h
  subst hg
  obtain ⟨hdx, hdy, hdis⟩ := List.nodup_append.mp hd
  obtain ⟨hty, hdy⟩ := List.nodup_cons.mp hdy
  -- the links into `t` lie outside both halves, so each half changes at one end only
  have hleft : ∀ {prev' : α → Option α}, (∀ x ∈ xs, prev' x = prev x) →
      Seg (setLink next (prev t) (next t)) prev' none (header head (prev t) (next t)) xs (prev t)
        (next t) := by
    intro prev' hprev
    by_cases he : xs = []
    · subst he
      obtain ⟨_, rfl⟩ := hx
      simp [hm, Seg]
    · obtain ⟨y, hy', rfl⟩ := hx.last_mem he
      simp only [hm, setLink_some, header_some]
      exact (hx.relink_last (next t) he hdx).congr (fun _ _ => rfl) hprev
  have hright : ∀ {next' : α → Option α}, (∀ y ∈ ys, next' y = next y) →
      Seg next' (setLink prev (next t) (prev t)) (prev t) (next t) ys
      (header tail (next t) (prev t))
        none := by
    intro next' hnext
    cases ys with
    | nil =>
      obtain ⟨hn, _⟩ := hy
      simp [hn, Seg]
    | cons y ys =>
      have hn : next t = some y := hy.1
      simp only [hn, setLink_some, header_some] at hy ⊢
      exact (hy.relink_first (prev t) (List.nodup_cons.mp hdy).1).congr hnext fun _ _ => rfl
  refine seg_append.mpr ⟨prev t, next t, hleft fun x hxs => ?_, hright fun y hys => ?_⟩
  · cases hn : next t with
    | none => rfl
    | some u =>
      refine Function.update_of_ne ?_ _ _
      rintro rfl
      have hne : ys ≠ [] := by
        rintro rfl
        exact absurd (hn.symm.trans hy.1) (by simp)
      have hu := hn.symm.trans (hy.first_eq hne)
      exact hdis x hxs x (by simp [List.mem_of_mem_head? hu.symm]) rfl
  · cases hp : prev t with
    | none => rfl
    | some u =>
      refine Function.update_of_ne ?_ _ _
      rintro rfl
      have hne : xs ≠ [] := by
        rintro rfl
        exact absurd (hp.symm.trans (hm.trans hx.2)) (by simp)
      obtain ⟨z, hz, hzm⟩ := hx.last_mem hne
      obtain rfl : y = z := Option.some.inj (hp.symm.trans (hm.trans hzm))
      exact hdis y hz y (by simp [hys]) rfl

/-- Insert a node between two halves: its own links point at the ends of the halves, and
the ends (or the header) point back at it. -/
theorem IsList.insert {t : α} {m g : Option α} (h : IsList next prev head tail (xs ++ ys))
    (hx : Seg next prev none head xs m g) (hy : Seg next prev m g ys tail none)
    (hd : (xs ++ ys).Nodup) (ht : t ∉ xs ++ ys) :
    IsList (setLink (Function.update next t g) m (some t))
      (setLink (Function.update prev t m) g (some t)) (header head m (some t))
      (header tail g (some t)) (xs ++ t :: ys) := by
  obtain ⟨hdx, hdy, hdis⟩ := List.nodup_append.mp hd
  simp only [List.mem_append, not_or] at ht
  -- where the two ends lie, when there are any
  have hm : ∀ u, m = some u → u ∈ xs := by
    rintro u rfl
    by_cases he : xs = []
    · subst he
      exact absurd hx.2 (by simp)
    · obtain ⟨y, hy', hu⟩ := hx.last_mem he
      exact Option.some.inj hu ▸ hy'
  have hg : ∀ u, g = some u → u ∈ ys := by
    rintro u rfl
    by_cases he : ys = []
    · subst he
      exact absurd hy.1 (by simp)
    · exact List.mem_of_mem_head? (hy.first_eq he).symm
  have hne_m : ∀ u, m = some u → u ≠ t := fun u hu he => ht.1 (he ▸ hm u hu)
  have hne_g : ∀ u, g = some u → u ≠ t := fun u hu he => ht.2 (he ▸ hg u hu)
  refine seg_append.mpr ⟨m, some t, ?_, rfl, ?_, ?_⟩
  · by_cases he : xs = []
    · subst he
      obtain ⟨_, rfl⟩ := hx
      exact ⟨rfl, rfl⟩
    · obtain ⟨y, hy', rfl⟩ := hx.last_mem he
      refine (hx.relink_last (some t) he hdx).congr (fun x hxs => ?_) fun x hxs => ?_
      · have hxt : x ≠ t := ne_of_mem_of_not_mem hxs ht.1
        by_cases hxy : x = y
        · simp [hxy]
        · simp [hxy, hxt]
      · have hxt : x ≠ t := ne_of_mem_of_not_mem hxs ht.1
        cases g with
        | none => simp [hxt]
        | some u =>
          have hxu : x ≠ u := fun he => hdis x hxs u (hg u rfl) he
          simp [hxu, hxt]
  · cases g with
    | none => simp
    | some u => simp [(hne_g u rfl).symm]
  · have hnt : setLink (Function.update next t g) m (some t) t = g := by
      cases m with
      | none => simp
      | some u => simp [(hne_m u rfl).symm]
    rw [hnt]
    cases ys with
    | nil =>
      obtain ⟨rfl, _⟩ := hy
      exact ⟨rfl, rfl⟩
    | cons y ys =>
      obtain rfl : g = some y := hy.1
      refine (hy.relink_first (some t) (List.nodup_cons.mp hdy).1).congr (fun z hz => ?_)
        fun z hz => ?_
      · have hzt : z ≠ t := ne_of_mem_of_not_mem hz ht.2
        cases m with
        | none => simp [hzt]
        | some u =>
          have hzu : z ≠ u := fun he => hdis u (hm u rfl) z hz he.symm
          simp [hzu, hzt]
      · have hzt : z ≠ t := ne_of_mem_of_not_mem hz ht.2
        by_cases hzy : z = y
        · simp [hzy]
        · simp [hzy, hzt]

end Update
end DList
