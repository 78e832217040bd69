import Mathlib.Data.Multiset.AddSub
import Mathlib.Data.Multiset.Count
import Mathlib.Logic.Function.Basic

/-! Names that are opened and closed again, such as descriptors, by programs that are followed from
one request to the next. A program holds the names that it is to close or to hand on; a name that is
opened again stands for something new. -/
namespace Ownership
open Function

/-- What a program at a place in `π` does next, until it returns a `ρ`: make a request and go on by
the reply, make a call, start another program, go on, or end everything. -/
inductive Next (α β γ τ π ρ : Type)
  | sys (r : α) (k : β → π)
  | call (c : γ) (k : π)
  | spawn (task : τ) (k : π)
  | goto (k : π)
  | abort
  | ret (v : ρ)

/-- A program called by another one, which is at `f p` meanwhile and goes on by `k`. -/
def Next.andThen {α β γ τ π π' ρ ρ' : Type} (f : π → π') (k : ρ → Next α β γ τ π' ρ') :
    Next α β γ τ π ρ → Next α β γ τ π' ρ'
  | .sys r q => .sys r fun x => f (q x)
  | .call c q => .call c (f q)
  | .spawn t q => .spawn t (f q)
  | .goto q => .goto (f q)
  | .abort => .abort
  | .ret v => k v

/-- What a request does to the names. -/
inductive Effect (δ : Type)
  | keep
  | acquire (d : δ)
  | release (d : δ)

section Programs
variable {α β γ τ π π' ρ ρ' δ : Type} {effect : α → β → Effect δ} {task : τ → Multiset δ}
  {holds : π → Multiset δ} {holds' : π' → Multiset δ} {post : ρ → Multiset δ → Prop}
  {post' : ρ' → Multiset δ → Prop} {h h' D : Multiset δ} {n : Next α β γ τ π ρ} {e : Effect δ}

/-- Who makes the request holds `h` before and `h'` after it. -/
def Effect.Takes : Effect δ → Multiset δ → Multiset δ → Prop
  | .keep, h, h' => h' = h
  | .acquire d, h, h' => h' = d ::ₘ h
  | .release d, h, h' => h = d ::ₘ h'

theorem Effect.Takes.add (he : e.Takes h h') (D : Multiset δ) : e.Takes (h + D) (h' + D) := by
  cases e with
  | keep => exact congrArg (· + D) he
  | acquire d =>
    have hh : h' = d ::ₘ h := he
    rw [hh]
    exact Multiset.cons_add d h D
  | release d =>
    have hh : h = d ::ₘ h' := he
    rw [hh]
    exact Multiset.cons_add d h' D

theorem Effect.Takes.mem {d : δ} (he : e.Takes h h') (hd : d ∈ h') : d ∈ h ∨ e = .acquire d := by
  cases e with
  | keep =>
    have hh : h' = h := he
    exact .inl (hh ▸ hd)
  | acquire d' =>
    have hh : h' = d' ::ₘ h := he
    rw [hh, Multiset.mem_cons] at hd
    exact hd.symm.imp_right fun heq => congrArg Effect.acquire heq.symm
  | release d' =>
    have hh : h = d' ::ₘ h' := he
    exact .inl (hh ▸ Multiset.mem_cons_of_mem hd)

/-- A program that holds `h` keeps account of it at its next step: at each place it holds what
`holds` says, it hands on to a program what that is started with, and returns with what `post`
allows. -/
def Balanced (effect : α → β → Effect δ) (task : τ → Multiset δ) (holds : π → Multiset δ)
    (post : ρ → Multiset δ → Prop) (h : Multiset δ) : Next α β γ τ π ρ → Prop
  | .sys r k => ∀ x, (effect r x).Takes h (holds (k x))
  | .call _ k | .goto k => holds k = h
  | .spawn t k => task t + holds k = h
  | .abort => True
  | .ret v => post v h

/-- What the caller holds meanwhile is none of the business of the program that it calls. -/
theorem Balanced.andThen {f : π → π'} {k : ρ → Next α β γ τ π' ρ'}
    (hn : Balanced effect task holds post h n) (hf : ∀ p, holds' (f p) = holds p + D)
    (hk : ∀ v h, post v h → Balanced effect task holds' post' (h + D) (k v)) :
    Balanced effect task holds' post' (h + D) (n.andThen f k) := by
  cases n with
  | sys r q =>
    intro x
    rw [hf]
    exact Effect.Takes.add (hn x) D
  | call c q | goto q =>
    show holds' (f q) = h + D
    rw [hf]
    exact congrArg (· + D) hn
  | spawn t q =>
    show task t + holds' (f q) = h + D
    rw [hf, ← Multiset.add_assoc]
    exact congrArg (· + D) hn
  | abort => trivial
  | ret v => exact hk v h hn

/-- The next step of a program makes only requests, calls and programs as told, and goes on at such
places. -/
def Next.All (req : α → Prop) (call : γ → Prop) (task : τ → Prop) (place : π → Prop) :
    Next α β γ τ π ρ → Prop
  | .sys r k => req r ∧ ∀ x, place (k x)
  | .call c k => call c ∧ place k
  | .spawn t k => task t ∧ place k
  | .goto k => place k
  | .abort | .ret _ => True

/-- The same for a program that calls one that starts no other. -/
theorem Next.All.andThen {req : α → Prop} {call : γ → Prop} {task : τ → Prop} {place : π' → Prop}
    {f : π → π'} {k : ρ → Next α β γ τ π' ρ'}
    (hn : n.All req call (fun _ => False) fun _ => True) (hf : ∀ p, place (f p))
    (hk : ∀ v, (k v).All req call task place) : (n.andThen f k).All req call task place := by
  cases n with
  | sys r q => exact ⟨hn.1, fun x => hf (q x)⟩
  | call c q => exact ⟨hn.1, hf q⟩
  | spawn t q => exact hn.1.elim
  | goto q => exact hf q
  | abort => trivial
  | ret v => exact hk v

end Programs

section Routes
variable {α β γ τ π π' ρ ρ' δ : Type}

/-- What is acquired, and what is released. -/
def acquired : List (Effect δ) → Multiset δ
  | [] => 0
  | .acquire d :: es => d ::ₘ acquired es
  | _ :: es => acquired es

def released : List (Effect δ) → Multiset δ
  | [] => 0
  | .release d :: es => d ::ₘ released es
  | _ :: es => released es

/-- A program that starts no other gets from `p` to `q` by `n` steps, of which `es` are the effects,
the latest first. -/
inductive Route (effect : α → β → Effect δ) (code : π → Next α β γ τ π ρ) (p : π) :
    List (Effect δ) → ℕ → π → Prop
  | refl : Route effect code p [] 0 p
  | sys {es : List (Effect δ)} {n : ℕ} {q : π} {r : α} {k : β → π} (h : Route effect code p es n q)
      (hq : code q = .sys r k) (x : β) : Route effect code p (effect r x :: es) (n + 1) (k x)
  | call {es : List (Effect δ)} {n : ℕ} {q k : π} {c : γ} (h : Route effect code p es n q)
      (hq : code q = .call c k) : Route effect code p es (n + 1) k
  | goto {es : List (Effect δ)} {n : ℕ} {q k : π} (h : Route effect code p es n q)
      (hq : code q = .goto k) : Route effect code p es (n + 1) k

/-- The next step of a program leads below `m`, and is no end but a return. -/
@[simp] def Next.Descends (rank : π → ℕ) (m : ℕ) : Next α β γ τ π ρ → Prop
  | .sys _ k => ∀ x, rank (k x) < m
  | .call _ k | .goto k => rank k < m
  | .spawn _ _ | .abort => False
  | .ret _ => True

variable {effect : α → β → Effect δ} {task : τ → Multiset δ} {holds : π → Multiset δ}
  {post : ρ → Multiset δ → Prop} {code : π → Next α β γ τ π ρ} {rank : π → ℕ} {rank' : π' → ℕ}
  {es : List (Effect δ)} {m n c : ℕ} {p q : π}

theorem Next.Descends.andThen {next : Next α β γ τ π ρ} {f : π → π'}
    {k : ρ → Next α β γ τ π' ρ'} (hn : next.Descends rank m) (hf : ∀ p, rank' (f p) = rank p + c)
    (hk : ∀ v, (k v).Descends rank' (m + c)) : (next.andThen f k).Descends rank' (m + c) := by
  cases next with
  | sys r q =>
    intro x
    rw [hf]
    exact Nat.add_lt_add_right (hn x) c
  | call _ q | goto q =>
    show rank' (f q) < m + c
    rw [hf]
    exact Nat.add_lt_add_right hn c
  | spawn | abort => exact hn.elim
  | ret v => exact hk v

/-- What a program that keeps account has acquired it has released, or holds. -/
theorem Route.account (hb : ∀ p, Balanced effect task holds post (holds p) (code p))
    (h : Route effect code p es n q) (hp : holds p = 0) :
    acquired es = released es + holds q := by
  induction h with
  | refl =>
    rw [hp]
    rfl
  | @sys es n q r k _ hq x ih =>
    have hstep := hb q
    rw [hq] at hstep
    have ht : (effect r x).Takes (holds q) (holds (k x)) := hstep x
    cases he : effect r x with
    | keep =>
      rw [he] at ht
      have hh : holds (k x) = holds q := ht
      rw [hh]
      exact ih
    | acquire d =>
      rw [he] at ht
      have hh : holds (k x) = d ::ₘ holds q := ht
      rw [hh, Multiset.add_cons]
      exact congrArg (d ::ₘ ·) ih
    | release d =>
      rw [he] at ht
      have hh : holds q = d ::ₘ holds (k x) := ht
      rw [hh, Multiset.add_cons] at ih
      rw [released, Multiset.cons_add]
      exact ih
  | @call es n q k _ _ hq ih | @goto es n q k _ hq ih =>
    have hstep := hb q
    rw [hq] at hstep
    have hh : holds k = holds q := hstep
    rw [hh]
    exact ih

theorem Route.length_le (hd : ∀ p, (code p).Descends rank (rank p))
    (h : Route effect code p es n q) : n + rank q ≤ rank p := by
  induction h with
  | refl => exact (Nat.zero_add _).le
  | @sys es n q r k _ hq x ih =>
    have hstep := hd q
    rw [hq] at hstep
    have hlt : rank (k x) < rank q := hstep x
    omega
  | @call es n q k _ _ hq ih | @goto es n q k _ hq ih =>
    have hstep := hd q
    rw [hq] at hstep
    have hlt : rank k < rank q := hstep
    omega

theorem Route.goes_on (hd : ∀ p, (code p).Descends rank (rank p)) (x : β)
    (h : Route effect code p es n q) :
    (∃ v, code q = .ret v) ∨ ∃ es' q', Route effect code p es' (n + 1) q' := by
  have hstep := hd q
  cases hq : code q with
  | sys r k => exact .inr ⟨_, _, h.sys hq x⟩
  | call c k => exact .inr ⟨_, _, h.call hq⟩
  | goto k => exact .inr ⟨_, _, h.goto hq⟩
  | spawn | abort =>
    rw [hq] at hstep
    exact hstep.elim
  | ret v => exact .inl ⟨v, rfl⟩

end Routes

/-- Which opening each open name stands for, and how many openings there were. -/
structure Table (δ : Type) where
  conn : δ → Option ℕ
  count : ℕ

section Tables
variable {τ δ : Type} [DecidableEq τ] [DecidableEq δ] {T : Table δ} {held : τ → Multiset δ}
  {e : Effect δ} {t u : τ} {d d' : δ} {h D r : Multiset δ} {k : ℕ}

def Effect.act : Effect δ → Table δ → Table δ
  | .keep, T => T
  | .acquire d, T => ⟨update T.conn d (some T.count), T.count + 1⟩
  | .release d, T => ⟨update T.conn d none, T.count⟩

/-- Only a name that is not open is opened. -/
def Effect.Possible (T : Table δ) : Effect δ → Prop
  | .acquire d => T.conn d = none
  | _ => True

omit [DecidableEq δ] in
instance (T : Table δ) (e : Effect δ) : Decidable (e.Possible T) :=
  match e with
  | .acquire d => inferInstanceAs (Decidable (T.conn d = none))
  | .keep | .release _ => .isTrue trivial

/-- Each open name has an owner, who holds it once. -/
structure Owns (T : Table δ) (held : τ → Multiset δ) (owner : δ → Option τ) : Prop where
  closed : ∀ d, owner d = none ↔ T.conn d = none
  count : ∀ t d, (held t).count d = if owner d = some t then 1 else 0

/-- Each open name has one holder, and an opening of its own. -/
structure Inv (T : Table δ) (held : τ → Multiset δ) : Prop where
  owned : ∃ owner, Owns T held owner
  fresh : ∀ d k, T.conn d = some k → k < T.count
  inj : ∀ d d' k, T.conn d = some k → T.conn d' = some k → d = d'

section Owns
variable {owner : δ → Option τ}

theorem Owns.mem_iff (h : Owns T held owner) : d ∈ held t ↔ owner d = some t := by
  rw [← Multiset.count_pos, h.count]
  split <;> simp_all

/-- Someone gets a name from nobody, or gives it to nobody. -/
theorem Owns.update (h : Owns T held owner) (o : Option τ) (d : δ)
    {T' : Table δ} {held' : τ → Multiset δ} (hconn : o = none ↔ T'.conn d = none)
    (hother : ∀ d' ≠ d, T'.conn d' = none ↔ T.conn d' = none)
    (hd : ∀ t, (held' t).count d = if o = some t then 1 else 0)
    (hcount : ∀ t, ∀ d' ≠ d, (held' t).count d' = (held t).count d') :
    Owns T' held' (Function.update owner d o) where
  closed d' := by
    by_cases hdd : d' = d
    · rw [hdd, update_self]
      exact hconn
    · rw [update_of_ne hdd, hother d' hdd]
      exact h.closed d'
  count t d' := by
    by_cases hdd : d' = d
    · rw [hdd, update_self]
      exact hd t
    · rw [update_of_ne hdd, hcount t d' hdd]
      exact h.count t d'

end Owns

namespace Inv

theorem conn_ne_none (hI : Inv T held) (hd : d ∈ held t) : T.conn d ≠ none := by
  obtain ⟨owner, ho⟩ := hI.owned
  intro hn
  rw [ho.mem_iff, (ho.closed d).mpr hn] at hd
  cases hd

theorem unique (hI : Inv T held) (ht : d ∈ held t) (hu : d ∈ held u) : t = u := by
  obtain ⟨owner, ho⟩ := hI.owned
  rw [ho.mem_iff] at ht hu
  exact Option.some.inj (ht.symm.trans hu)

theorem exists_holder (hI : Inv T held) (hd : T.conn d ≠ none) : ∃ t, d ∈ held t := by
  obtain ⟨owner, ho⟩ := hI.owned
  obtain ⟨t, ht⟩ := Option.ne_none_iff_exists'.mp (mt (ho.closed d).mp hd)
  exact ⟨t, ho.mem_iff.mpr ht⟩

theorem nodup (hI : Inv T held) (t : τ) : (held t).Nodup := by
  obtain ⟨owner, ho⟩ := hI.owned
  rw [Multiset.nodup_iff_count_le_one]
  intro d
  rw [ho.count]
  split <;> omega

theorem init (hc : ∀ d, T.conn d = none) (hh : ∀ t, held t = 0) : Inv T held where
  owned := ⟨fun _ => none, fun d => by simp [hc], fun t d => by simp [hh]⟩
  fresh d k hd := by simp [hc] at hd
  inj d d' k hd := by simp [hc] at hd

theorem acquire (hI : Inv T held) (t : τ) (hd : T.conn d = none) :
    Inv ((Effect.acquire d).act T) (update held t (d ::ₘ held t)) := by
  obtain ⟨owner, ho⟩ := hI.owned
  have hfree : ∀ u, (held u).count d = 0 := by
    intro u
    rw [ho.count, (ho.closed d).mpr hd]
    simp
  have hold : ∀ d' k, ((Effect.acquire d).act T).conn d' = some k →
      d' = d ∧ k = T.count ∨ d' ≠ d ∧ T.conn d' = some k := by
    intro d' k hk
    by_cases hdd : d' = d
    · subst hdd
      simp only [Effect.act, update_self, Option.some.injEq] at hk
      exact .inl ⟨rfl, hk.symm⟩
    · simp only [Effect.act, update_of_ne hdd] at hk
      exact .inr ⟨hdd, hk⟩
  constructor
  case owned =>
    refine ⟨_, ho.update (some t) d (by simp [Effect.act]) (fun d' hdd => by simp [Effect.act, hdd])
      (fun u => ?_) fun u d' hdd => ?_⟩
    · by_cases hut : u = t
      · simp [hut, hfree]
      · simp [update_of_ne hut, hfree, Ne.symm hut]
    · by_cases hut : u = t
      · rw [hut, update_self, Multiset.count_cons_of_ne hdd]
      · rw [update_of_ne hut]
  case fresh =>
    intro d' k hk
    show k < T.count + 1
    rcases hold d' k hk with ⟨_, rfl⟩ | ⟨_, hk'⟩
    · exact Nat.lt_succ_self _
    · exact Nat.lt_succ_of_lt (hI.fresh d' k hk')
  case inj =>
    intro d₁ d₂ k h₁ h₂
    rcases hold d₁ k h₁ with ⟨hd₁, hk⟩ | ⟨_, h₁⟩
    · rcases hold d₂ k h₂ with ⟨hd₂, _⟩ | ⟨_, h₂⟩
      · exact hd₁.trans hd₂.symm
      · exact absurd (hI.fresh d₂ k h₂) (by omega)
    · rcases hold d₂ k h₂ with ⟨_, hk⟩ | ⟨_, h₂⟩
      · exact absurd (hI.fresh d₁ k h₁) (by omega)
      · exact hI.inj d₁ d₂ k h₁ h₂

theorem release (hI : Inv T held) (hd : held t = d ::ₘ h) :
    Inv ((Effect.release d).act T) (update held t h) := by
  obtain ⟨owner, ho⟩ := hI.owned
  have ht : owner d = some t := ho.mem_iff.mp (hd ▸ Multiset.mem_cons_self d h)
  have hold : ∀ d' k, ((Effect.release d).act T).conn d' = some k → T.conn d' = some k := by
    intro d' k hk
    by_cases hdd : d' = d
    · simp [Effect.act, hdd] at hk
    · simpa only [Effect.act, update_of_ne hdd] using hk
  constructor
  case owned =>
    refine ⟨_, ho.update none d (by simp [Effect.act]) (fun d' hdd => by simp [Effect.act, hdd])
      (fun u => ?_) fun u d' hdd => ?_⟩
    · by_cases hut : u = t
      · have hc := ho.count t d
        rw [hd, Multiset.count_cons_self, if_pos ht] at hc
        rw [hut, update_self, if_neg nofun]
        omega
      · rw [update_of_ne hut, ho.count, ht]
        simp [Ne.symm hut]
    · by_cases hut : u = t
      · rw [hut, update_self, hd, Multiset.count_cons_of_ne hdd]
      · rw [update_of_ne hut]
  case fresh => exact fun d' k hk => hI.fresh d' k (hold d' k hk)
  case inj => exact fun d₁ d₂ k h₁ h₂ => hI.inj d₁ d₂ k (hold d₁ k h₁) (hold d₂ k h₂)

/-- A request that is possible keeps the table in order. -/
theorem takes (hI : Inv T held) (hp : e.Possible T) (he : e.Takes (held t) h) :
    Inv (e.act T) (update held t h) := by
  cases e with
  | keep =>
    have hh : h = held t := he
    rw [hh, update_eq_self]
    exact hI
  | acquire d =>
    have hh : h = d ::ₘ held t := he
    rw [hh]
    exact hI.acquire t hp
  | release d => exact hI.release he

/-- A holder hands on some of its names. -/
theorem give (hI : Inv T held) (hu : held u = 0) (ht : D + r = held t) :
    Inv T (update (update held t r) u D) := by
  obtain ⟨owner, ho⟩ := hI.owned
  refine ⟨⟨fun d => if d ∈ D then some u else owner d, fun d => ?_, fun v d => ?_⟩, hI.fresh,
    hI.inj⟩
  · split
    · rename_i hd
      have hd' : d ∈ held t := ht ▸ Multiset.mem_add.mpr (.inl hd)
      simp [hI.conn_ne_none hd']
    · exact ho.closed d
  · have hc := ho.count t d
    rw [← ht, Multiset.count_add] at hc
    by_cases hD : d ∈ D
    · have hpos : 0 < D.count d := Multiset.count_pos.mpr hD
      have ho' : owner d = some t := by
        by_contra hn
        rw [if_neg hn] at hc
        omega
      rw [if_pos ho'] at hc
      have hother : ∀ v, v ≠ t → (held v).count d = 0 := by
        intro v hv
        rw [ho.count, ho']
        simp [Ne.symm hv]
      simp only [if_pos hD]
      by_cases hvu : v = u
      · simp only [hvu, update_self, if_true]
        omega
      · rw [update_of_ne hvu, if_neg (by simpa using Ne.symm hvu)]
        by_cases hvt : v = t
        · rw [hvt, update_self]
          omega
        · rw [update_of_ne hvt, hother v hvt]
    · rw [Multiset.count_eq_zero_of_notMem hD, Nat.zero_add] at hc
      simp only [if_neg hD]
      by_cases hvu : v = u
      · have hcu := ho.count u d
        rw [hu, Multiset.count_zero] at hcu
        rw [hvu, update_self, Multiset.count_eq_zero_of_notMem hD]
        exact hcu
      · rw [update_of_ne hvu]
        by_cases hvt : v = t
        · rw [hvt, update_self, hc]
        · rw [update_of_ne hvt]
          exact ho.count v d

/-- A holder's names stand for what they stood for, whatever possible request is made, as long as
it holds them. -/
theorem conn_act (hI : Inv T held) (hp : e.Possible T) (he : e.Takes (held t) h) (hd : d ∈ held u)
    (hd' : d ∈ update held t h u) : (e.act T).conn d = T.conn d := by
  cases e with
  | keep => rfl
  | acquire d' =>
    refine update_of_ne ?_ _ _
    rintro rfl
    exact hI.conn_ne_none hd hp
  | release d' =>
    refine update_of_ne ?_ _ _
    rintro rfl
    have ht : held t = d ::ₘ h := he
    obtain rfl : u = t := hI.unique hd (ht ▸ Multiset.mem_cons_self d h)
    rw [update_self] at hd'
    have hn := hI.nodup u
    rw [ht, Multiset.nodup_cons] at hn
    exact hn.1 hd'

end Inv
end Tables
end Ownership
