import Libtask.Base.Ring
import Libtask.Base.Runs
import Libtask.Base.SwapRemove
import Libtask.Channel

/-! What the functions of channel.c do to the two queues of a channel and to its ring. -/
namespace Libtask
open Function Runs

variable {σ : Type}

/-- The directions that have a queue. -/
def Op.queued (op : Op) : Prop := op = .CHANSND ∨ op = .CHANRCV

/-- The queue `op` selects, empty where it selects none. -/
def Channel.arr (x : Channel) : Op → List AltPtr
  | .CHANSND => x.asend
  | .CHANRCV => x.arecv
  | _ => []

/-- A channel apart from its queues. -/
def Channel.ring (x : Channel) : Channel := { x with asend := [], arecv := [] }

/-- The elements in the buffer, oldest first. -/
def Channel.held (x : Channel) : List (List UInt8) :=
  Ring.contents x.buf x.elemsize x.bufsize x.off x.nbuf

section Queues
variable {x : Channel} {op op' : Op} {ar : List AltPtr}

theorem chanarray_eq (h : op.queued) : chanarray x op = some (x.arr op) := by
  rcases h with rfl | rfl <;> rfl

theorem Op.queued.otherop (h : op.queued) : (otherop op).queued := by
  rcases h with rfl | rfl
  · exact .inr rfl
  · exact .inl rfl

theorem arr_setChanarray (h : op.queued) :
    (setChanarray op ar x).arr op' = if op' = op then ar else x.arr op' := by
  rcases h with rfl | rfl <;> cases op' <;> rfl

@[simp] theorem ring_setChanarray : (setChanarray op ar x).ring = x.ring := by
  cases op <;> rfl

theorem bufsize_of_ring {y : Channel} (h : y.ring = x.ring) : y.bufsize = x.bufsize := by
  simpa [Channel.ring] using congrArg Channel.bufsize h

theorem nbuf_of_ring {y : Channel} (h : y.ring = x.ring) : y.nbuf = x.nbuf := by
  simpa [Channel.ring] using congrArg Channel.nbuf h

/-- Before the terminator of an array there are only branches to queue and `CHANNOP`s. -/
theorem queued_of_ne {op : Op} (he : isAltend op = false) (hn : op ≠ .CHANNOP) : op.queued := by
  cases op <;> simp_all [isAltend, Op.queued]

theorem delarray_perm {α : Type} {a : List α} {i : ℕ} (hi : i < a.length) :
    (a[i] :: delarray a i).Perm a := by
  cases hx : a.getLast? with
  | none =>
    rw [List.getLast?_eq_none_iff] at hx
    subst hx
    exact absurd hi (by simp)
  | some x =>
    rw [delarray, hx]
    exact SwapRemove.cons_perm hx hi

end Queues

section Dequeue
variable {s : Sys σ} {p : AltPtr} {x : Alt}

theorem deref_eq (h : s.alt? p = some x) : s.deref p = .ok x := by
  rw [Sys.deref, h]

theorem alt?_of_deref (h : s.deref p = .ok x) : s.alt? p = some x := by
  cases hx : s.alt? p with
  | none =>
    rw [Sys.deref, hx] at h
    cases h
  | some y =>
    rw [deref_eq hx] at h
    cases h
    rfl

/-- `altdequeue` of a queued alt takes it, and only it, off its queue. -/
theorem altdequeue_ok (hx : s.alt? p = some x) (hop : x.op.queued)
    (hp : p ∈ (s.chan x.c).arr x.op) :
    ∃ ar, (p :: ar).Perm ((s.chan x.c).arr x.op) ∧
      altdequeue p s = .ok (s.setChan x.c (setChanarray x.op ar (s.chan x.c))) := by
  obtain ⟨i, hi⟩ := Option.isSome_iff_exists.mp (List.isSome_idxOf?.mpr hp)
  obtain ⟨hlt, hip, _⟩ := List.idxOf?_eq_some_iff.mp hi
  refine ⟨delarray ((s.chan x.c).arr x.op) i, ?_, ?_⟩
  · have hperm := delarray_perm hlt
    rwa [hip] at hperm
  · simp [altdequeue, deref_eq hx, chanarray_eq hop, hi, bind, Except.bind, pure, Except.pure]

/-- The queues of `chan'` are those of `chan` without the alts that are `gone`. -/
structure Dequeued (chan chan' : ℕ → Channel) (gone : AltPtr → Prop) : Prop where
  nodup : ∀ c op, op.queued → ((chan' c).arr op).Nodup
  mem : ∀ c op, op.queued → ∀ q, q ∈ (chan' c).arr op ↔ q ∈ (chan c).arr op ∧ ¬gone q

/-- Taking off one alt, which is queued only in the place its branch says. -/
theorem Dequeued.setChan {ar : List AltPtr} (hop : x.op.queued)
    (hperm : (p :: ar).Perm ((s.chan x.c).arr x.op))
    (hnd : ∀ c op, op.queued → ((s.chan c).arr op).Nodup)
    (huniq : ∀ c op, op.queued → p ∈ (s.chan c).arr op → x.c = c ∧ x.op = op) :
    Dequeued s.chan (s.setChan x.c (setChanarray x.op ar (s.chan x.c))).chan (· = p) where
  nodup c op hq := by
    have hpar : (p :: ar).Nodup := hperm.nodup_iff.mpr (hnd _ _ hop)
    by_cases hc : c = x.c
    · subst hc
      simp only [Sys.setChan, update_self, arr_setChanarray hop]
      split
      · exact (List.nodup_cons.mp hpar).2
      · exact hnd _ _ hq
    · simp only [Sys.setChan, update_of_ne hc]
      exact hnd _ _ hq
  mem c op hq q := by
    have hpar : (p :: ar).Nodup := hperm.nodup_iff.mpr (hnd _ _ hop)
    by_cases hc : c = x.c ∧ op = x.op
    · obtain ⟨rfl, rfl⟩ := hc
      simp only [Sys.setChan, update_self, arr_setChanarray hop, if_true, ← hperm.mem_iff,
        List.mem_cons]
      constructor
      · intro hm
        exact ⟨.inr hm, fun he => (List.nodup_cons.mp hpar).1 (he ▸ hm)⟩
      · rintro ⟨rfl | hm, hne⟩
        · exact absurd rfl hne
        · exact hm
    · have harr : ((s.setChan x.c (setChanarray x.op ar (s.chan x.c))).chan c).arr op =
          (s.chan c).arr op := by
        by_cases hcx : c = x.c
        · subst hcx
          simp only [Sys.setChan, update_self, arr_setChanarray hop]
          rw [if_neg fun ho => hc ⟨rfl, ho⟩]
        · simp [Sys.setChan, hcx]
      rw [harr]
      refine ⟨fun hm => ⟨hm, ?_⟩, And.left⟩
      rintro rfl
      obtain ⟨h₁, h₂⟩ := huniq c op hq hm
      exact hc ⟨h₁.symm, h₂.symm⟩

theorem Dequeued.trans {chan chan' chan'' : ℕ → Channel} {g g' g'' : AltPtr → Prop}
    (h : Dequeued chan chan' g) (h' : Dequeued chan' chan'' g')
    (hg : ∀ c op q, op.queued → q ∈ (chan c).arr op → (g'' q ↔ g q ∨ g' q)) :
    Dequeued chan chan'' g'' where
  nodup := h'.nodup
  mem c op hq q := by
    rw [h'.mem c op hq, h.mem c op hq]
    constructor
    · rintro ⟨⟨hm, h₁⟩, h₂⟩
      exact ⟨hm, fun hn => ((hg c op q hq hm).mp hn).elim h₁ h₂⟩
    · rintro ⟨hm, hn⟩
      rw [hg c op q hq hm, not_or] at hn
      exact ⟨⟨hm, hn.1⟩, hn.2⟩

theorem ring_setChan {ar : List AltPtr} (c : ℕ) :
    ((s.setChan x.c (setChanarray x.op ar (s.chan x.c))).chan c).ring = (s.chan c).ring := by
  by_cases hc : c = x.c
  · subst hc
    simp [Sys.setChan]
  · simp [Sys.setChan, hc]

/-- From branch `p.idx` on, the queues hold exactly the branches `as` up to the terminator. -/
def QueuedFrom (s : Sys σ) (p : AltPtr) (as : List Alt) : Prop :=
  ∀ c op, op.queued → ∀ j, ⟨p.base, p.idx + j⟩ ∈ (s.chan c).arr op ↔
    ∃ x, (as.takeWhile fun a => !isAltend a.op)[j]? = some x ∧ x.c = c ∧ x.op = op

theorem altalldequeueFrom_cons {a : Alt} {as : List Alt} (ha : isAltend a.op = false) :
    altalldequeueFrom p (a :: as) s = (if a.op ≠ .CHANNOP then altdequeue p s else .ok s).bind
      (altalldequeueFrom ⟨p.base, p.idx + 1⟩ as) := by
  by_cases hop : a.op = .CHANNOP
  · simp [altalldequeueFrom, hop, isAltend, bind, Except.bind]
  · simp [altalldequeueFrom, hop, ha, bind]

/-- The loop of `altalldequeue` takes off the branches from `p` on and never aborts: each of
them is in its queue. -/
theorem altalldequeueFrom_ok {as : List Alt} (has : (s.alts p.base).drop p.idx = as)
    (hend : ∃ x ∈ as, isAltend x.op) (hnd : ∀ c op, op.queued → ((s.chan c).arr op).Nodup)
    (hmem : QueuedFrom s p as) :
    ∃ chan', altalldequeueFrom p as s = .ok { s with chan := chan' } ∧
      (∀ c, (chan' c).ring = (s.chan c).ring) ∧
      Dequeued s.chan chan' fun q => q.base = p.base ∧ p.idx ≤ q.idx := by
  induction as generalizing p s with
  | nil => simp at hend
  | cons a as ih =>
    -- a queued branch at or after `p` is one of the branches before the terminator
    have hbranch : ∀ c op q, op.queued → q ∈ (s.chan c).arr op → q.base = p.base →
        p.idx ≤ q.idx → ∃ x,
        ((a :: as).takeWhile fun a => !isAltend a.op)[q.idx - p.idx]? = some x ∧
          x.c = c ∧ x.op = op := by
      intro c op q hq hm hb hi
      refine (hmem c op hq (q.idx - p.idx)).mp ?_
      rwa [show (⟨p.base, p.idx + (q.idx - p.idx)⟩ : AltPtr) = q by
        rw [← hb, Nat.add_sub_cancel' hi]]
    by_cases hae : isAltend a.op = true
    · refine ⟨s.chan, by simp [altalldequeueFrom, hae], fun _ => rfl, hnd, fun c op hq q => ?_⟩
      refine ⟨fun hm => ⟨hm, fun ⟨hb, hi⟩ => ?_⟩, And.left⟩
      obtain ⟨x, hx, _⟩ := hbranch c op q hq hm hb hi
      simp [hae] at hx
    · have haf : isAltend a.op = false := by simpa using hae
      have hnext : (s.alts p.base).drop (p.idx + 1) = as := by
        rw [← List.drop_drop, has, List.drop_one, List.tail_cons]
      have hget : s.alt? p = some a := by
        have h0 := congrArg (·[0]?) has
        simpa [Sys.alt?] using h0
      have hend' : ∃ x ∈ as, isAltend x.op := by
        obtain ⟨x, hx, hxe⟩ := hend
        rcases List.mem_cons.mp hx with rfl | hx
        · exact absurd hxe hae
        · exact ⟨x, hx, hxe⟩
      have htake : (a :: as).takeWhile (fun a => !isAltend a.op) =
          a :: as.takeWhile fun a => !isAltend a.op := by simp [haf]
      -- the queues after branch `p` has been dealt with
      obtain ⟨chan₁, hstep, hr₁, hd₁⟩ : ∃ chan₁,
          (if a.op ≠ .CHANNOP then altdequeue p s else .ok s) = .ok { s with chan := chan₁ } ∧
            (∀ c, (chan₁ c).ring = (s.chan c).ring) ∧ Dequeued s.chan chan₁ (· = p) := by
        by_cases hop : a.op = .CHANNOP
        · refine ⟨s.chan, by simp [hop], fun _ => rfl, hnd, fun c op hq q => ?_⟩
          refine ⟨fun hm => ⟨hm, ?_⟩, And.left⟩
          rintro rfl
          obtain ⟨x, hx, _, rfl⟩ := hbranch c op q hq hm rfl le_rfl
          simp only [htake, Nat.sub_self, List.getElem?_cons_zero, Option.some.injEq] at hx
          subst hx
          rw [hop] at hq
          rcases hq with h | h <;> cases h
        · have hq := queued_of_ne haf hop
          have hp : p ∈ (s.chan a.c).arr a.op :=
            (hmem a.c a.op hq 0).mpr ⟨a, by simp [htake], rfl, rfl⟩
          obtain ⟨ar, hperm, hok⟩ := altdequeue_ok hget hq hp
          refine ⟨_, by simp [hop, hok, Sys.setChan], ring_setChan, .setChan hq hperm hnd ?_⟩
          intro c op hq' hm
          obtain ⟨x, hx, hxc, hxo⟩ := hbranch c op p hq' hm rfl le_rfl
          simp only [htake, Nat.sub_self, List.getElem?_cons_zero, Option.some.injEq] at hx
          exact hx ▸ ⟨hxc, hxo⟩
      obtain ⟨chan₂, hrest, hr₂, hd₂⟩ := ih (s := { s with chan := chan₁ })
        (p := ⟨p.base, p.idx + 1⟩)
        hnext hend' hd₁.nodup (by
          intro c op hq j
          simp only
          rw [hd₁.mem c op hq, show p.idx + 1 + j = p.idx + (j + 1) by omega,
            hmem c op hq (j + 1), htake, List.getElem?_cons_succ]
          refine ⟨And.left, fun hx => ⟨hx, fun he => ?_⟩⟩
          have := congrArg AltPtr.idx he
          simp at this)
      refine ⟨chan₂, ?_, fun c => (hr₂ c).trans (hr₁ c), hd₁.trans hd₂ fun c op q hq hm => ?_⟩
      · rw [altalldequeueFrom_cons haf, hstep]
        exact hrest
      · constructor
        · rintro ⟨hb, hi⟩
          rcases Nat.eq_or_lt_of_le hi with he | hlt
          · left
            cases q
            cases p
            simp_all
          · exact .inr ⟨hb, hlt⟩
        · rintro (rfl | ⟨hb, hi⟩)
          · exact ⟨rfl, le_rfl⟩
          · exact ⟨hb, Nat.le_of_succ_le hi⟩

end Dequeue

section Enqueue
variable {s : Sys σ} {base : ℕ} {is : List ℕ}

/-- The branches among `is` on channel `c` in direction `op`. -/
def branches (s : Sys σ) (base : ℕ) (is : List ℕ) (c : ℕ) (op : Op) : List AltPtr :=
  (is.filter fun i => (s.alt? ⟨base, i⟩).any fun x => x.c = c ∧ x.op = op).map (AltPtr.mk base)

theorem mem_branches {c : ℕ} {op : Op} {p : AltPtr} : p ∈ branches s base is c op ↔
    p.base = base ∧ p.idx ∈ is ∧ ∃ x, s.alt? p = some x ∧ x.c = c ∧ x.op = op := by
  simp only [branches, List.mem_map, List.mem_filter, Option.any_eq_true, decide_eq_true_eq]
  constructor
  · rintro ⟨i, ⟨hi, hx⟩, rfl⟩
    exact ⟨rfl, hi, hx⟩
  · rintro ⟨rfl, hi, hx⟩
    exact ⟨p.idx, ⟨hi, hx⟩, rfl⟩

theorem nodup_branches {c : ℕ} {op : Op} (h : is.Nodup) : (branches s base is c op).Nodup :=
  (h.filter _).map fun _ _ hij => congrArg AltPtr.idx hij

theorem altqueueAll_cons {i : ℕ} {x : Alt} (hx : s.alt? ⟨base, i⟩ = some x)
    (hop : x.op = .CHANNOP ∨ x.op.queued) :
    altqueueAll base (i :: is) s = altqueueAll base is (if x.op = .CHANNOP then s
      else s.setChan x.c (setChanarray x.op ((s.chan x.c).arr x.op ++ [⟨base, i⟩])
      (s.chan x.c))) := by
  rcases hop with hop | hop
  · simp [altqueueAll, deref_eq hx, hop, bind, Except.bind]
  · have hne : x.op ≠ .CHANNOP := by rcases hop with h | h <;> simp [h]
    simp [altqueueAll, altqueue, deref_eq hx, hne, chanarray_eq hop, bind, Except.bind, pure,
      Except.pure]

/-- The last loop of `chanalt` puts every branch at the end of the queue it names. -/
theorem altqueueAll_ok (hb : ∀ i ∈ is, ∃ x, s.alt? ⟨base, i⟩ = some x ∧
      (x.op = .CHANNOP ∨ x.op.queued)) :
    ∃ chan', altqueueAll base is s = .ok { s with chan := chan' } ∧
      (∀ c, (chan' c).ring = (s.chan c).ring) ∧
      ∀ c op, op.queued → (chan' c).arr op = (s.chan c).arr op ++ branches s base is c op := by
  induction is generalizing s with
  | nil => exact ⟨s.chan, rfl, fun _ => rfl, fun c op _ => (List.append_nil _).symm⟩
  | cons i is ih =>
    obtain ⟨x, hx, hop⟩ := hb i (by simp)
    rw [altqueueAll_cons hx hop]
    have hcons : ∀ c op, branches s base (i :: is) c op =
        (if x.c = c ∧ x.op = op then [⟨base, i⟩] else []) ++ branches s base is c op := by
      intro c op
      simp only [branches, List.filter_cons, hx, Option.any_some, decide_eq_true_eq]
      split <;> rfl
    by_cases hn : x.op = .CHANNOP
    · obtain ⟨chan', hok, hring, harr⟩ := ih fun j hj => hb j (by simp [hj])
      refine ⟨chan', by rw [if_pos hn, hok], hring, fun c op hq => ?_⟩
      rw [harr c op hq, hcons, if_neg, List.nil_append]
      rintro ⟨_, rfl⟩
      rw [hn] at hq
      rcases hq with h | h <;> cases h
    · have hq := hop.resolve_left hn
      rw [if_neg hn]
      obtain ⟨chan', hok, hring, harr⟩ := ih (s := s.setChan x.c (setChanarray x.op
        ((s.chan x.c).arr x.op ++ [⟨base, i⟩]) (s.chan x.c))) fun j hj => hb j (by simp [hj])
      refine ⟨chan', hok, fun c => (hring c).trans (ring_setChan c), fun c op hq' => ?_⟩
      · rw [harr c op hq', hcons, ← List.append_assoc]
        congr 1
        by_cases hc : c = x.c
        · subst hc
          simp only [Sys.setChan, update_self, arr_setChanarray hq, true_and]
          by_cases ho : op = x.op
          · simp [ho]
          · simp [ho, Ne.symm ho]
        · simp [Sys.setChan, hc, Ne.symm hc]

end Enqueue

def ChanEvent.sentBytes : ChanEvent → Option (List UInt8)
  | .sent _ bytes => some bytes
  | .rcvd _ _ => none

def ChanEvent.rcvdBytes : ChanEvent → Option (List UInt8)
  | .sent _ _ => none
  | .rcvd _ bytes => some bytes

/-- The ring is in bounds, and what was sent is what was received and then what it holds. -/
structure RingInv (x : Channel) (log : List ChanEvent) : Prop where
  bufsize_lt : x.bufsize < 2 ^ 31
  elemsize_lt : x.elemsize < 2 ^ 31
  nbuf_le : x.nbuf ≤ x.bufsize
  off_lt : 0 < x.bufsize → x.off < x.bufsize
  off_zero : x.bufsize = 0 → x.off = 0
  fifo : x.bufsize * x.elemsize < 2 ^ 32 →
    hist ChanEvent.sentBytes log = hist ChanEvent.rcvdBytes log ++ x.held

/-- A queued alt cannot be executed: senders wait for a full buffer and receivers for an empty
one, and without a buffer the two queues are of one and the same alt. -/
structure QueueInv (x : Channel) : Prop where
  full : 0 < x.bufsize → x.asend ≠ [] → x.nbuf = x.bufsize
  empty : 0 < x.bufsize → x.arecv ≠ [] → x.nbuf = 0
  solo : x.bufsize = 0 → ∀ p ∈ x.asend, ∀ q ∈ x.arecv, p.base = q.base

section Ring
variable {x y : Channel} {log : List ChanEvent} {p q : AltPtr} {bytes : List UInt8}

theorem RingInv.congr (h : RingInv x log) (hxy : y.ring = x.ring) : RingInv y log := by
  obtain ⟨bufsize, elemsize, buf, nbuf, off, asend, arecv⟩ := x
  obtain ⟨bufsize', elemsize', buf', nbuf', off', asend', arecv'⟩ := y
  simp only [Channel.ring, Channel.mk.injEq] at hxy
  obtain ⟨rfl, rfl, rfl, rfl, rfl, _⟩ := hxy
  exact ⟨h.1, h.2, h.3, h.4, h.5, h.6⟩

theorem u32_eq {n : ℕ} (h : n < 2 ^ 32) : u32 n = n := Nat.mod_eq_of_lt h

/-- Past an empty buffer an element may go straight to a receiver. -/
theorem RingInv.direct (h : RingInv x log) (hn : x.nbuf = 0) :
    RingInv x (.rcvd q bytes :: .sent p bytes :: log) where
  __ := h
  fifo hb := by
    have hheld : x.held = [] := by simp [Channel.held, hn]
    have hf := h.fifo hb
    rw [hheld, List.append_nil] at hf
    simp [ChanEvent.sentBytes, ChanEvent.rcvdBytes, hheld, hf]

/-- An element's bytes do not reach past the buffer. -/
theorem slot_bound {i w n : ℕ} (hi : i < n) (hb : n * w < 2 ^ 32) : i * w < 2 ^ 32 := by
  have := Nat.mul_le_mul_right w hi.le
  omega

/-- The element that `altcopy` takes out of the buffer of a channel. -/
def Channel.front (x : Channel) : List UInt8 :=
  readBytes x.buf (u32 (x.off * x.elemsize)) x.elemsize

/-- A channel from which `altcopy` has taken one element. -/
def Channel.taken (x : Channel) : Channel :=
  { x with
    nbuf := u32 (x.nbuf + (2 ^ 32 - 1))
    off := if u32 (x.off + 1) = x.bufsize then 0 else u32 (x.off + 1) }

theorem taken_bufsize (x : Channel) : x.taken.bufsize = x.bufsize := by
  unfold Channel.taken
  rfl

theorem taken_elemsize (x : Channel) : x.taken.elemsize = x.elemsize := by
  unfold Channel.taken
  rfl

theorem taken_buf (x : Channel) : x.taken.buf = x.buf := by
  unfold Channel.taken
  rfl

/-- A channel into which `altcopy` has put one element. -/
def Channel.filled (x : Channel) (bytes : List UInt8) : Channel :=
  { x with
    buf := writeBytes x.buf (u32 (u32 (x.off + x.nbuf) % x.bufsize * x.elemsize)) bytes
    nbuf := u32 (x.nbuf + 1) }

theorem RingInv.taken_nbuf (h : RingInv x log) (hn : 0 < x.nbuf) : x.taken.nbuf = x.nbuf - 1 := by
  have hsz := h.bufsize_lt
  have hle := h.nbuf_le
  simp only [Channel.taken, u32]
  omega

theorem RingInv.taken_off (h : RingInv x log) (hn : 0 < x.nbuf) :
    x.taken.off = if x.off + 1 = x.bufsize then 0 else x.off + 1 := by
  have hsz := h.bufsize_lt
  have hle := h.nbuf_le
  have hoff := h.off_lt (by omega)
  simp only [Channel.taken, u32_eq (show x.off + 1 < 2 ^ 32 by omega)]

/-- The element taken is the first one held, where its address does not wrap. -/
theorem RingInv.held_taken (h : RingInv x log) (hn : 0 < x.nbuf)
    (hb : x.off * x.elemsize < 2 ^ 32) : x.held = x.front :: x.taken.held := by
  have hle := h.nbuf_le
  have hoff := h.off_lt (by omega)
  obtain ⟨n, hnn⟩ : ∃ n, x.nbuf = n + 1 := ⟨x.nbuf - 1, by omega⟩
  have htaken : x.taken.held = Ring.contents x.buf x.elemsize x.bufsize
      (if x.off + 1 = x.bufsize then 0 else x.off + 1) n := by
    rw [Channel.held, taken_buf, taken_elemsize, taken_bufsize, h.taken_nbuf hn, h.taken_off hn,
      hnn, Nat.add_sub_cancel]
  rw [htaken, Channel.held, hnn, Ring.contents_pop hoff, Channel.front, u32_eq hb]
  rfl

theorem RingInv.recv (h : RingInv x log) (hn : 0 < x.nbuf) :
    RingInv x.taken (.rcvd q x.front :: log) := by
  have hle := h.nbuf_le
  have hoff := h.off_lt (by omega)
  refine ⟨?_, ?_, ?_, fun _ => ?_, fun h0 => ?_, fun hb => ?_⟩
  · rw [taken_bufsize]
    exact h.bufsize_lt
  · rw [taken_elemsize]
    exact h.elemsize_lt
  · rw [h.taken_nbuf hn, taken_bufsize]
    omega
  · rw [h.taken_off hn, taken_bufsize]
    split <;> omega
  · rw [taken_bufsize] at h0
    omega
  · simp only [hist_cons, ChanEvent.sentBytes, ChanEvent.rcvdBytes, Option.toList_none,
      Option.toList_some, List.append_nil]
    rw [taken_bufsize, taken_elemsize] at hb
    rw [h.fifo hb, h.held_taken hn (slot_bound hoff hb), List.append_assoc, List.singleton_append]

theorem writeBytes_in {mem : ℕ → UInt8} {a j : ℕ} (hj : j < bytes.length) :
    writeBytes mem a bytes (a + j) = bytes[j] := by
  simp [writeBytes, hj]

theorem writeBytes_out {mem : ℕ → UInt8} {a z : ℕ} (h : z < a ∨ a + bytes.length ≤ z) :
    writeBytes mem a bytes z = mem z := by
  rw [writeBytes, if_neg (by omega)]

/-- The element put in is the last one held, where its address does not wrap. -/
theorem RingInv.held_filled (h : RingInv x log) (hn : x.nbuf < x.bufsize)
    (hlen : bytes.length = x.elemsize)
    (hb : (x.off + x.nbuf) % x.bufsize * x.elemsize < 2 ^ 32) :
    (x.filled bytes).held = x.held ++ [bytes] := by
  have hsz := h.bufsize_lt
  have hoff := h.off_lt (by omega)
  have hnb : u32 (x.nbuf + 1) = x.nbuf + 1 := u32_eq (by omega)
  have hidx : u32 (x.off + x.nbuf) = x.off + x.nbuf := u32_eq (by omega)
  simp only [Channel.held, Channel.filled, hnb, hidx, u32_eq hb]
  exact Ring.contents_push hn hlen (fun j hj => writeBytes_in hj) fun z hz =>
    writeBytes_out (by rwa [hlen])

theorem RingInv.send (h : RingInv x log) (hn : x.nbuf < x.bufsize)
    (hlen : bytes.length = x.elemsize) :
    RingInv (x.filled bytes) (.sent p bytes :: log) := by
  have hsz := h.bufsize_lt
  have hoff := h.off_lt (by omega)
  have hnb : u32 (x.nbuf + 1) = x.nbuf + 1 := u32_eq (by omega)
  refine ⟨hsz, h.elemsize_lt, ?_, fun _ => hoff, fun h0 => ?_, fun hb => ?_⟩
  · simp only [Channel.filled, hnb]
    omega
  · simp only [Channel.filled] at h0
    omega
  · simp only [hist_cons, ChanEvent.sentBytes, ChanEvent.rcvdBytes, Option.toList_none,
      Option.toList_some, List.append_nil]
    rw [h.fifo hb, h.held_filled hn hlen
      (slot_bound (Nat.mod_lt (x.off + x.nbuf) (by omega : 0 < x.bufsize)) hb), List.append_assoc]

end Ring

/-- From `s` to `s'` elements went through channel `c`, which logged `evs`. -/
structure Copied (c : ℕ) (evs : List ChanEvent) (s s' : Sys σ) : Prop where
  eq : s' = { s with chan := s'.chan, mem := s'.mem, log := evs.map (.chan c) ++ s.log }
  other : ∀ c' ≠ c, s'.chan c' = s.chan c'
  arr : ∀ op, (s'.chan c).arr op = (s.chan c).arr op
  bufsize : (s'.chan c).bufsize = (s.chan c).bufsize
  ring : RingInv (s'.chan c) (evs ++ s.log.filterMap (chanEvent c))

/-- From `s` to `s'` channel `c` logged `evs`, and nothing changed but channels, memory and
arrays. -/
def ChanOnly (c : ℕ) (evs : List ChanEvent) (s s' : Sys σ) : Prop :=
  s' = { s with chan := s'.chan, mem := s'.mem, alts := s'.alts, log := evs.map (.chan c) ++ s.log }

theorem Copied.chanOnly {c : ℕ} {evs : List ChanEvent} {s s' : Sys σ} (h : Copied c evs s s') :
    ChanOnly c evs s s' := by
  unfold ChanOnly
  rw [h.eq]

theorem chanEvent_map (c : ℕ) (evs : List ChanEvent) :
    (evs.map (.chan c)).filterMap (chanEvent c) = evs := by
  induction evs with
  | nil => rfl
  | cons e evs ih => simp [chanEvent, ih]

section Copy
variable {s : Sys σ} {c : ℕ} {p q : AltPtr} {y z : Alt}

theorem length_amoveSource (mem : ℕ → UInt8) (src : Option ℕ) (n : ℕ) :
    (amoveSource mem src n).length = n := by
  cases src <;> simp [amoveSource, readBytes]

theorem altcopyDirect_copied (h : RingInv (s.chan c) (s.log.filterMap (chanEvent c)))
    (hn : (s.chan c).nbuf = 0) :
    ∃ bytes, Copied c [.rcvd q bytes, .sent p bytes] s (altcopyDirect c p y q z s) :=
  ⟨_, rfl, fun _ _ => rfl, fun _ => rfl, rfl, h.direct hn⟩

theorem altcopyRecv_taken : (altcopyRecv c q z s).chan c = (s.chan c).taken := update_self ..

theorem altcopyRecv_copied (h : RingInv (s.chan c) (s.log.filterMap (chanEvent c)))
    (hn : 0 < (s.chan c).nbuf) :
    (∃ bytes, Copied c [.rcvd q bytes] s (altcopyRecv c q z s)) ∧
      ((altcopyRecv c q z s).chan c).nbuf = (s.chan c).nbuf - 1 := by
  have hsz := h.bufsize_lt
  have hle := h.nbuf_le
  refine ⟨⟨_, rfl, fun c' hc => ?_, fun op => ?_, ?_, ?_⟩, ?_⟩
  · simp [altcopyRecv, Sys.emit, Sys.setChan, hc]
  · cases op <;> simp [altcopyRecv, Sys.emit, Sys.setChan, Channel.arr]
  · simp [altcopyRecv, Sys.emit, Sys.setChan]
  · rw [altcopyRecv_taken]
    exact h.recv hn
  · simp only [altcopyRecv, Sys.emit, Sys.setChan, update_self, u32]
    omega

theorem altcopySend_copied (h : RingInv (s.chan c) (s.log.filterMap (chanEvent c)))
    (hn : (s.chan c).nbuf < (s.chan c).bufsize) :
    ∃ s' bytes, altcopySend c p y s = .ok s' ∧ Copied c [.sent p bytes] s s' ∧
      (s'.chan c).nbuf = (s.chan c).nbuf + 1 := by
  have hsz := h.bufsize_lt
  have h0 : (s.chan c).bufsize ≠ 0 := by omega
  refine ⟨_, _, by rw [altcopySend, if_neg h0], ⟨rfl, fun c' hc => ?_, fun op => ?_, ?_, ?_⟩, ?_⟩
  · simp [Sys.emit, Sys.setChan, hc]
  · cases op <;> simp [Sys.emit, Sys.setChan, Channel.arr]
  · simp [Sys.emit, Sys.setChan]
  · simpa [Sys.emit, Sys.setChan, Channel.filled] using h.send hn (length_amoveSource _ _ _)
  · simp only [Sys.emit, Sys.setChan, update_self, u32]
    omega

theorem Copied.alt? {evs : List ChanEvent} {s' : Sys σ} (h : Copied c evs s s') (p : AltPtr) :
    s'.alt? p = s.alt? p := by
  rw [h.eq]
  rfl

theorem Copied.trans {evs evs' : List ChanEvent} {s' s'' : Sys σ} (h : Copied c evs s s')
    (h' : Copied c evs' s' s'') : Copied c (evs' ++ evs) s s'' where
  eq := by
    rw [h'.eq, h.eq]
    simp
  other c' hc := (h'.other c' hc).trans (h.other c' hc)
  arr op := (h'.arr op).trans (h.arr op)
  bufsize := h'.bufsize.trans h.bufsize
  ring := by
    have hr := h'.ring
    rw [h.eq] at hr
    simp only [List.filterMap_append, chanEvent_map] at hr
    rwa [List.append_assoc]

/-- A send or receive without a partner, where the buffer allows it. -/
theorem altcopy_alone {x : Alt} (hx : s.alt? p = some x) (hop : x.op.queued)
    (h : RingInv (s.chan x.c) (s.log.filterMap (chanEvent x.c)))
    (hs : x.op = .CHANSND → (s.chan x.c).nbuf < (s.chan x.c).bufsize)
    (hr : x.op = .CHANRCV → 0 < (s.chan x.c).nbuf) :
    ∃ s' e, altcopy (some p) none s = .ok s' ∧ Copied x.c [e] s s' ∧ e.alt = p ∧
      (x.op = .CHANSND → (s'.chan x.c).nbuf = (s.chan x.c).nbuf + 1) ∧
      (x.op = .CHANRCV → (s'.chan x.c).nbuf + 1 = (s.chan x.c).nbuf) := by
  rcases hop with ho | ho
  · obtain ⟨s', bytes, hok, hcop, hnb⟩ := altcopySend_copied (p := p) (y := x) h (hs ho)
    refine ⟨s', _, ?_, hcop, rfl, fun _ => hnb, by simp [ho]⟩
    simp [altcopy, deref_eq hx, ho, hok, bind, Except.bind]
  · obtain ⟨⟨bytes, hcop⟩, hnb⟩ := altcopyRecv_copied (q := p) (z := x) h (hr ho)
    refine ⟨_, _, ?_, hcop, rfl, by simp [ho], fun _ => ?_⟩
    · simp [altcopy, deref_eq hx, ho, bind, Except.bind, pure, Except.pure]
    · have := hr ho
      omega

/-- A transfer with a partner from the other queue: straight past an empty buffer, or through
a buffer that is full. -/
theorem altcopy_matched {x o : Alt} (hx : s.alt? p = some x) (hop : x.op.queued)
    (ho : s.alt? q = some o) (hoo : o.op = otherop x.op)
    (h : RingInv (s.chan x.c) (s.log.filterMap (chanEvent x.c)))
    (hn : (s.chan x.c).nbuf = 0 ∨ 0 < (s.chan x.c).bufsize) :
    ∃ s' e d, altcopy (some p) (some q) s = .ok s' ∧ Copied x.c [e, d] s s' ∧
      ((e.alt = p ∧ d.alt = q) ∨ (e.alt = q ∧ d.alt = p)) ∧
      (s'.chan x.c).nbuf = (s.chan x.c).nbuf := by
  have hle := h.nbuf_le
  -- the sender `b` and the receiver `r` among the two
  obtain ⟨b, r, y, z, hb, hr, hyo, hzo, hbr, hcopy⟩ : ∃ b r y z, s.alt? b = some y ∧
      s.alt? r = some z ∧ y.op = .CHANSND ∧ z.op = .CHANRCV ∧
      (r = p ∧ b = q ∨ r = q ∧ b = p) ∧ altcopy (some p) (some q) s =
        if (s.chan x.c).nbuf = 0 then .ok (altcopyDirect x.c b y r z s)
        else altcopySend x.c b y (altcopyRecv x.c r z s) := by
    rcases hop with hxo | hxo
    · rw [hxo] at hoo
      refine ⟨p, q, x, o, hx, ho, hxo, hoo, .inr ⟨rfl, rfl⟩, ?_⟩
      simp [altcopy, deref_eq hx, deref_eq ho, hxo, hoo, otherop, bind, Except.bind, pure,
        Except.pure]
    · rw [hxo] at hoo
      refine ⟨q, p, o, x, ho, hx, hoo, hxo, .inl ⟨rfl, rfl⟩, ?_⟩
      simp [altcopy, deref_eq hx, deref_eq ho, hxo, hoo, otherop, bind, Except.bind, pure,
        Except.pure]
  by_cases h0 : (s.chan x.c).nbuf = 0
  · obtain ⟨bytes, hcop⟩ := altcopyDirect_copied (p := b) (q := r) (y := y) (z := z) h h0
    exact ⟨_, _, _, by rw [hcopy, if_pos h0], hcop, hbr, rfl⟩
  · obtain ⟨⟨bytes, hcop⟩, hnb⟩ := altcopyRecv_copied (q := r) (z := z) h (Nat.pos_of_ne_zero h0)
    have hsz := hn.resolve_left h0
    have hring := hcop.ring
    have hlog : (altcopyRecv x.c r z s).log.filterMap (chanEvent x.c) =
        [.rcvd r bytes] ++ s.log.filterMap (chanEvent x.c) := by
      rw [hcop.eq]
      simp [chanEvent]
    rw [← hlog] at hring
    obtain ⟨s', bytes', hok, hcop', hnb'⟩ := altcopySend_copied (p := b) (y := y) hring
      (by rw [hnb, hcop.bufsize]; omega)
    refine ⟨s', _, _, by rw [hcopy, if_neg h0, hok], hcop.trans hcop', ?_, by omega⟩
    exact hbr.symm.imp And.symm And.symm

/-- The alt that `altexec` matches with the branch `p`, if any. -/
def altpartner (p : AltPtr) (rand : ℕ) (s : Sys σ) : Option AltPtr :=
  (s.alt? p).bind fun a => match chanarray (s.chan a.c) (otherop a.op) with
    | some (o :: os) => some ((o :: os).getD (rand % (o :: os).length) o)
    | _ => none

/-- `p->xalt = q` for a pointer `p` into an alt array. -/
def Sys.setXalt (p q : AltPtr) (s : Sys σ) : Sys σ :=
  { s with
    alts := update s.alts p.base ((s.alts p.base).modify p.idx fun y => { y with xalt := q }) }

/-- What `altexec` does when the element has been copied. -/
def altcommit (s : Sys σ) : Option AltPtr → Except Halt (Sys σ × Option TaskPtr)
  | none => .ok (s, none)
  | some q => do
    let y ← s.deref q
    let s ← altalldequeue y.xalt s
    return (s.setXalt y.xalt q, some y.task)

variable {x : Alt} {rand : ℕ}

theorem altexecMatch_eq (hx : s.alt? p = some x) : altexecMatch p rand s =
    (altcopy (some p) (altpartner p rand s) s).bind fun s' =>
      altcommit s' (altpartner p rand s) := by
  simp only [altexecMatch, deref_eq hx, altpartner, hx, Option.bind_some, bind, Except.bind]
  cases chanarray (s.chan x.c) (otherop x.op) with
  | none => rfl
  | some ar => cases ar <;> rfl

theorem arr_of_chanarray {x : Channel} {op : Op} {ar : List AltPtr} (h : chanarray x op = some ar) :
    x.arr op = ar := by
  cases op with
  | CHANSND | CHANRCV => exact Option.some.inj h
  | CHANEND | CHANNOP | CHANNOBLK => cases h

theorem mem_of_altpartner (hx : s.alt? p = some x) (h : altpartner p rand s = some q) :
    q ∈ (s.chan x.c).arr (otherop x.op) := by
  rw [altpartner, hx, Option.bind_some] at h
  split at h
  · rename_i o os har
    cases h
    have hlt : rand % (o :: os).length < (o :: os).length := Nat.mod_lt _ (by simp)
    rw [arr_of_chanarray har, List.getD_eq_getElem?_getD, List.getElem?_eq_getElem hlt,
      Option.getD_some]
    exact List.getElem_mem hlt
  · cases h

theorem altpartner_eq_none (hx : s.alt? p = some x) (hop : x.op.queued) :
    altpartner p rand s = none ↔ (s.chan x.c).arr (otherop x.op) = [] := by
  rw [altpartner, hx, Option.bind_some, chanarray_eq hop.otherop]
  cases (s.chan x.c).arr (otherop x.op) <;> simp

/-- `altexecMatch` when nobody waits on the other side. -/
theorem altexecMatch_alone (hx : s.alt? p = some x) (hop : x.op.queued)
    (hnil : (s.chan x.c).arr (otherop x.op) = []) {s' : Sys σ}
    (hcopy : altcopy (some p) none s = .ok s') : altexecMatch p rand s = .ok (s', none) := by
  rw [altexecMatch_eq hx, (altpartner_eq_none hx hop).mpr hnil, hcopy]
  rfl

/-- `altexecMatch` with a partner `q` out of the other queue. -/
theorem altexecMatch_matched (hx : s.alt? p = some x) (hop : x.op.queued)
    (hne : (s.chan x.c).arr (otherop x.op) ≠ []) (rand : ℕ) :
    ∃ q ∈ (s.chan x.c).arr (otherop x.op), ∀ y s₁ s₂, altcopy (some p) (some q) s = .ok s₁ →
      s₁.alt? q = some y → altalldequeue y.xalt s₁ = .ok s₂ →
      altexecMatch p rand s = .ok (s₂.setXalt y.xalt q, some y.task) := by
  cases hq : altpartner p rand s with
  | none => exact absurd ((altpartner_eq_none hx hop).mp hq) hne
  | some q =>
    refine ⟨q, mem_of_altpartner hx hq, fun y s₁ s₂ hcopy hy hdeq => ?_⟩
    rw [altexecMatch_eq hx, hq, hcopy]
    simp only [altcommit, deref_eq hy, hdeq, bind, Except.bind, pure, Except.pure]

end Copy

section Chanalt
variable {s : Sys σ} {base n : ℕ} {as : List Alt} {t : TaskPtr}

/-- The branches of an array are what comes before its terminator. -/
theorem getElem?_takeWhile_altend {j : ℕ} {x : Alt} :
    (as.takeWhile fun a => !isAltend a.op)[j]? = some x ↔ j < altlen as ∧ as[j]? = some x := by
  have hpre : as.takeWhile (fun a => !isAltend a.op) <+: as := List.takeWhile_prefix _
  constructor
  · intro h
    have hj := (List.getElem?_eq_some_iff.mp h).1
    exact ⟨hj, (List.prefix_iff_getElem?.mp hpre j hj).trans
      (by rw [← h, List.getElem?_eq_getElem])⟩
  · rintro ⟨hj, hx⟩
    rw [List.getElem?_eq_getElem hj, ← hx, List.prefix_iff_getElem?.mp hpre j hj]

theorem not_altend_of_lt {j : ℕ} {x : Alt} (hj : j < altlen as) (hx : as[j]? = some x) :
    isAltend x.op = false := by
  have hm := List.mem_of_getElem? (getElem?_takeWhile_altend.mpr ⟨hj, hx⟩)
  simpa using List.all_eq_true.mp List.all_takeWhile x hm

def stamp (base : ℕ) (t : TaskPtr) (x : Alt) : Alt := { x with task := t, xalt := ⟨base, 0⟩ }

/-- An array after the stamping loop of `chanalt`. -/
def stamped (base : ℕ) (t : TaskPtr) (as : List Alt) : List Alt :=
  (as.take (altlen as)).map (stamp base t) ++ as.drop (altlen as)

theorem altstamp_eq : altstamp base t s =
    { s with alts := update s.alts base (stamped base t (s.alts base)) } := rfl

@[simp] theorem stamp_op (x : Alt) : (stamp base t x).op = x.op := rfl

theorem getElem?_stamped (j : ℕ) : (stamped base t as)[j]? =
    if j < altlen as then as[j]?.map (stamp base t) else as[j]? := by
  have hle : altlen as ≤ as.length := (List.takeWhile_prefix _).length_le
  have hlen : ((as.take (altlen as)).map (stamp base t)).length = altlen as := by
    simpa using hle
  by_cases hj : j < altlen as
  · rw [stamped, List.getElem?_append_left (by omega), if_pos hj, List.getElem?_map,
      List.getElem?_take_of_lt hj]
  · rw [stamped, List.getElem?_append_right (by omega), if_neg hj, hlen, List.getElem?_drop,
      Nat.add_sub_cancel' (by omega)]

theorem altlen_cons (a : Alt) : altlen (a :: as) = if isAltend a.op then 0 else altlen as + 1 := by
  by_cases ha : isAltend a.op <;> simp [altlen, ha]

theorem altlen_stamped : altlen (stamped base t as) = altlen as := by
  induction as with
  | nil => rfl
  | cons a as ih =>
    by_cases ha : isAltend a.op
    · simp [stamped, altlen_cons, ha]
    · have hcons : stamped base t (a :: as) = stamp base t a :: stamped base t as := by
        simp [stamped, altlen_cons, ha]
      simp [hcons, altlen_cons, ha, ih]

theorem terminated_stamped (h : ∃ x ∈ as, isAltend x.op) :
    ∃ x ∈ stamped base t as, isAltend x.op := by
  obtain ⟨x, hx, he⟩ := h
  obtain ⟨j, hj⟩ := List.getElem?_of_mem hx
  by_cases hlt : j < altlen as
  · exact ⟨stamp base t x, List.mem_of_getElem? (i := j) (by simp [getElem?_stamped, hlt, hj]), he⟩
  · exact ⟨x, List.mem_of_getElem? (i := j) (by simp [getElem?_stamped, hlt, hj]), he⟩

/-- The selection loop finds a branch as long as enough of them can be executed. -/
theorem altselect_spec {is : List ℕ} {j : ℕ}
    (hj : j < is.countP fun i => altcanexec s ⟨base, i⟩) :
    ∃ i ∈ is, altselect base s j is = some i ∧ altcanexec s ⟨base, i⟩ := by
  induction is generalizing j with
  | nil => simp at hj
  | cons i is ih =>
    by_cases hi : altcanexec s ⟨base, i⟩
    · by_cases hj0 : j = 0
      · exact ⟨i, by simp, by simp [altselect, hi, hj0], hi⟩
      · rw [List.countP_cons_of_pos (p := fun i => altcanexec s ⟨base, i⟩) hi] at hj
        obtain ⟨k, hk, hs, hc⟩ := ih (j := j - 1) (by omega)
        exact ⟨k, by simp [hk], by simp [altselect, hi, hj0, hs], hc⟩
    · rw [List.countP_cons_of_neg (p := fun i => altcanexec s ⟨base, i⟩) hi] at hj
      obtain ⟨k, hk, hs, hc⟩ := ih hj
      exact ⟨k, by simp [hk], by simp [altselect, hi, hs], hc⟩

theorem altpick_some {rand i : ℕ} (h : altpick base s n rand = some i) :
    i < n ∧ altcanexec s ⟨base, i⟩ = true := by
  unfold altpick at h
  split at h
  · rename_i hn
    obtain ⟨k, hk, hs, hc⟩ := altselect_spec (Nat.mod_lt rand (Nat.pos_of_ne_zero hn))
    cases hs.symm.trans h
    exact ⟨List.mem_range.mp hk, hc⟩
  · cases h

theorem altpick_none {rand : ℕ} (h : altpick base s n rand = none) :
    ∀ i < n, altcanexec s ⟨base, i⟩ = false := by
  unfold altpick at h
  split at h
  · rename_i hn
    obtain ⟨k, _, hs, _⟩ := altselect_spec (Nat.mod_lt rand (Nat.pos_of_ne_zero hn))
    cases hs.symm.trans h
  · rename_i hn
    intro i hi
    simpa using List.countP_eq_zero.mp (not_not.mp hn) i (List.mem_range.mpr hi)

theorem altcanexec_eq {p : AltPtr} {x : Alt} (hx : s.alt? p = some x) (hop : x.op.queued) :
    altcanexec s p = true ↔
      if (s.chan x.c).bufsize = 0 then (s.chan x.c).arr (otherop x.op) ≠ []
      else (x.op = .CHANSND → (s.chan x.c).nbuf < (s.chan x.c).bufsize) ∧
        (x.op = .CHANRCV → 0 < (s.chan x.c).nbuf) := by
  have hn : x.op ≠ .CHANNOP := by rcases hop with h | h <;> simp [h]
  simp only [altcanexec, hx, hn, if_false, chanarray_eq hop.otherop]
  split
  · simp
  · rcases hop with h | h <;> simp [h]

end Chanalt
end Libtask
