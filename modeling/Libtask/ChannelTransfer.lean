import Libtask.ChannelFrame

/-! The elements that channel.c moves: which bytes a transfer logs, which memory it writes, and
with whom a branch is executed. -/
namespace Libtask
open Function Runs

variable {σ : Type}

/-- The addresses of the `n` bytes at `v`, none if `v` is nil. -/
def bytesAt (v : Option ℕ) (n : ℕ) : Set ℕ := { x | ∃ a, v = some a ∧ a ≤ x ∧ x < a + n }

/-- None of the `n` bytes at `v` is in `L`. -/
def ClearOf (L : Set ℕ) (v : Option ℕ) (n : ℕ) : Prop := ∀ x ∈ bytesAt v n, x ∉ L

theorem amove_out {dst : Option ℕ} {bytes : List UInt8} {mem : ℕ → UInt8} {x : ℕ}
    (h : x ∉ bytesAt dst bytes.length) : amove dst bytes mem x = mem x := by
  cases dst with
  | none => rfl
  | some a => exact if_neg fun hx => h ⟨a, rfl, hx⟩

theorem amoveSource_congr {v : Option ℕ} {n : ℕ} {mem mem' : ℕ → UInt8}
    (h : ∀ x ∈ bytesAt v n, mem' x = mem x) : amoveSource mem' v n = amoveSource mem v n := by
  cases v with
  | none => rfl
  | some a =>
    refine List.map_congr_left fun i hi => h _ ⟨a, rfl, by omega, ?_⟩
    have := List.mem_range.mp hi
    omega

theorem length_readBytes (buf : ℕ → UInt8) (a n : ℕ) : (readBytes buf a n).length = n := by
  simp [readBytes]

/-- From `s` to `s'` channel `c` logged `evs`, and what is not of channels was left alone but for
the memory in `W`. -/
structure Transfer (c : ℕ) (evs : List ChanEvent) (W : Set ℕ) (s s' : Sys σ) : Prop where
  eq : s' = { s with chan := s'.chan, mem := s'.mem, log := evs.map (.chan c) ++ s.log }
  mem : ∀ x ∉ W, s'.mem x = s.mem x
  bufsize : ∀ c', (s'.chan c').bufsize = (s.chan c').bufsize
  elemsize : ∀ c', (s'.chan c').elemsize = (s.chan c').elemsize

section
variable {s s' s'' : Sys σ} {c : ℕ} {p q b r : AltPtr} {x y z : Alt} {evs evs' : List ChanEvent}
  {W : Set ℕ}

theorem Transfer.trans (h : Transfer c evs W s s') (h' : Transfer c evs' W s' s'') :
    Transfer c (evs' ++ evs) W s s'' where
  eq := by
    rw [h'.eq, h.eq]
    simp
  mem x hx := (h'.mem x hx).trans (h.mem x hx)
  bufsize c' := (h'.bufsize c').trans (h.bufsize c')
  elemsize c' := (h'.elemsize c').trans (h.elemsize c')

theorem Transfer.of_chan {w : Channel}
    (heq : s' = { s with chan := s'.chan, mem := s'.mem, log := evs.map (.chan c) ++ s.log })
    (hmem : ∀ x ∉ W, s'.mem x = s.mem x) (hchan : s'.chan = update s.chan c w)
    (hb : w.bufsize = (s.chan c).bufsize) (he : w.elemsize = (s.chan c).elemsize) :
    Transfer c evs W s s' := by
  refine ⟨heq, hmem, fun c' => ?_, fun c' => ?_⟩ <;> rw [hchan] <;> by_cases hc : c' = c
  · rw [hc, update_self, hb]
  · rw [update_of_ne hc]
  · rw [hc, update_self, he]
  · rw [update_of_ne hc]

theorem altcopyRecv_transfer : Transfer c [.rcvd q (s.chan c).front]
    (bytesAt z.v (s.chan c).elemsize) s (altcopyRecv c q z s) := by
  refine .of_chan rfl (fun x hx => amove_out ?_) rfl rfl rfl
  rwa [length_readBytes]

theorem altcopySend_eq (h0 : (s.chan c).bufsize ≠ 0) : altcopySend c b y s =
    .ok ((s.setChan c ((s.chan c).filled (amoveSource s.mem y.v (s.chan c).elemsize))).emit
      (.chan c (.sent b (amoveSource s.mem y.v (s.chan c).elemsize)))) := by
  simp only [altcopySend, h0, if_false]
  rfl

theorem altcopySend_transfer (h : altcopySend c b y s = .ok s') :
    Transfer c [.sent b (amoveSource s.mem y.v (s.chan c).elemsize)] ∅ s s' := by
  by_cases h0 : (s.chan c).bufsize = 0
  · rw [altcopySend, if_pos h0] at h
    cases h
  · rw [altcopySend_eq h0] at h
    cases h
    exact .of_chan rfl (fun _ _ => rfl) rfl rfl rfl

theorem altcopyDirect_transfer :
    Transfer c [.rcvd r (amoveSource s.mem y.v (s.chan c).elemsize),
        .sent b (amoveSource s.mem y.v (s.chan c).elemsize)]
      (bytesAt z.v (s.chan c).elemsize) s (altcopyDirect c b y r z s) := by
  refine ⟨rfl, fun x hx => amove_out ?_, fun _ => rfl, fun _ => rfl⟩
  rwa [length_amoveSource]

theorem Transfer.mono {W' : Set ℕ} (h : Transfer c evs W s s') (hW : W ⊆ W') :
    Transfer c evs W' s s' :=
  ⟨h.eq, fun x hx => h.mem x fun hw => hx (hW hw), h.bufsize, h.elemsize⟩

theorem altcopy_send (hx : s.alt? p = some x) (ho : x.op = .CHANSND) :
    altcopy (some p) none s = altcopySend x.c p x s := by
  simp [altcopy, deref_eq hx, ho, bind, Except.bind]

theorem altcopy_recv (hx : s.alt? p = some x) (ho : x.op = .CHANRCV) :
    altcopy (some p) none s = .ok (altcopyRecv x.c p x s) := by
  simp [altcopy, deref_eq hx, ho, bind, Except.bind, pure, Except.pure]

theorem altcopy_send_transfer (hx : s.alt? p = some x) (ho : x.op = .CHANSND)
    (h : altcopy (some p) none s = .ok s') :
    Transfer x.c [.sent p (amoveSource s.mem x.v (s.chan x.c).elemsize)] ∅ s s' := by
  rw [altcopy_send hx ho] at h
  exact altcopySend_transfer h

theorem altcopy_recv_transfer (hx : s.alt? p = some x) (ho : x.op = .CHANRCV)
    (h : altcopy (some p) none s = .ok s') :
    Transfer x.c [.rcvd p (s.chan x.c).front] (bytesAt x.v (s.chan x.c).elemsize) s s' := by
  obtain rfl : altcopyRecv x.c p x s = s' := Except.ok.inj ((altcopy_recv hx ho).symm.trans h)
  exact altcopyRecv_transfer

/-- The sender `b` and the receiver `r` of a transfer with a partner. -/
theorem altcopy_pair (hb : s.alt? b = some y) (hr : s.alt? r = some z) (hy : y.op = .CHANSND)
    (hz : z.op = .CHANRCV) (hyc : y.c = c) (hzc : z.c = c) (hpq : p = b ∧ q = r ∨ p = r ∧ q = b) :
    altcopy (some p) (some q) s = if (s.chan c).nbuf = 0 then .ok (altcopyDirect c b y r z s)
      else altcopySend c b y (altcopyRecv c r z s) := by
  rcases hpq with ⟨rfl, rfl⟩ | ⟨rfl, rfl⟩ <;>
    simp [altcopy, deref_eq hb, deref_eq hr, hy, hz, hyc, hzc, bind, Except.bind, pure, Except.pure]

theorem altcopy_pair_transfer (hb : s.alt? b = some y) (hr : s.alt? r = some z)
    (hy : y.op = .CHANSND) (hz : z.op = .CHANRCV) (hyc : y.c = c) (hzc : z.c = c)
    (hpq : p = b ∧ q = r ∨ p = r ∧ q = b)
    (happ : ClearOf (bytesAt z.v (s.chan c).elemsize) y.v (s.chan c).elemsize)
    (h : altcopy (some p) (some q) s = .ok s') :
    Transfer c (if (s.chan c).nbuf = 0 then
        [.rcvd r (amoveSource s.mem y.v (s.chan c).elemsize),
          .sent b (amoveSource s.mem y.v (s.chan c).elemsize)]
      else [.sent b (amoveSource s.mem y.v (s.chan c).elemsize), .rcvd r (s.chan c).front])
      (bytesAt z.v (s.chan c).elemsize) s s' := by
  rw [altcopy_pair hb hr hy hz hyc hzc hpq] at h
  split at h
  · cases h
    rename_i h0
    rw [if_pos h0]
    exact altcopyDirect_transfer
  · rename_i h0
    rw [if_neg h0]
    have hrecv : Transfer c [.rcvd r (s.chan c).front] (bytesAt z.v (s.chan c).elemsize) s
        (altcopyRecv c r z s) := altcopyRecv_transfer
    have hsend := (altcopySend_transfer h).mono (Set.empty_subset (bytesAt z.v (s.chan c).elemsize))
    -- the element received does not overwrite the one that is still to be sent
    rw [hrecv.elemsize, amoveSource_congr fun x hx => hrecv.mem x (happ x hx)]
      at hsend
    exact hrecv.trans hsend

theorem elemsize_of_ring {x y : Channel} (h : y.ring = x.ring) : y.elemsize = x.elemsize := by
  simpa [Channel.ring] using congrArg Channel.elemsize h

/-- Only queues change when alts are taken off them. -/
structure OnlyQueues (s s' : Sys σ) : Prop where
  eq : s' = { s with chan := s'.chan }
  ring : ∀ c, (s'.chan c).ring = (s.chan c).ring

theorem OnlyQueues.trans (h : OnlyQueues s s') (h' : OnlyQueues s' s'') : OnlyQueues s s'' where
  eq := by
    rw [h'.eq, h.eq]
  ring c := (h'.ring c).trans (h.ring c)

theorem altdequeue_onlyQueues (h : altdequeue p s = .ok s') : OnlyQueues s s' := by
  unfold altdequeue at h
  obtain ⟨a, _, h⟩ := bind_ok h
  split at h
  · cases h
  · split at h
    · cases h
      exact ⟨rfl, fun c => ring_setChan c⟩
    · cases h

theorem altalldequeueFrom_onlyQueues {as : List Alt} (h : altalldequeueFrom p as s = .ok s') :
    OnlyQueues s s' := by
  induction as generalizing s p with
  | nil => cases h
  | cons a as ih =>
    by_cases ha : isAltend a.op = true
    · rw [altalldequeueFrom, if_pos ha] at h
      cases h
      exact ⟨rfl, fun _ => rfl⟩
    · rw [altalldequeueFrom_cons (by simpa using ha)] at h
      obtain ⟨s₁, hs₁, h⟩ := bind_ok h
      have hfirst : OnlyQueues s s₁ := by
        split at hs₁
        · exact altdequeue_onlyQueues hs₁
        · cases hs₁
          exact ⟨rfl, fun _ => rfl⟩
      exact hfirst.trans (ih h)

/-- What `altcopy` keeps of a channel. -/
def Channel.shape (x : Channel) : ℕ × List AltPtr × List AltPtr := (x.elemsize, x.asend, x.arecv)

theorem shape_update {w : Channel} (hchan : s'.chan = update s.chan c w)
    (he : w.elemsize = (s.chan c).elemsize) (hs : w.asend = (s.chan c).asend)
    (hr : w.arecv = (s.chan c).arecv) (c' : ℕ) : (s'.chan c').shape = (s.chan c').shape := by
  rw [hchan]
  by_cases hc : c' = c
  · rw [hc, update_self, Channel.shape, he, hs, hr, Channel.shape]
  · rw [update_of_ne hc]

theorem altcopyRecv_shape (c' : ℕ) :
    ((altcopyRecv c r z s).chan c').shape = (s.chan c').shape := by
  have hchan : (altcopyRecv c r z s).chan = update s.chan c _ := rfl
  exact shape_update hchan rfl rfl rfl c'

theorem altcopySend_shape (h : altcopySend c b y s = .ok s') (c' : ℕ) :
    (s'.chan c').shape = (s.chan c').shape := by
  by_cases h0 : (s.chan c).bufsize = 0
  · rw [altcopySend, if_pos h0] at h
    cases h
  · rw [altcopySend_eq h0] at h
    have hchan := congrArg Sys.chan (Except.ok.inj h)
    exact shape_update hchan.symm rfl rfl rfl c'

theorem Copies.shape (h : Copies s s') (c : ℕ) : (s'.chan c).shape = (s.chan c).shape := by
  cases h with
  | nothing | direct => rfl
  | recv => exact altcopyRecv_shape c
  | send _ _ _ h => exact altcopySend_shape h c
  | both _ _ _ _ _ h => exact (altcopySend_shape h c).trans (altcopyRecv_shape c)

theorem Copies.eq (h : Copies s s') :
    s' = { s with chan := s'.chan, mem := s'.mem, log := s'.log } := by
  have hsend : ∀ {s s' : Sys σ} {c' : ℕ} {p : AltPtr} {snd : Alt}, altcopySend c' p snd s = .ok s' →
      s' = { s with chan := s'.chan, mem := s'.mem, log := s'.log } := by
    intro s s' c' p snd h
    unfold altcopySend at h
    simp only at h
    split at h
    · cases h
    · cases h
      rfl
  cases h with
  | nothing | direct | recv => rfl
  | send _ _ _ h => exact hsend h
  | both _ _ _ _ _ h =>
    rw [hsend h]
    rfl

/-- Taking an alt off its queue leaves the others there. -/
theorem altdequeue_keeps (h : altdequeue p s = .ok s') {c : ℕ} {op : Op}
    (hq : q ∈ (s.chan c).arr op)
    (hne : q ≠ p) : q ∈ (s'.chan c).arr op := by
  unfold altdequeue at h
  obtain ⟨a, _, h⟩ := bind_ok h
  split at h
  · cases h
  · rename_i ar har
    split at h
    · rename_i i hi
      cases h
      obtain ⟨hlt, hip, _⟩ := List.idxOf?_eq_some_iff.mp hi
      have hop : a.op.queued := by
        cases hop : a.op with
        | CHANSND => exact .inl rfl
        | CHANRCV => exact .inr rfl
        | CHANEND | CHANNOP | CHANNOBLK =>
          rw [hop] at har
          cases har
      by_cases hc : c = a.c
      · subst hc
        simp only [Sys.setChan, update_self, arr_setChanarray hop]
        split
        · rename_i ho
          subst ho
          rw [chanarray_eq hop] at har
          rw [Option.some.inj har, ← (delarray_perm hlt).mem_iff, List.mem_cons, hip] at hq
          exact hq.resolve_left hne
        · exact hq
      · simpa [Sys.setChan, hc] using hq
    · cases h

theorem altalldequeueFrom_keeps {as : List Alt} (h : altalldequeueFrom p as s = .ok s') {c : ℕ}
    {op : Op} (hq : q ∈ (s.chan c).arr op) (hne : q.base ≠ p.base) : q ∈ (s'.chan c).arr op := by
  induction as generalizing s p with
  | nil => cases h
  | cons a as ih =>
    by_cases ha : isAltend a.op = true
    · rw [altalldequeueFrom, if_pos ha] at h
      cases h
      exact hq
    · rw [altalldequeueFrom_cons (by simpa using ha)] at h
      obtain ⟨s₁, hs₁, h⟩ := bind_ok h
      refine ih h ?_ hne
      split at hs₁
      · refine altdequeue_keeps hs₁ hq ?_
        rintro rfl
        exact hne rfl
      · cases hs₁
        exact hq

/-- A branch is executed alone, or with a branch of the other queue. -/
theorem altexecMatch_cases {rand : ℕ} {o : Option TaskPtr} (hx : s.alt? p = some x)
    (hop : x.op.queued) (h : altexecMatch p rand s = .ok (s', o)) :
    ((s.chan x.c).arr (otherop x.op) = [] ∧ altcopy (some p) none s = .ok s' ∧ o = none) ∨
      ∃ q ∈ (s.chan x.c).arr (otherop x.op), ∃ s₁ s₂ y, altcopy (some p) (some q) s = .ok s₁ ∧
        s.alt? q = some y ∧ OnlyQueues s₁ s₂ ∧ s' = s₂.setXalt y.xalt q ∧ o = some y.task := by
  rw [altexecMatch_eq hx] at h
  obtain ⟨s₁, hcopy, hcommit⟩ := bind_ok h
  cases hq : altpartner p rand s with
  | none =>
    rw [hq] at hcopy hcommit
    cases hcommit
    exact .inl ⟨(altpartner_eq_none hx hop).mp hq, hcopy, rfl⟩
  | some q =>
    rw [hq] at hcopy hcommit
    obtain ⟨y, hy, h⟩ := bind_ok hcommit
    obtain ⟨s₂, hdeq, h⟩ := bind_ok h
    cases h
    refine .inr ⟨q, mem_of_altpartner hx hq, s₁, s₂, y, hcopy, ?_,
      altalldequeueFrom_onlyQueues hdeq, rfl, rfl⟩
    rw [← alt?_of_deref hy, Sys.alt?, Sys.alt?, altcopy_alts hcopy]

end
end Libtask
