import Libtask.Properties.AltMemory
import Libtask.Properties.Storage

/-! Channels carry elements: in the order in which they were sent, and from where their senders
name to where their receivers name. -/
namespace Libtask
open Function Runs Relation

/-- `bytes` are the `n` bytes at `v` in the memory `mem`, or zeros if `v` is nil. -/
def ElementAt (mem : ℕ → UInt8) (v : Option ℕ) (n : ℕ) (bytes : List UInt8) : Prop :=
  bytes.length = n ∧ ∀ i < n, bytes[i]? = some (v.elim 0 fun a => mem (a + i))

theorem elementAt_amoveSource (mem : ℕ → UInt8) (v : Option ℕ) (n : ℕ) :
    ElementAt mem v n (amoveSource mem v n) := by
  refine ⟨length_amoveSource mem v n, fun i hi => ?_⟩
  cases v with
  | none => simp [amoveSource, hi]
  | some a => simp [amoveSource, readBytes, hi]

theorem elementAt_amove {mem : ℕ → UInt8} {v : Option ℕ} {a n : ℕ} {bytes : List UInt8}
    (hn : bytes.length = n) (hv : v = some a) :
    ElementAt (amove v bytes mem) (some a) n bytes := by
  refine ⟨hn, fun i hi => ?_⟩
  rw [hv, Option.elim_some, amove, writeBytes_in (hn ▸ hi), List.getElem?_eq_getElem (hn ▸ hi)]

section Copy
variable {σ : Type} {s s' : Sys σ} {c : ℕ} {p q b r : AltPtr} {x y z : Alt}
  {evs : List ChanEvent}

/-- From `s` to `s'` channel `c` logged `evs` for the branch `p` and alts of its queues: what was
sent is what the sender's memory held, what was received is in the receiver's memory, and that is
the only memory that changed. A receiver is served from the buffer before a sender is. -/
structure Carries (c : ℕ) (p : AltPtr) (evs : List ChanEvent) (s s' : Sys σ) : Prop where
  log : s'.log = evs.map (.chan c) ++ s.log
  sent : ∀ q bytes, .sent q bytes ∈ evs → (q = p ∨ q ∈ (s.chan c).asend) ∧
    ∃ x, s.alt? q = some x ∧ x.c = c ∧ x.op = .CHANSND ∧
      ElementAt (if (s.chan c).nbuf = 0 then s.mem else s'.mem) x.v (s.chan c).elemsize bytes
  rcvd : ∀ q bytes, .rcvd q bytes ∈ evs → (q = p ∨ q ∈ (s.chan c).arecv) ∧
    ∃ x, s.alt? q = some x ∧ x.c = c ∧ x.op = .CHANRCV ∧ bytes.length = (s.chan c).elemsize ∧
      ∀ a, x.v = some a → ElementAt s'.mem (some a) (s.chan c).elemsize bytes
  rest : ∀ z, (∀ q bytes, .rcvd q bytes ∈ evs → ∀ x, s.alt? q = some x →
    z ∉ bytesAt x.v (s.chan c).elemsize) → s'.mem z = s.mem z

theorem Carries.congr {s'' : Sys σ} (h : Carries c p evs s s') (hmem : s''.mem = s'.mem)
    (hlog : s''.log = s'.log) : Carries c p evs s s'' where
  log := hlog.trans h.log
  sent := by
    rw [hmem]
    exact h.sent
  rcvd := by
    rw [hmem]
    exact h.rcvd
  rest := by
    rw [hmem]
    exact h.rest

theorem carries_send (hx : s.alt? p = some x) (ho : x.op = .CHANSND)
    (h : altcopy (some p) none s = .ok s') :
    Carries x.c p [.sent p (amoveSource s.mem x.v (s.chan x.c).elemsize)] s s' := by
  have ht := altcopy_send_transfer hx ho h
  have hmem : s'.mem = s.mem := funext fun z => ht.mem z (by simp)
  constructor
  case log =>
    rw [ht.eq]
  case sent =>
    rintro q bytes hq
    obtain ⟨rfl, rfl⟩ := ChanEvent.sent.inj (List.mem_singleton.mp hq)
    rw [hmem, ite_self]
    exact ⟨.inl rfl, x, hx, rfl, ho, elementAt_amoveSource _ _ _⟩
  case rcvd =>
    intro q bytes hq
    simp at hq
  case rest => exact fun z _ => congrFun hmem z

theorem carries_recv (hx : s.alt? p = some x) (ho : x.op = .CHANRCV) :
    Carries x.c p [.rcvd p (s.chan x.c).front] s (altcopyRecv x.c p x s) := by
  constructor
  case log => exact altcopyRecv_reads
  case sent =>
    intro q bytes hq
    simp at hq
  case rcvd =>
    rintro q bytes hq
    obtain ⟨rfl, rfl⟩ := ChanEvent.rcvd.inj (List.mem_singleton.mp hq)
    have hlen : (s.chan x.c).front.length = (s.chan x.c).elemsize := length_readBytes _ _ _
    exact ⟨.inl rfl, x, hx, rfl, ho, hlen, fun a ha => elementAt_amove hlen ha⟩
  case rest =>
    intro z hz
    exact altcopyRecv_transfer.mem z (hz p _ (List.mem_singleton_self _) x hx)

/-- Straight from a sender to a receiver, `p` being one of them. -/
theorem carries_direct (hb : s.alt? b = some y) (hr : s.alt? r = some z) (hy : y.op = .CHANSND)
    (hz : z.op = .CHANRCV) (hyc : y.c = c) (hzc : z.c = c)
    (hbq : b = p ∨ b ∈ (s.chan c).asend) (hrq : r = p ∨ r ∈ (s.chan c).arecv)
    (h0 : (s.chan c).nbuf = 0) :
    Carries c p [.rcvd r (amoveSource s.mem y.v (s.chan c).elemsize),
      .sent b (amoveSource s.mem y.v (s.chan c).elemsize)] s (altcopyDirect c b y r z s) := by
  have hlen := length_amoveSource s.mem y.v (s.chan c).elemsize
  constructor
  case log => rfl
  case sent =>
    rintro q bytes hq
    simp only [List.mem_cons, reduceCtorEq, false_or, List.not_mem_nil, or_false] at hq
    obtain ⟨rfl, rfl⟩ := ChanEvent.sent.inj hq
    rw [if_pos h0]
    exact ⟨hbq, y, hb, hyc, hy, elementAt_amoveSource _ _ _⟩
  case rcvd =>
    rintro q bytes hq
    simp only [List.mem_cons, reduceCtorEq, or_false, List.not_mem_nil] at hq
    obtain ⟨rfl, rfl⟩ := ChanEvent.rcvd.inj hq
    exact ⟨hrq, z, hr, hzc, hz, hlen, fun a ha => elementAt_amove hlen ha⟩
  case rest =>
    intro w hw
    exact (altcopyDirect_transfer (b := b) (r := r) (y := y)).mem w (hw r _ List.mem_cons_self z hr)

/-- Through a full buffer: the receiver takes an element out, then the sender puts its own in. -/
theorem carries_refill (hb : s.alt? b = some y) (hr : s.alt? r = some z) (hy : y.op = .CHANSND)
    (hz : z.op = .CHANRCV) (hyc : y.c = c) (hzc : z.c = c)
    (hbq : b = p ∨ b ∈ (s.chan c).asend) (hrq : r = p ∨ r ∈ (s.chan c).arecv)
    (h0 : (s.chan c).nbuf ≠ 0) (h : altcopySend c b y (altcopyRecv c r z s) = .ok s') :
    ∃ evs, Carries c p evs s s' := by
  have ht := altcopySend_transfer h
  have hmem : s'.mem = (altcopyRecv c r z s).mem := funext fun w => ht.mem w (by simp)
  have hsize : ((altcopyRecv c r z s).chan c).elemsize = (s.chan c).elemsize :=
    altcopyRecv_transfer.elemsize c
  have hlen : (s.chan c).front.length = (s.chan c).elemsize := length_readBytes _ _ _
  rw [hsize] at ht
  refine ⟨[.sent b (amoveSource (altcopyRecv c r z s).mem y.v (s.chan c).elemsize),
    .rcvd r (s.chan c).front], ?_⟩
  constructor
  case log =>
    rw [ht.eq]
    rfl
  case sent =>
    rintro q bytes hq
    simp only [List.mem_cons, reduceCtorEq, or_false, List.not_mem_nil] at hq
    obtain ⟨rfl, rfl⟩ := ChanEvent.sent.inj hq
    rw [if_neg h0, hmem]
    exact ⟨hbq, y, hb, hyc, hy, elementAt_amoveSource _ _ _⟩
  case rcvd =>
    rintro q bytes hq
    simp only [List.mem_cons, reduceCtorEq, false_or, List.not_mem_nil, or_false] at hq
    obtain ⟨rfl, rfl⟩ := ChanEvent.rcvd.inj hq
    rw [hmem]
    exact ⟨hrq, z, hr, hzc, hz, hlen, fun a ha => elementAt_amove hlen ha⟩
  case rest =>
    intro w hw
    rw [hmem]
    exact altcopyRecv_transfer.mem w (hw r _ (List.mem_cons_of_mem _ List.mem_cons_self) z hr)

theorem Executes.carries (h : Executes s p x) {rand : ℕ} {o : Option TaskPtr}
    (hr : altexecMatch p rand s = .ok (s', o)) : ∃ evs, Carries x.c p evs s s' := by
  rcases altexecMatch_cases h.branch h.queued hr with
    ⟨_, hcopy, _⟩ | ⟨q, hq, s₁, s₂, y, hcopy, hy, honly, rfl, _⟩
  · rcases h.queued with ho | ho
    · exact ⟨_, carries_send h.branch ho hcopy⟩
    · rw [altcopy_recv h.branch ho] at hcopy
      exact ⟨_, Except.ok.inj hcopy ▸ carries_recv h.branch ho⟩
  · have hkeep : (s₂.setXalt y.xalt q).mem = s₁.mem ∧ (s₂.setXalt y.xalt q).log = s₁.log := by
      rw [honly.eq]
      exact ⟨rfl, rfl⟩
    obtain ⟨y', hy', hyc, hyo⟩ := h.others q hq
    cases hy.symm.trans hy'
    suffices hcarries : ∃ evs, Carries x.c p evs s s₁ by
      obtain ⟨evs, hcarries⟩ := hcarries
      exact ⟨evs, hcarries.congr hkeep.1 hkeep.2⟩
    rcases h.queued with ho | ho
    · rw [ho] at hyo hq
      rw [altcopy_pair h.branch hy ho hyo rfl hyc (.inl ⟨rfl, rfl⟩)] at hcopy
      split at hcopy
      · rename_i h0
        exact ⟨_, Except.ok.inj hcopy ▸
          carries_direct h.branch hy ho hyo rfl hyc (.inl rfl) (.inr hq) h0⟩
      · rename_i h0
        exact carries_refill h.branch hy ho hyo rfl hyc (.inl rfl) (.inr hq) h0 hcopy
    · rw [ho] at hyo hq
      rw [altcopy_pair hy h.branch hyo ho hyc rfl (.inr ⟨rfl, rfl⟩)] at hcopy
      split at hcopy
      · rename_i h0
        exact ⟨_, Except.ok.inj hcopy ▸
          carries_direct hy h.branch hyo ho hyc rfl (.inr hq) (.inl rfl) h0⟩
      · rename_i h0
        exact carries_refill hy h.branch hyo ho hyc rfl (.inr hq) (.inl rfl) h0 hcopy

end Copy

/-- From `s` to `s'`, by a call that passes the array `as` at `base`, the log grew by `new`: what a
channel took from a sender is what memory held where the sender's alt says, what it handed to a
receiver is in memory where the receiver's alt says, and no other memory changed. -/
structure Carried (base : ℕ) (as : List Alt) (s s' : Sys Links) (new : List Event) : Prop where
  log : s'.log = new ++ s.log
  sent : ∀ c q bytes, .chan c (.sent q bytes) ∈ new → (q.base = base ∨ q ∈ (s.chan c).asend) ∧
    ∃ x, (update s.alts base as q.base)[q.idx]? = some x ∧ x.c = c ∧ x.op = .CHANSND ∧
      ElementAt (if (s.chan c).nbuf = 0 then s.mem else s'.mem) x.v (s.chan c).elemsize bytes
  rcvd : ∀ c q bytes, .chan c (.rcvd q bytes) ∈ new → (q.base = base ∨ q ∈ (s.chan c).arecv) ∧
    ∃ x, (update s.alts base as q.base)[q.idx]? = some x ∧ x.c = c ∧ x.op = .CHANRCV ∧
      bytes.length = (s.chan c).elemsize ∧
      ∀ a, x.v = some a → ElementAt s'.mem (some a) (s.chan c).elemsize bytes
  rest : ∀ z, (∀ c q bytes, .chan c (.rcvd q bytes) ∈ new → ∀ x,
    (update s.alts base as q.base)[q.idx]? = some x → z ∉ bytesAt x.v (s.chan c).elemsize) →
    s'.mem z = s.mem z

section Step
variable {s s' : Sys Links} {t : TaskPtr} {base : ℕ} {as : List Alt} {e : Env} {q : AltPtr}
  {x : Alt} {c : ℕ}

/-- Stamping leaves of an alt what the caller has put there. -/
theorem alt?_given (hx : (s.altenter base as t).alt? q = some x) :
    ∃ y, (update s.alts base as q.base)[q.idx]? = some y ∧ y.c = x.c ∧ y.op = x.op ∧ y.v = x.v := by
  by_cases hq : q.base = base
  · have halts : (s.altenter base as t).alts base = stamped base t as := by
      simp
    rw [Sys.alt?, hq, halts, getElem?_stamped] at hx
    rw [hq, update_self]
    split at hx
    · obtain ⟨y, hy, rfl⟩ := Option.map_eq_some_iff.mp hx
      exact ⟨y, hy, rfl, rfl, rfl⟩
    · exact ⟨x, hx, rfl, rfl, rfl⟩
  · rw [alt?_altenter hq] at hx
    rw [update_of_ne hq]
    exact ⟨x, hx, rfl, rfl, rfl⟩

/-- A call that executes a branch carries what `altexec` does. -/
theorem Carries.carried {evs : List ChanEvent} {i : ℕ} {b : Sys Links} {late : List Event}
    (h : Carries c ⟨base, i⟩ evs (s.altenter base as t) b) (hmem : s'.mem = b.mem)
    (hlog : s'.log = late ++ b.log) (hlate : ∀ c ev, .chan c ev ∉ late) :
    Carried base as s s' (late ++ evs.map (.chan c) ++ [.altcall t base]) := by
  have hevs : ∀ {c' : ℕ} {ev : ChanEvent},
      .chan c' ev ∈ late ++ evs.map (.chan c) ++ [.altcall t base] → c' = c ∧ ev ∈ evs := by
    intro c' ev hev
    simp only [List.mem_append, List.mem_map, List.mem_singleton, reduceCtorEq, or_false] at hev
    rcases hev with hev | ⟨ev', hev', heq⟩
    · exact absurd hev (hlate c' ev)
    · cases heq
      exact ⟨rfl, hev'⟩
  have hbase : ∀ {q : AltPtr} {qs : List AltPtr}, q = ⟨base, i⟩ ∨ q ∈ qs → q.base = base ∨ q ∈ qs :=
    fun hq => hq.imp_left fun hp => by rw [hp]
  constructor
  case log =>
    have hent : (s.altenter base as t).log = .altcall t base :: s.log := rfl
    rw [hlog, h.log, hent]
    simp
  case sent =>
    intro c' q bytes hq
    obtain ⟨rfl, hin⟩ := hevs hq
    obtain ⟨hmemq, x, hx, hxc, hxo, hel⟩ := h.sent q bytes hin
    obtain ⟨y, hy, hyc, hyo, hyv⟩ := alt?_given hx
    rw [← hmem, ← hyv] at hel
    exact ⟨hbase hmemq, y, hy, hyc.trans hxc, hyo.trans hxo, hel⟩
  case rcvd =>
    intro c' q bytes hq
    obtain ⟨rfl, hin⟩ := hevs hq
    obtain ⟨hmemq, x, hx, hxc, hxo, hlen, hel⟩ := h.rcvd q bytes hin
    obtain ⟨y, hy, hyc, hyo, hyv⟩ := alt?_given hx
    rw [← hmem, ← hyv] at hel
    exact ⟨hbase hmemq, y, hy, hyc.trans hxc, hyo.trans hxo, hlen, hel⟩
  case rest =>
    intro z hz
    rw [hmem]
    refine h.rest z fun q bytes hq x hx => ?_
    obtain ⟨y, hy, _, _, hyv⟩ := alt?_given hx
    rw [← hyv]
    exact hz c q bytes (by simp [hq]) y hy

/-- A call that executes no branch touches neither channels' elements nor memory. -/
theorem carried_nothing {new : List Event} (hlog : s'.log = new ++ s.log) (hmem : s'.mem = s.mem)
    (hnew : ∀ c ev, .chan c ev ∉ new) : Carried base as s s' new where
  log := hlog
  sent c _ _ hq := absurd hq (hnew c _)
  rcvd c _ _ hq := absurd hq (hnew c _)
  rest z _ := congrFun hmem z

theorem Reachable.carried (h : Reachable s)
    (hs : step (e, .call (.chanalt base as)) s = some s') : ∃ new, Carried base as s s' new := by
  obtain ⟨hact, _⟩ | ⟨_, hact, _⟩ | ⟨c, t, hact, ht, hc, hadm, hs'⟩ := step_cases hs
  · cases hact
  · cases hact
  · cases hact
    cases hi : altpick base (s.altenter base as t) (altlen as) e.rand₁ with
    | some i =>
      obtain ⟨y, _, hex⟩ := h.executes hadm.2 hi
      obtain ⟨s₁, hok, _⟩ := h.altrun hc ht hadm.2 hi
      rw [call_chanalt_some hi] at hok
      obtain ⟨s₂, hexec, _⟩ := map_ok hok
      obtain ⟨⟨b, o⟩, hmatch, _⟩ := bind_ok hexec
      obtain ⟨evs, hcarries⟩ := hex.carries hmatch
      rw [call_chanalt_some hi, altexec_eq hmatch] at hs'
      have hlate : s'.mem = b.mem ∧
          s'.log = (.ret t i :: .altret t base i :: (o.map Event.ready).toList) ++ b.log := by
        rw [hs']
        cases o <;> exact ⟨rfl, rfl⟩
      refine ⟨_, hcarries.carried hlate.1 hlate.2 fun c ev hev => ?_⟩
      cases o <;> simp at hev
    | none =>
      rw [call_chanalt_none hi] at hs'
      obtain ⟨a, pl, _, hI, hsim⟩ := h.sim
      split at hs'
      · have hent := hsim.altenter base as t
        have hpick := (hsim.altpick_altenter base as t (altlen as) e.rand₁).trans hi
        have hu : a.User t := by
          obtain ⟨l, _, rfl⟩ := hsim
          exact ⟨ht, hc⟩
        have hbase : Inv.Unused a base := by
          obtain ⟨l, _, rfl⟩ := hsim
          exact hadm.2.2
        obtain ⟨b, hok, hinv⟩ := hI.altwait hu hadm.2.1 hbase hpick
        have hex := hinv.not_exiting (update_self ..)
        rw [Sys.switch_exiting] at hex
        obtain ⟨s₁, hok', hs₁⟩ := hent.altqueueAll hok
        obtain ⟨l, _, hl⟩ := hs₁.taskswitch (.chanalt base) hex
        rw [altqueueAll_altenter hok] at hl
        rw [hok'] at hs'
        refine ⟨[.altcall t base], carried_nothing ?_ ?_ (by simp)⟩
        · rw [hs', ← hsim.log]
          exact (congrArg Sys.log hl).symm
        · rw [hs']
          refine (congrArg Sys.mem hl).symm.trans ?_
          obtain ⟨l, _, rfl⟩ := hsim
          rfl
      · refine ⟨[.ret t (-1), .altret t base (-1), .altcall t base],
          carried_nothing ?_ ?_ (by simp)⟩
        · rw [hs']
          rfl
        · rw [hs']
          rfl

/-- Only `chanalt` moves elements. -/
theorem no_elements {act : Action} (hs : step (e, act) s = some s')
    (hact : ∀ base as, act ≠ .call (.chanalt base as)) :
    ∃ new, s'.log = new ++ s.log ∧ ∀ c ev, .chan c ev ∉ new := by
  rcases step_silent hs with ⟨new, hlog, hnew⟩ | ⟨t, base, as, rfl, _⟩ | ⟨t, base, _, _, _, hs'⟩
  · refine ⟨new, hlog, fun c ev hev => ?_⟩
    cases hnew _ hev
  · exact absurd rfl (hact base as)
  · obtain ⟨new, hlog, hnew⟩ : ∃ new, s'.log = new ++ s.log ∧ ∀ d ∈ new, d.isReturn = true := by
      rw [hs']
      cases hback : chanaltBack base t s with
      | error v => exact ⟨[], rfl, by simp⟩
      | ok r =>
        unfold chanaltBack at hback
        obtain ⟨y, _, hback⟩ := bind_ok hback
        split at hback
        · cases hback
        · cases hback
          exact ⟨[_, _], rfl, by simp [Event.isReturn]⟩
    refine ⟨new, hlog, fun c ev hev => ?_⟩
    cases hnew _ hev

/-- Every element in the log was carried there by a step of the run. -/
theorem Reachable.moved (h : Reachable s) {newer older : List Event} {c : ℕ} {ev : ChanEvent}
    (hlog : s.log = newer ++ .chan c ev :: older) :
    ∃ s₀ s₁ e base as new new', Reachable s₀ ∧
      step (e, .call (.chanalt base as)) s₀ = some s₁ ∧
      Carried base as s₀ s₁ (new ++ .chan c ev :: new') ∧ older = new' ++ s₀.log := by
  unfold Reachable ReachableBy at h
  induction h using Reach.induct generalizing newer with
  | init h =>
    obtain ⟨P, rfl⟩ := h
    obtain ⟨l, _, hstart⟩ := sim_boot P
    have hboot : P.boot.log = [.ready P.taskmain] := (congrArg Sys.log hstart).symm
    rw [hboot] at hlog
    simp [List.singleton_eq_append_iff] at hlog
  | @step s s' h hs ih =>
    obtain ⟨⟨e, act⟩, _, hs⟩ := hs
    have hsplit : ∀ {new}, s'.log = new ++ s.log →
        (∃ mid, newer = new ++ mid ∧ s.log = mid ++ .chan c ev :: older) ∨
        ∃ mid, new = newer ++ .chan c ev :: mid ∧ older = mid ++ s.log := by
      intro new hnew
      rcases List.append_eq_append_iff.mp (hnew.symm.trans hlog) with ⟨mid, h₁, h₂⟩ | ⟨mid, h₁, h₂⟩
      · exact .inl ⟨mid, h₁, h₂⟩
      · cases mid with
        | nil => exact .inl ⟨[], by simpa using h₁.symm, by simpa using h₂.symm⟩
        | cons d mid =>
          rw [List.cons_append, List.cons.injEq] at h₂
          obtain ⟨rfl, h₂⟩ := h₂
          exact .inr ⟨mid, h₁, h₂⟩
    by_cases hact : ∃ base as, act = .call (.chanalt base as)
    · obtain ⟨base, as, rfl⟩ := hact
      obtain ⟨new, hcarried⟩ := Reachable.carried h hs
      rcases hsplit hcarried.log with ⟨mid, _, hold⟩ | ⟨mid, rfl, hold⟩
      · exact ih hold
      · exact ⟨s, s', e, base, as, newer, mid, h, hs, hcarried, hold⟩
    · push Not at hact
      obtain ⟨new, hnew, hno⟩ := no_elements hs hact
      rcases hsplit hnew with ⟨mid, _, hold⟩ | ⟨mid, rfl, _⟩
      · exact ih hold
      · exact absurd (by simp) (hno c ev)

end Step

/-- A channel is a bounded first-in first-out queue of elements: what it took from senders is what
it handed to receivers and then what its buffer holds; and every element of that history was
carried unaltered, in a step of the run, from the memory of its sender or to that of its
receiver. -/
structure CarriesInOrder (c : ℕ) (s : Sys Links) : Prop where
  fifo : hist ChanEvent.sentBytes (s.log.filterMap (chanEvent c)) =
    hist ChanEvent.rcvdBytes (s.log.filterMap (chanEvent c)) ++ (s.chan c).held
  nbuf_le : (s.chan c).nbuf ≤ (s.chan c).bufsize
  carried : ∀ e base as s', step (e, .call (.chanalt base as)) s = some s' →
    ∃ new, Carried base as s s' new
  others : ∀ e act s', step (e, act) s = some s' →
    (∀ base as, act ≠ .call (.chanalt base as)) →
    ∃ new, s'.log = new ++ s.log ∧ ∀ c ev, .chan c ev ∉ new
  moved : ∀ newer older ev, s.log = newer ++ .chan c ev :: older →
    ∃ s₀ s₁ e base as new new', Reachable s₀ ∧
      step (e, .call (.chanalt base as)) s₀ = some s₁ ∧
      Carried base as s₀ s₁ (new ++ .chan c ev :: new') ∧ older = new' ++ s₀.log

/-- Every channel whose buffer fits the address space carries its elements in order. -/
theorem channel_fifo {s : Sys Links} (h : Reachable s) (c : ℕ)
    (hc : (s.chan c).bufsize * (s.chan c).elemsize < 2 ^ 32) : CarriesInOrder c s := by
  obtain ⟨a, pl, _, hI, hsim⟩ := h.sim
  have hring : RingInv (s.chan c) (s.log.filterMap (chanEvent c)) := by
    obtain ⟨q, _, rfl⟩ := hsim
    exact hI.ring c
  constructor
  case fifo => exact hring.fifo hc
  case nbuf_le => exact hring.nbuf_le
  case carried => exact fun e base as s' hs => h.carried hs
  case others => exact fun e act s' hs hact => no_elements hs hact
  case moved => exact fun newer older ev hlog => h.moved hlog

theorem channel_fifo_small : ∃ s, Program.small.after (fun _ _ => True) sendRun = some s ∧
    (s.chan 0).nbuf = 1 ∧ CarriesInOrder 0 s := by
  have hrun : (Program.small.after (fun _ _ => True) sendRun).map (fun s =>
      ((s.chan 0).nbuf, (s.chan 0).bufsize * (s.chan 0).elemsize)) = some (1, 1) := by decide
  obtain ⟨s, hs, hsize⟩ := Option.map_eq_some_iff.mp hrun
  obtain ⟨hnbuf, hsize⟩ := Prod.mk.inj hsize
  exact ⟨s, hs, hnbuf, channel_fifo (Program.reachableBy_after hs) 0 (by rw [hsize]; decide)⟩

end Libtask
