import Libtask.Properties.Choice

/-! Non-blocking operations: a call of `chanalt` that may not block does what the blocking call
does, or it fails where that one would give up the CPU, and then it changes nothing. -/
namespace Libtask
open Function

/-- The branches `pre`, the terminator `op`, and what follows it in memory. -/
def ended (pre : List Alt) (x : Alt) (op : Op) (post : List Alt) : List Alt :=
  pre ++ { x with op } :: post

section Ended
variable {σ : Type} {s : Sys σ} {base i : ℕ} {t : TaskPtr} {pre post : List Alt} {x : Alt} {op : Op}

theorem getElem?_ended (hi : i < pre.length) : (ended pre x op post)[i]? = pre[i]? := by
  rw [ended, List.getElem?_append_left hi]

theorem altlen_ended (hpre : ∀ y ∈ pre, isAltend y.op = false) (hop : isAltend op = true) :
    altlen (ended pre x op post) = pre.length := by
  induction pre with
  | nil => simp [ended, altlen_cons, hop]
  | cons y pre ih =>
    have hy : isAltend y.op = false := hpre y (by simp)
    have hrest := ih fun z hz => hpre z (by simp [hz])
    simp only [ended, List.cons_append, altlen_cons, hy, List.length_cons] at hrest ⊢
    simpa using hrest

theorem canblock_ended (hpre : ∀ y ∈ pre, isAltend y.op = false) (hop : isAltend op = true) :
    ((ended pre x op post)[altlen (ended pre x op post)]?).any (·.op = .CHANEND) =
      decide (op = .CHANEND) := by
  rw [altlen_ended hpre hop, ended, List.getElem?_append_right le_rfl, Nat.sub_self,
    List.getElem?_cons_zero, Option.any_some]

theorem stamped_ended (hpre : ∀ y ∈ pre, isAltend y.op = false) (op : Op)
    (hop : isAltend op = true) :
    stamped base t (ended pre x op post) = ended (pre.map (stamp base t)) x op post := by
  rw [stamped, altlen_ended hpre hop, ended, ended, List.take_left, List.drop_left]

theorem altArray_ended {op' : Op} (hop' : isAltend op' = true)
    (h : AltArray s base (ended pre x op post)) : AltArray s base (ended pre x op' post) :=
  ⟨⟨{ x with op := op' }, by simp [ended], hop'⟩, h.2⟩

theorem executableOnEntry_ended {s : Sys Links} (hpre : ∀ y ∈ pre, isAltend y.op = false)
    {op op' : Op} (hop : isAltend op = true) (hop' : isAltend op' = true) :
    executableOnEntry s base (ended pre x op post) =
      executableOnEntry s base (ended pre x op' post) := by
  unfold executableOnEntry executable
  rw [altlen_ended hpre hop, altlen_ended hpre hop']
  apply List.filter_congr
  intro i hi
  refine altcanexec_congr rfl ?_
  have hlt := List.mem_range.mp hi
  simp only [Sys.alt?, Sys.store, update_self, getElem?_ended hlt]

end Ended

/-- The state with another operation in one place of an alt array. -/
def Sys.setOp {σ : Type} (p : AltPtr) (op : Op) (s : Sys σ) : Sys σ :=
  let as := (s.alts p.base).modify p.idx fun x => { x with op }
  { s with alts := update s.alts p.base as }

section SetOp
variable {σ : Type} {p q : AltPtr} {op : Op}

theorem keepsAlt_setOp (hq : q ≠ p) : KeepsAlt (fun s : Sys σ => s.setOp p op) q := by
  intro s
  by_cases hb : q.base = p.base
  · have hi : p.idx ≠ q.idx := by
      intro hi
      apply hq
      cases p
      cases q
      simp_all
    simp [Sys.alt?, Sys.setOp, hb, hi]
  · simp [Sys.alt?, Sys.setOp, hb]

/-- The functions of channel.c that are given other branches do not see it. -/
theorem unseen_setOp (p : AltPtr) (op : Op) :
    Unseen (fun s : Sys σ => s.setOp p op) fun base => base ≠ p.base where
  chan _ := rfl
  alts s base hb := by simp [Sys.setOp, hb]
  setChan _ _ _ := rfl
  setXalt s q r hq := by
    have hp : p.base ≠ q.base := fun hp => hq hp.symm
    simp [Sys.setXalt, Sys.setOp, hq, hp, update_comm hq]
  altcopyDirect _ _ _ _ _ _ := rfl
  altcopyRecv _ _ _ _ := rfl
  altcopySend s c p snd := by
    unfold altcopySend
    simp only
    split
    · rw [if_pos ‹_›]
      rfl
    · rw [if_neg ‹_›]
      rfl

theorem modify_ended {pre post : List Alt} {x : Alt} {op' : Op} :
    (ended pre x op post).modify pre.length (fun y => { y with op := op' }) =
      ended pre x op' post := by
  induction pre with
  | nil => rfl
  | cons y pre ih =>
    simp only [ended, List.cons_append, List.length_cons, List.modify_succ_cons] at ih ⊢
    rw [ih]

/-- The two arrays differ in one place when the scans begin. -/
theorem altenter_ended {s : Sys σ} {base : ℕ} {t : TaskPtr} {pre post : List Alt} {x : Alt}
    (hpre : ∀ y ∈ pre, isAltend y.op = false) :
    s.altenter base (ended pre x .CHANNOBLK post) t =
      (s.altenter base (ended pre x .CHANEND post) t).setOp ⟨base, pre.length⟩ .CHANNOBLK := by
  have hlen : pre.length = (pre.map (stamp base t)).length := (List.length_map _).symm
  simp only [altenter_eq, Sys.setOp, update_self, update_idem,
    stamped_ended hpre .CHANNOBLK rfl, stamped_ended hpre .CHANEND rfl]
  rw [hlen, modify_ended]

theorem altexec_setOp {s : Sys Links} (hq : q ≠ p) (rand : ℕ)
    (hother : ∀ c op, ∀ r ∈ (s.chan c).arr op, r.base ≠ p.base ∧
      ∀ y, s.alt? r = some y → y.xalt.base ≠ p.base) :
    altexec q rand (s.setOp p op) = (altexec q rand s).map fun s => s.setOp p op := by
  have hmatch := (unseen_setOp p op).altexecMatch (s := s) (keepsAlt_setOp hq) rand (by
    intro x _ r hr
    obtain ⟨hb, hx⟩ := hother _ _ r hr
    refine ⟨keepsAlt_setOp ?_, hx⟩
    rintro rfl
    exact hb rfl)
  unfold altexec
  rw [hmatch]
  cases altexecMatch q rand s with
  | error v => rfl
  | ok r =>
    obtain ⟨s₁, u⟩ := r
    cases u <;> rfl

end SetOp

section Calls
variable {s : Sys Links} {t : TaskPtr} {base : ℕ} {as : List Alt}

/-- A queued alt is of another array than the one `chanalt` is called on, and so is the partner's
array it leads to. -/
theorem Reachable.queued_base (h : Reachable s) (has : AltArray s base as) (c : ℕ) (op : Op)
    {q : AltPtr} (hq : q ∈ (s.chan c).arr op) :
    q.base ≠ base ∧ ∀ y, s.alt? q = some y → y.xalt.base = q.base := by
  obtain ⟨_, pl, _, hI, l, _, rfl⟩ := h.sim
  constructor
  · exact hI.base_ne_of_unused has.2 hq
  · intro y hy
    obtain ⟨hu, hlt, _⟩ := ((hI.queue c op (mem_arr_queued hq)).2 q).mp hq
    obtain ⟨u, hu⟩ := hu
    obtain ⟨_, hxalt⟩ := (hI.altWaiting hu).stamped q.idx hlt y hy
    rw [hxalt]

/-- A blocking call that has no branch to execute queues its branches and is switched out. -/
theorem Reachable.altwait (h : Reachable s) (hc : s.control = .user) (ht : s.taskrunning = some t)
    (has : AltArray s base as) (e : Env) (hE : executableOnEntry s base as = [])
    (hcan : (as[altlen as]?).any (·.op = .CHANEND) = true) :
    ∃ s', call e (.chanalt base as) t s = .ok (s', .switched) := by
  have hnone : altpick base (s.altenter base as t) (altlen as) e.rand₁ = none := by
    rw [altpick_entry, hE, List.getElem?_nil]
  obtain ⟨a, pl, _, hI, hsim⟩ := h.sim
  have hent := hsim.altenter base as t
  have hpick := (hsim.altpick_altenter base as t (altlen as) e.rand₁).trans hnone
  obtain ⟨q, _, rfl⟩ := hsim
  obtain ⟨b, hok, _⟩ := hI.altwait ⟨ht, hc⟩ has.1 has.2 hpick
  obtain ⟨s₁, hok₁, _⟩ := hent.altqueueAll hok
  refine ⟨taskswitch (.chanalt base) t s₁, ?_⟩
  rw [call_chanalt_none hnone, if_pos hcan, hok₁]
  rfl

/-- A non-blocking call that has no branch to execute changes its array and the log only. -/
theorem call_chanalt_fails {e : Env} (hE : executableOnEntry s base as = [])
    (hcan : (as[altlen as]?).any (·.op = .CHANEND) = false) :
    call e (.chanalt base as) t s =
      .ok ((s.altenter base as t).emit (.altret t base (-1)), .value (-1)) := by
  have hnone : altpick base (s.altenter base as t) (altlen as) e.rand₁ = none := by
    rw [altpick_entry, hE, List.getElem?_nil]
  rw [call_chanalt_none hnone, if_neg (by simp [hcan])]

/-- A call with a branch to execute returns that branch, whether or not it may block. -/
theorem Reachable.altvalue (h : Reachable s) (hc : s.control = .user) (ht : s.taskrunning = some t)
    (has : AltArray s base as) (e : Env) (hE : executableOnEntry s base as ≠ []) :
    ∃ i s₁, (executableOnEntry s base as)[e.rand₁ % (executableOnEntry s base as).length]? =
      some i ∧
      altexec ⟨base, i⟩ e.rand₂ (s.altenter base as t) = .ok s₁ ∧
      call e (.chanalt base as) t s = .ok (s₁.emit (.altret t base i), .value i) := by
  rw [executableOnEntry, ← executable_altenter (t := t)] at hE
  obtain ⟨i, hi⟩ := altpick_ne_none e.rand₁ hE
  obtain ⟨s', hok, _⟩ := h.altrun hc ht has hi
  obtain ⟨s₁, hexec, _⟩ := map_ok ((call_chanalt_some hi).symm.trans hok)
  exact ⟨i, s₁, altpick_entry.symm.trans hi, hexec, by rw [call_chanalt_some hi, hexec]; rfl⟩

end Calls

/-- The call of `chanalt` on an array ended by `CHANNOBLK` beside the call on the same array ended
by `CHANEND`, made in the same state with the same random numbers. -/
structure NonblockingAgrees (s : Sys Links) (t : TaskPtr) (base : ℕ) (pre : List Alt) (x : Alt)
    (post : List Alt) (e : Env) : Prop where
  fails_iff : (∃ s', call e (.chanalt base (ended pre x .CHANNOBLK post)) t s =
      .ok (s', .value (-1))) ↔
    ∃ s', call e (.chanalt base (ended pre x .CHANEND post)) t s = .ok (s', .switched)
  no_effect : ∀ s', call e (.chanalt base (ended pre x .CHANNOBLK post)) t s =
      .ok (s', .value (-1)) →
    s' = { s with alts := update s.alts base (s'.alts base), log := s'.log }
  agrees : (¬∃ s', call e (.chanalt base (ended pre x .CHANNOBLK post)) t s =
      .ok (s', .value (-1))) →
    ∃ (i : ℕ) (s' : Sys Links),
      call e (.chanalt base (ended pre x .CHANEND post)) t s = .ok (s', .value i) ∧
      call e (.chanalt base (ended pre x .CHANNOBLK post)) t s =
        .ok (s'.setOp ⟨base, pre.length⟩ .CHANNOBLK, .value i)

section Main
variable {s : Sys Links} {t : TaskPtr} {base : ℕ} {pre post : List Alt} {x : Alt}

theorem Reachable.nonblockingAgrees (h : Reachable s) (hc : s.control = .user)
    (ht : s.taskrunning = some t) (hpre : ∀ y ∈ pre, isAltend y.op = false)
    (has : AltArray s base (ended pre x .CHANNOBLK post)) (e : Env) :
    NonblockingAgrees s t base pre x post e := by
  have has' : AltArray s base (ended pre x .CHANEND post) := altArray_ended rfl has
  have hE : executableOnEntry s base (ended pre x .CHANNOBLK post) =
      executableOnEntry s base (ended pre x .CHANEND post) := executableOnEntry_ended hpre rfl rfl
  by_cases hnil : executableOnEntry s base (ended pre x .CHANEND post) = []
  · have hfail := call_chanalt_fails (e := e) (t := t) (hE.trans hnil)
      ((canblock_ended hpre rfl).trans rfl)
    have hblock := h.altwait hc ht has' e hnil ((canblock_ended hpre rfl).trans rfl)
    constructor
    case fails_iff => exact ⟨fun _ => hblock, fun _ => ⟨_, hfail⟩⟩
    case no_effect =>
      intro s' hs'
      cases hfail.symm.trans hs'
      simp [altenter_eq, Sys.emit]
    case agrees => exact fun hn => absurd ⟨_, hfail⟩ hn
  · obtain ⟨i, s₁, hi, hexec, hcall⟩ := h.altvalue hc ht has' e hnil
    have hlt : i < pre.length := by
      have hm := (mem_executable.mp (List.mem_of_getElem? hi)).1
      rwa [altlen_ended hpre rfl] at hm
    obtain ⟨i', s₂, hi', hexec', hcall'⟩ := h.altvalue hc ht has e (by rwa [hE])
    rw [hE, hi] at hi'
    cases hi'
    -- the branch is executed in states that differ in the terminator alone
    have hsame : s₂ = s₁.setOp ⟨base, pre.length⟩ .CHANNOBLK := by
      have hne : (⟨base, i⟩ : AltPtr) ≠ ⟨base, pre.length⟩ := by
        intro heq
        have hidx := congrArg AltPtr.idx heq
        simp only at hidx
        omega
      rw [altenter_ended hpre, altexec_setOp hne, hexec] at hexec'
      · exact (Except.ok.inj hexec').symm
      · intro c op r hr
        obtain ⟨hb, hx⟩ := h.queued_base has' c op hr
        refine ⟨hb, fun y hy => ?_⟩
        rw [hx y]
        · exact hb
        · rw [← hy]
          exact (alt?_altenter hb).symm
    have hvalue : ∀ s', call e (.chanalt base (ended pre x .CHANNOBLK post)) t s ≠
        .ok (s', .value (-1)) := by
      intro s' hs'
      cases hcall'.symm.trans hs'
    constructor
    case fails_iff =>
      constructor
      · intro hf
        obtain ⟨s', hs'⟩ := hf
        exact absurd hs' (hvalue s')
      · intro hb
        obtain ⟨s', hs'⟩ := hb
        cases hcall.symm.trans hs'
    case no_effect => exact fun s' hs' => absurd hs' (hvalue s')
    case agrees =>
      intro _
      refine ⟨i, _, hcall, ?_⟩
      rw [hcall', hsame]
      rfl

theorem altlen_chanop {c : ℕ} {op : Op} {v : Option ℕ} {canblock : Bool} {junk : Alt}
    (hop : op.queued) : altlen (chanopArray c op v canblock junk) = 1 := by
  rcases hop with rfl | rfl <;> cases canblock <;> rfl

/-- What `_chanop` can do depends on the channel and the direction, not on where its array is. -/
theorem executableOnEntry_chanop {base base' c : ℕ} {op : Op} {v : Option ℕ} (hop : op.queued)
    (canblock canblock' : Bool) (junk junk' : Alt) :
    executableOnEntry s base (chanopArray c op v canblock junk) =
      executableOnEntry s base' (chanopArray c op v canblock' junk') := by
  unfold executableOnEntry executable
  rw [altlen_chanop hop, altlen_chanop hop]
  apply List.filter_congr
  intro i hi
  obtain rfl : i = 0 := by simpa using hi
  refine altcanexec_congr rfl ?_
  simp [Sys.alt?, Sys.store, chanopArray]

theorem canblock_chanop {c : ℕ} {op : Op} {v : Option ℕ} (hop : op.queued) (canblock : Bool)
    (junk : Alt) : ((chanopArray c op v canblock junk)[altlen (chanopArray c op v canblock
      junk)]?).any (·.op = .CHANEND) = canblock := by
  rcases hop with rfl | rfl <;> cases canblock <;> rfl

/-- The non-blocking call `nb` returns, and it returns 1 if and only if the blocking call `bl` would
not give up the CPU. -/
def SucceedsUnless (s : Sys Links) (t : TaskPtr) (nb bl : Call) : Prop :=
  ∀ e e', Admits s e (.call nb) → Admits s e' (.call bl) →
    ∃ s' i, call e nb t s = .ok (s', .value i) ∧
      (chanopResult i = 1 ↔ ∀ s'', call e' bl t s ≠ .ok (s'', .switched))

theorem Reachable.chanop_succeeds (h : Reachable s) (hc : s.control = .user)
    (ht : s.taskrunning = some t) {base base' c : ℕ} {op : Op} {v : Option ℕ} (hop : op.queued)
    (junk junk' : Alt) : SucceedsUnless s t (chanop base c op v false junk)
      (chanop base' c op v true junk') := by
  intro e e' hadm hadm'
  have has : AltArray s base (chanopArray c op v false junk) := hadm.2
  have has' : AltArray s base' (chanopArray c op v true junk') := hadm'.2
  have hE : executableOnEntry s base (chanopArray c op v false junk) =
      executableOnEntry s base' (chanopArray c op v true junk') :=
    executableOnEntry_chanop hop false true junk junk'
  unfold chanop
  by_cases hnil : executableOnEntry s base' (chanopArray c op v true junk') = []
  · refine ⟨_, _, call_chanalt_fails (hE.trans hnil) (canblock_chanop hop false junk), ?_⟩
    obtain ⟨s'', hs''⟩ := h.altwait hc ht has' e' hnil (canblock_chanop hop true junk')
    constructor
    · intro hone
      simp [chanopResult] at hone
    · exact fun hn => absurd hs'' (hn s'')
  · obtain ⟨i, s₁, _, _, hcall⟩ := h.altvalue hc ht has e (by rwa [hE])
    obtain ⟨i', s₂, _, _, hcall'⟩ := h.altvalue hc ht has' e' hnil
    refine ⟨_, _, hcall, ?_⟩
    constructor
    · intro _ s'' hs''
      cases hcall'.symm.trans hs''
    · intro _
      rw [chanopResult, if_neg (by omega)]

/-- A non-blocking `chanalt` fails, without effect, exactly where the blocking one would give up
the CPU, and otherwise does the same; so `channbsend` and `channbrecv` return 1 exactly when
`chansend` and `chanrecv` would not block. -/
theorem nonblocking_agrees (h : Reachable s) (hc : s.control = .user)
    (ht : s.taskrunning = some t) :
    (∀ base pre x post e, (∀ y ∈ pre, isAltend y.op = false) →
      AltArray s base (ended pre x .CHANNOBLK post) → NonblockingAgrees s t base pre x post e) ∧
    ∀ base base' c v junk junk',
      SucceedsUnless s t (channbsend base c v junk) (chansend base' c v junk') ∧
      SucceedsUnless s t (channbrecv base c v junk) (chanrecv base' c v junk') := by
  constructor
  · intro base pre x post e hpre has
    exact h.nonblockingAgrees hc ht hpre has e
  · intro base base' c v junk junk'
    constructor
    · exact h.chanop_succeeds hc ht (.inl rfl) junk junk'
    · exact h.chanop_succeeds hc ht (.inr rfl) junk junk'

end Main

theorem nonblocking_agrees_small : ∃ s, Program.small.after (fun _ _ => True) bootRun = some s ∧
    (∀ base pre x post e, (∀ y ∈ pre, isAltend y.op = false) →
      AltArray s base (ended pre x .CHANNOBLK post) →
        NonblockingAgrees s 4096 base pre x post e) ∧
    ∀ base base' c v junk junk',
      SucceedsUnless s 4096 (channbsend base c v junk) (chansend base' c v junk') ∧
      SucceedsUnless s 4096 (channbrecv base c v junk) (chanrecv base' c v junk') := by
  have hrun : (Program.small.after (fun _ _ => True) bootRun).map
      (fun s => (s.control, s.taskrunning)) = some (.user, some 4096) := by decide
  obtain ⟨s, hs, hcpu⟩ := Option.map_eq_some_iff.mp hrun
  obtain ⟨hc, ht⟩ := Prod.mk.inj hcpu
  exact ⟨s, hs, nonblocking_agrees (Program.reachableBy_after hs) hc ht⟩

end Libtask
