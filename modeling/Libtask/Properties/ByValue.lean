import Libtask.Properties.AltMemory
import Libtask.Properties.Storage

/-! Receives by value: two runs of such a call that differ in what its local variable holds at
first, side by side. -/
namespace Libtask
open Function

/-- `t` waits in a blocking receive on channel `c` for an element that goes to `v`. -/
structure WaitsFor (s : Sys Links) (t : TaskPtr) (base c v : ℕ) (junk : Alt) : Prop where
  queued : ⟨base, 0⟩ ∈ (s.chan c).arecv
  array : s.alts base = stamped base t (chanopArray c .CHANRCV (some v) true junk)
  elemsize : (s.chan c).elemsize = sizeofWord

namespace WaitsFor
variable {s s' : Sys Links} {t : TaskPtr} {base c v : ℕ} {junk : Alt} {q : AltPtr}

theorem of_data (h : WaitsFor s t base c v junk) (hd : s'.data = s.data) :
    WaitsFor s' t base c v junk := by
  have hchan : s'.chan = s.chan := congrArg Data.chan hd
  have halts : s'.alts = s.alts := congrArg Data.alts hd
  constructor
  · rw [hchan]
    exact h.queued
  · rw [halts]
    exact h.array
  · rw [hchan]
    exact h.elemsize

theorem branch (h : WaitsFor s t base c v junk) {y : Alt} (hy : s.alt? q = some y)
    (hop : y.op.queued) (hb : q.base = base) :
    y.c = c ∧ y.op = .CHANRCV ∧ y.v = some v ∧ y.task = t := by
  obtain ⟨b, i⟩ := q
  simp only at hb
  subst hb
  rw [Sys.alt?, h.array] at hy
  rcases i with _ | _ | i
  · obtain rfl := Option.some.inj hy
    exact ⟨rfl, rfl, rfl, rfl⟩
  · obtain rfl := Option.some.inj hy
    rcases hop with ho | ho <;> cases ho
  · cases hy

theorem blocked (h : WaitsFor s t base c v junk) (hs : Reachable s) : AltBlocked s t base := by
  have hq : ⟨base, 0⟩ ∈ (s.chan c).arr .CHANRCV := h.queued
  obtain ⟨y, hy, _, hop, _, hb⟩ := hs.queued_alt hq
  obtain ⟨_, _, _, ht⟩ := h.branch hy (.inr hop) rfl
  exact ht ▸ hb

end WaitsFor

/-- The bytes of the local variable at `v`. -/
def wordAt (v : ℕ) : Set ℕ := bytesAt (some v) sizeofWord

namespace WaitsFor
variable {s : Sys Links} {t u : TaskPtr} {base base' c v : ℕ} {junk : Alt} {as : List Alt}
  {m : ℕ → UInt8} {e : Env}

/-- While `t` waits, a call of `chanalt` by another task does the same in the two memories, and
writes the local variable if `t` waits no more. -/
theorem call (hs : Reachable s) (hw : WaitsFor s t base c v junk) (hu : s.User u)
    (has : AltArray s base' as) (hunsent : Unsent (wordAt v) s) (hoff : SendsOff (wordAt v) s as)
    (hm : Set.EqOn s.mem m (wordAt v)ᶜ) :
    ∃ r val m', call e (.chanalt base' as) u s = .ok (r, val) ∧
      call e (.chanalt base' as) u (s.withMem m) = .ok (r.withMem m', val) ∧
      Set.EqOn r.mem m' (wordAt v)ᶜ ∧ (WaitsFor r t base c v junk ∨ m' = r.mem) := by
  have hbase : base ≠ base' := (hs.queued_base has c .CHANRCV hw.queued).1
  have halts : (s.altenter base' as u).alts base = s.alts base := by
    simp [hbase]
  by_cases hE : executableOnEntry s base' as = []
  · cases hcan : (as[altlen as]?).any (·.op = .CHANEND) with
    | true =>
      obtain ⟨r, hr, hcall, hcall'⟩ := call_waits (t := u) (e := e) hE hcan
      refine ⟨r, _, m, hcall, hcall' m, hr.mem ▸ hm, .inl ?_⟩
      refine ⟨?_, (congrFun hr.alts base).trans (halts.trans hw.array),
        (hr.elemsize c).trans hw.elemsize⟩
      show ⟨base, 0⟩ ∈ (r.chan c).arr .CHANRCV
      rw [hr.arr c .CHANRCV (.inr rfl)]
      exact List.mem_append_left _ hw.queued
    | false =>
      refine ⟨_, _, m, call_chanalt_fails hE hcan, call_chanalt_fails hE hcan, hm, .inl ?_⟩
      exact ⟨hw.queued, halts.trans hw.array, hw.elemsize⟩
  · obtain ⟨i, y, b, o, dst, bytes, hy, hex, hmatch, hcall, hcall', hlen, hmem, hrcv⟩ :=
      hs.call_withMem (e := e) hu has hunsent hoff hm hE
    have hdata : ((o.elim b fun w => taskready w b).emit (.altret u base' i)).data = b.data := by
      cases o <;> rfl
    have hmemr : ((o.elim b fun w => taskready w b).emit (.altret u base' i)).mem =
        amove dst bytes s.mem := (congrArg Data.mem hdata).trans hmem
    refine ⟨_, _, _, hcall, hcall', ?_, ?_⟩
    · rw [hmemr]
      exact amove_eqOn hm
    rw [hmemr]
    by_cases hpartner : ∃ q, altpartner ⟨base', i⟩ e.rand₂ (s.altenter base' as u) = some q ∧
        q.base = base
    · -- the element goes to `t`
      right
      obtain ⟨q, hq, hqb⟩ := hpartner
      obtain ⟨z, hz, hzc, hzo, _⟩ := hs.queued_alt (hex.mem_partner hq)
      have hzop : z.op.queued := hzo ▸ hex.queued.otherop
      obtain ⟨hc, hop, hv, _⟩ := hw.branch hz hzop hqb
      have hy' : y.op = .CHANSND := by
        rcases hex.queued with ho | ho
        · exact ho
        · rw [hop, show y.op = .CHANRCV from ho] at hzo
          cases hzo
      have hdst : dst = some v := by
        rw [← hv]
        refine hrcv q z ?_ ?_
        · simp [altreceiver, hex.branch, hy', hq]
        · rwa [alt?_altenter (hqb ▸ hbase)]
      rw [hdst]
      have hyc : (s.chan y.c).elemsize = sizeofWord := by
        rw [← hw.elemsize, ← hc, hzc]
      exact (amove_eq hm (hlen.trans hyc)).symm
    · left
      have hq : ⟨base, 0⟩ ∈ ((s.altenter base' as u).chan c).arr .CHANRCV := hw.queued
      have hkeeps := altexecMatch_keeps hex.branch hmatch hq (by
        intro q z hq hz
        obtain ⟨hqb, hxalt⟩ := hs.queued_base has _ _ (hex.mem_partner hq)
        rw [alt?_altenter hqb] at hz
        rw [hxalt z hz]
        exact fun hb => hpartner ⟨q, hq, hb⟩)
      refine of_data ⟨hkeeps.1, ?_, ?_⟩ hdata
      · rw [hkeeps.2, ← hw.array]
        exact halts
      · rw [altexecMatch_elemsize hex.branch hmatch, ← hw.elemsize]
        rfl

end WaitsFor

/-- The same input in two runs, in memories `m` and `m'`: what user code stores, it stores in both,
and it leaves the same bytes alone. -/
def SameInput (m m' : ℕ → UInt8) (i i' : Env × Action) : Prop :=
  i' = i ∨ ∃ e w w', i = (e, .call (.write w)) ∧ i' = (e, .call (.write w')) ∧
    ∀ x, w' x = w x ∨ w x = m x ∧ w' x = m' x

/-- `L` is private: no alt sends from there. -/
structure Apart (L : Set ℕ) (s : Sys Links) (i : Env × Action) : Prop where
  waiting : Unsent L s
  call : ∀ base as, i.2 = .call (.chanalt base as) → SendsOff L s as

section Step
variable {s r : Sys Links} {m : ℕ → UInt8}

theorem step_withMem {i : Env × Action} (hi : i.2.offData) (hs : step i s = some r) :
    step i (s.withMem m) = some (r.withMem m) ∧ r.data = s.data := by
  have hdata := step_data hi hs
  refine ⟨?_, hdata⟩
  have h := withData_step (s := s) (d := ⟨s.chan, s.alts, m⟩) hi rfl
  rw [hs] at h
  refine h.trans (congrArg some ?_)
  rw [← show r.chan = s.chan from congrArg Data.chan hdata,
    ← show r.alts = s.alts from congrArg Data.alts hdata]
  rfl

theorem user_of_step {e : Env} {k : Call} (hs : step (e, .call k) s = some r) :
    ∃ t, s.User t ∧ Admits s e (.call k) ∧ r = finish t s (Libtask.call e k t s) := by
  obtain ⟨hact, _⟩ | ⟨_, hact, _⟩ | ⟨c, t, hact, ht, hc, hadm, hr⟩ := step_cases hs
  · cases hact
  · cases hact
  · cases hact
    exact ⟨t, ⟨ht, hc⟩, hadm, hr⟩

theorem finish_data (t : TaskPtr) (s b : Sys Links) (val : Return) :
    (finish t s (.ok (b, val))).data = b.data := by
  cases val <;> rfl

theorem finish_withMem (t : TaskPtr) (s s' b : Sys Links) (val : Return) :
    finish t s' (.ok (b.withMem m, val)) = (finish t s (.ok (b, val))).withMem m := by
  cases val <;> rfl

end Step

namespace WaitsFor
variable {s r r' : Sys Links} {t : TaskPtr} {base c v : ℕ} {junk : Alt} {m : ℕ → UInt8}
  {i i' : Env × Action}

/-- While `t` waits, the two runs stay in step; when it waits no more, they are in the same
state. -/
theorem step (hs : Reachable s) (hw : WaitsFor s t base c v junk) (hl : Apart (wordAt v) s i)
    (hm : Set.EqOn s.mem m (wordAt v)ᶜ) (hi : SameInput s.mem m i i')
    (hst : step i s = some r) (hst' : Libtask.step i' (s.withMem m) = some r') :
    ∃ m', r' = r.withMem m' ∧ Set.EqOn r.mem m' (wordAt v)ᶜ ∧
      (WaitsFor r t base c v junk ∨ m' = r.mem) := by
  obtain ⟨e, a⟩ := i
  rcases a.offData_or with hoff | ⟨base', as, rfl⟩ | ⟨w, rfl⟩
  · obtain rfl : i' = (e, a) := by
      rcases hi with rfl | ⟨_, _, _, h, _⟩
      · rfl
      · cases h
        exact hoff.elim
    obtain ⟨hst'', hdata⟩ := step_withMem (m := m) hoff hst
    refine ⟨m, Option.some.inj (hst'.symm.trans hst''), ?_, .inl (hw.of_data hdata)⟩
    rw [show r.mem = s.mem from congrArg Data.mem hdata]
    exact hm
  · obtain rfl : i' = (e, .call (.chanalt base' as)) := by
      rcases hi with rfl | ⟨_, _, _, h, _⟩
      · rfl
      · cases h
    obtain ⟨u, hu, hadm, rfl⟩ := user_of_step hst
    obtain ⟨u', hu', _, rfl⟩ := user_of_step hst'
    obtain rfl : u = u' := Option.some.inj (hu.1.symm.trans hu'.1)
    obtain ⟨b, val, m', hcall, hcall', hmem, hrest⟩ :=
      hw.call (e := e) hs hu hadm.2 hl.waiting (hl.call base' as rfl) hm
    have hb := finish_data u s b val
    rw [hcall, hcall']
    refine ⟨m', finish_withMem .., ?_, ?_⟩
    · rw [show (finish u s (.ok (b, val))).mem = b.mem from congrArg Data.mem hb]
      exact hmem
    · rcases hrest with hrest | rfl
      · exact .inl (hrest.of_data hb)
      · exact .inr (congrArg Data.mem hb).symm
  · obtain ⟨w', rfl, hw'⟩ : ∃ w', i' = (e, .call (.write w')) ∧
        ∀ x, w' x = w x ∨ w x = s.mem x ∧ w' x = m x := by
      rcases hi with rfl | ⟨_, w, w', h, rfl, hw'⟩
      · exact ⟨w, rfl, fun _ => .inl rfl⟩
      · cases h
        exact ⟨w', rfl, hw'⟩
    obtain ⟨u, hu, hadm, rfl⟩ := user_of_step hst
    obtain ⟨u', hu', _, rfl⟩ := user_of_step hst'
    refine ⟨w', rfl, fun x hx => ?_, .inl ?_⟩
    · rcases hw' x with h | ⟨h, h'⟩
      · exact h.symm
      · exact h.trans ((hm hx).trans h'.symm)
    · exact ⟨hw.queued, hw.array, hw.elemsize⟩

end WaitsFor

/-- Two runs side by side, of which the second has its own memory in `L`, until `t` is back in user
code in `q` and in `q'`. -/
inductive SideBySide (t : TaskPtr) (L : Set ℕ) :
    Sys Links → Sys Links → Sys Links → Sys Links → Prop
  | returned {s s' : Sys Links} (hu : s.User t) (hu' : s'.User t) : SideBySide t L s s' s s'
  | step {s s' r r' q q' : Sys Links} {i i' : Env × Action} (hu : ¬s.User t)
      (hi : SameInput s.mem s'.mem i i') (hl : Apart L s i) (hs : step i s = some r)
      (hs' : step i' s' = some r') (hrest : SideBySide t L r r' q q') : SideBySide t L s s' q q'

/-- Whatever the local variable at `v` holds when `t` makes the call, the call returns the same. -/
def WordDetermined (s : Sys Links) (t : TaskPtr) (v : ℕ) (k : Call) : Prop :=
  ∀ e m r r' q q', Set.EqOn s.mem m (wordAt v)ᶜ → step (e, .call k) s = some r →
    step (e, .call k) (s.withMem m) = some r' → SideBySide t (wordAt v) r r' q q' →
      q'.word v = q.word v

/-- There is an element for a receiver: in the buffer, or with a sender that waits. -/
def Channel.receivable (x : Channel) : Prop := if x.bufsize = 0 then x.asend ≠ [] else 0 < x.nbuf

section Returns
variable {s s' q q' r r' : Sys Links} {t : TaskPtr} {base c v : ℕ} {canblock : Bool} {junk : Alt}
  {m : ℕ → UInt8} {e : Env}

/-- Runs that are in the same state, or will be once `t` has got its element, end in the same
state. -/
theorem SideBySide.eq (h : SideBySide t (wordAt v) s s' q q') (hs : Reachable s)
    (hm : ∃ m, s' = s.withMem m ∧ Set.EqOn s.mem m (wordAt v)ᶜ ∧
      (WaitsFor s t base c v junk ∨ m = s.mem)) : q' = q := by
  induction h with
  | returned hu =>
    obtain ⟨m, rfl, _, hw | rfl⟩ := hm
    · exact absurd hu.1 (hw.blocked hs).2.1
    · rfl
  | @step s s' r r' q q' i i' _ hi hl hst hst' _ ih =>
    apply ih (hs.snoc hst)
    obtain ⟨m, rfl, hoff, hw | rfl⟩ := hm
    · exact hw.step hs hl hoff hi hst hst'
    · have hii : i' = i := by
        rcases hi with rfl | ⟨e, w, w', rfl, rfl, hw⟩
        · rfl
        · have hww : w' = w := by
            funext x
            rcases hw x with h | ⟨h, h'⟩
            · exact h
            · exact h'.trans h.symm
          rw [hww]
      subst hii
      obtain rfl : r = r' := Option.some.inj (hst.symm.trans hst')
      exact ⟨r.mem, rfl, fun _ _ => rfl, .inr rfl⟩

theorem executableOnEntry_recv : executableOnEntry s base
    (chanopArray c .CHANRCV (some v) canblock junk) ≠ [] ↔ (s.chan c).receivable := by
  have hrcv : Op.CHANRCV.queued := .inr rfl
  have hx : (s.store base (chanopArray c .CHANRCV (some v) canblock junk)).alt? ⟨base, 0⟩ =
      some { junk with c := c, op := .CHANRCV, v := some v } := by
    simp [Sys.alt?, Sys.store, chanopArray]
  have hcan := altcanexec_eq hx hrcv
  rw [show otherop .CHANRCV = .CHANSND from rfl] at hcan
  have hiff : executableOnEntry s base (chanopArray c .CHANRCV (some v) canblock junk) ≠ [] ↔
      altcanexec (s.store base (chanopArray c .CHANRCV (some v) canblock junk))
      ⟨base, 0⟩ = true := by
    unfold executableOnEntry executable
    rw [altlen_chanop hrcv, ← List.isEmpty_eq_false_iff]
    simp
  rw [hiff, hcan, Channel.receivable]
  by_cases h0 : (s.chan c).bufsize = 0 <;> simp [Sys.store, Channel.arr, h0]

/-- The call itself, where it gets an element at once or waits for one. -/
theorem step_recv (h : Reachable s) (hu : s.User t) (he : (s.chan c).elemsize = sizeofWord)
    (hunsent : Unsent (wordAt v) s) (hk : canblock = true ∨ (s.chan c).receivable)
    (hm : Set.EqOn s.mem m (wordAt v)ᶜ)
    (hs : step (e, .call (chanop base c .CHANRCV (some v) canblock junk)) s = some r)
    (hs' : step (e, .call (chanop base c .CHANRCV (some v) canblock junk))
      (s.withMem m) = some r') :
    ∃ m', r' = r.withMem m' ∧ Set.EqOn r.mem m' (wordAt v)ᶜ ∧
      (WaitsFor r t base c v junk ∨ m' = r.mem) := by
  have hrcv : Op.CHANRCV.queued := .inr rfl
  obtain ⟨u, hu', hadm, rfl⟩ := user_of_step hs
  obtain rfl : u = t := Option.some.inj (hu'.1.symm.trans hu.1)
  obtain ⟨u', hu'', _, rfl⟩ := user_of_step hs'
  obtain rfl : u' = u := Option.some.inj (hu''.1.symm.trans hu.1)
  have has : AltArray s base (chanopArray c .CHANRCV (some v) canblock junk) := hadm.2
  unfold chanop
  by_cases hE : executableOnEntry s base (chanopArray c .CHANRCV (some v) canblock junk) = []
  · have hcan : canblock = true := hk.resolve_right fun hr => executableOnEntry_recv.mpr hr hE
    subst hcan
    obtain ⟨r, hr, hcall, hcall'⟩ := call_waits (t := u') (e := e) hE
      (canblock_chanop hrcv true junk)
    obtain ⟨y, hy, hbranch, _⟩ := branch_altenter s base u'
      (show 0 < altlen (chanopArray c .CHANRCV (some v) true junk) by simp [altlen_chanop hrcv])
    obtain rfl := Option.some.inj hy
    rw [hcall, hcall' m]
    refine ⟨m, rfl, hr.mem ▸ hm, .inl ⟨?_, ?_, (hr.elemsize c).trans he⟩⟩
    · show ⟨base, 0⟩ ∈ (r.chan c).arr .CHANRCV
      rw [hr.arr c .CHANRCV hrcv, altlen_chanop hrcv]
      exact List.mem_append_right _ (mem_branches.mpr ⟨rfl, by simp, _, hbranch, rfl, rfl⟩)
    · refine (congrFun hr.alts base).trans ?_
      simp
  · obtain ⟨i, y, b, o, dst, bytes, hy, hex, hmatch, hcall, hcall', hlen, hmem, hrcv'⟩ :=
      h.call_withMem (e := e) hu has hunsent (by
        intro x hx ho
        rcases List.mem_pair.mp hx with rfl | rfl
        · cases ho
        · cases canblock <;> cases ho) hm hE
    have hmemr : ((o.elim b fun w => taskready w b).emit (.altret u' base i)).mem =
        amove dst bytes s.mem := by
      rw [← hmem]
      cases o <;> rfl
    -- of the two entries of the array only the first is a branch
    have hfirst : i = 0 ∧ y.v = some v ∧ y.c = c ∧ y.op = .CHANRCV := by
      have hop : y.op.queued := hex.queued
      rcases i with _ | _ | i
      · obtain rfl := Option.some.inj hy
        exact ⟨rfl, rfl, rfl, rfl⟩
      · obtain rfl := Option.some.inj hy
        cases canblock <;> rcases hop with ho | ho <;> cases ho
      · cases hy
    obtain ⟨rfl, hv, hc, hop⟩ := hfirst
    have hdst : dst = some v := by
      rw [← hv]
      refine hrcv' ⟨base, 0⟩ (stamp base u' y) ?_ hex.branch
      simp [altreceiver, hex.branch, hop]
    have hsame : amove dst bytes m = amove dst bytes s.mem := by
      rw [hdst]
      exact (amove_eq hm (hlen.trans (hc ▸ he))).symm
    rw [hcall, hcall', finish_withMem _ s]
    refine ⟨_, rfl, ?_, .inr ?_⟩
    · rw [hsame, ← hmemr]
      exact fun _ _ => rfl
    · rw [hsame, ← hmemr]
      rfl

theorem wordDetermined_recv (h : Reachable s) (hu : s.User t)
    (he : (s.chan c).elemsize = sizeofWord)
    (hunsent : Unsent (wordAt v) s) (hk : canblock = true ∨ (s.chan c).receivable) :
    WordDetermined s t v (chanop base c .CHANRCV (some v) canblock junk) := by
  intro e m r r' q q' hm hs hs' hrun
  rw [hrun.eq (h.snoc hs) (step_recv h hu he hunsent hk hm hs hs')]

/-- A non-blocking call that finds nothing to receive leaves the local variable alone. -/
theorem step_recv_nothing (hu : s.User t)
    (hbase : ∀ u ∈ s.live, s.taskrunning ≠ some u → (s.task u).context ≠ .chanalt base)
    (hk : ¬(s.chan c).receivable) (junk : Alt) (m : ℕ → UInt8) :
    ∃ r, step (.still 0, .call (chanop base c .CHANRCV (some v) false junk))
      (s.withMem m) = some r ∧
      r.User t ∧ r.mem = m := by
  have hE : executableOnEntry (s.withMem m) base
      (chanopArray c .CHANRCV (some v) false junk) = [] := by
    by_contra hne
    exact hk (executableOnEntry_recv.mp hne)
  have hadm : Admits (s.withMem m) (.still 0)
      (.call (chanop base c .CHANRCV (some v) false junk)) := by
    refine ⟨.inl rfl, ⟨_, List.mem_cons_of_mem _ (List.mem_singleton_self _), rfl⟩, ?_⟩
    exact hbase
  have hu' : (s.withMem m).User t := hu
  have hcan := canblock_chanop (c := c) (v := some v) (.inr rfl : Op.CHANRCV.queued) false junk
  have hs := step_of_call hu'.1 hu'.2 hadm
  rw [chanop, call_chanalt_fails hE hcan] at hs
  refine ⟨_, hs, ?_, ?_⟩
  · simp [Sys.User, finish, Sys.emit, altenter_eq, Sys.withMem, hu.1]
  · simp [finish, Sys.emit, Sys.withMem]

theorem not_wordDetermined_recv (hu : s.User t)
    (hbase : ∀ u ∈ s.live, s.taskrunning ≠ some u → (s.task u).context ≠ .chanalt base)
    (hk : ¬(s.chan c).receivable) :
    ¬WordDetermined s t v (chanop base c .CHANRCV (some v) false junk) := by
  intro hdet
  -- two runs in which the first byte of the local variable is not the same
  obtain ⟨m, hm⟩ : ∃ m, m = update s.mem v (s.mem v + 1) := ⟨_, rfl⟩
  have hoff : Set.EqOn s.mem m (wordAt v)ᶜ := by
    intro x hx
    have hne : x ≠ v := by
      rintro rfl
      exact hx ⟨x, rfl, le_refl x, by simp [sizeofWord]⟩
    rw [hm, update_of_ne hne]
  obtain ⟨r, hs, hr, hrm⟩ := step_recv_nothing (v := v) hu hbase hk junk s.mem
  obtain ⟨r', hs', hr', hrm'⟩ := step_recv_nothing (v := v) hu hbase hk junk m
  have hword := hdet (.still 0) m r r' r r' hoff hs hs' (.returned hr hr')
  have hfirst : m v = s.mem v := by
    rw [Sys.word, Sys.word, hrm, hrm'] at hword
    exact (List.cons.inj hword).1
  rw [hm, update_self] at hfirst
  simp at hfirst

end Returns

theorem only_task {s : Sys Links} {t : TaskPtr} (hr : s.taskrunning = some t)
    (hlive : s.live = {t}) (base : ℕ) :
    ∀ u ∈ s.live, s.taskrunning ≠ some u → (s.task u).context ≠ .chanalt base := by
  intro u hu hne
  rw [hlive, Finset.mem_singleton] at hu
  exact absurd (hu ▸ hr) hne

/-- A program whose channels are empty and carry words, with one task, which runs. -/
theorem wordChannels : ∃ s, Reachable s ∧ s.User 4096 ∧
    (∀ base, ∀ u ∈ s.live, s.taskrunning ≠ some u → (s.task u).context ≠ .chanalt base) ∧
    s.chan = fun _ => chancreate 4 1 fun _ => 0 := by
  obtain ⟨s, hs, hchan, hr, hc, hlive⟩ : ∃ s,
      (Program.uniform 4 1 (by decide) (by decide)).after (fun _ _ => True) bootRun = some s ∧
        s.chan = (fun _ => chancreate 4 1 fun _ => 0) ∧ s.taskrunning = some 4096 ∧
        s.control = .user ∧ s.live = {4096} :=
    ⟨_, rfl, rfl, rfl, rfl, by decide⟩
  exact ⟨s, Program.reachableBy_after hs, ⟨hr, hc⟩, only_task hr hlive, hchan⟩

/-- The same after the task has sent an element. -/
theorem wordChannels_sent : ∃ s, Reachable s ∧ s.User 4096 ∧
    (∀ base, ∀ u ∈ s.live, s.taskrunning ≠ some u → (s.task u).context ≠ .chanalt base) ∧
    s.chan = update (fun _ => chancreate 4 1 fun _ => 0) 0
      ((chancreate 4 1 fun _ => 0).filled [0, 0, 0, 0]) := by
  let junk : Alt := { c := 0, v := none, op := .CHANNOP, task := 0, xalt := ⟨0, 0⟩ }
  obtain ⟨s, hs, hchan, hr, hc, hlive⟩ : ∃ s,
      (Program.uniform 4 1 (by decide) (by decide)).after (fun _ _ => True)
          (bootRun ++ [(.still 0, .call (chansend 0 0 none junk))]) = some s ∧
        s.chan = update (fun _ => chancreate 4 1 fun _ => 0) 0
          ((chancreate 4 1 fun _ => 0).filled [0, 0, 0, 0]) ∧ s.taskrunning = some 4096 ∧
        s.control = .user ∧ s.live = {4096} :=
    ⟨_, rfl, rfl, rfl, rfl, by decide⟩
  exact ⟨s, Program.reachableBy_after hs, ⟨hr, hc⟩, only_task hr hlive, hchan⟩

theorem channbrecvul_leaks : ∃ s, Reachable s ∧ s.User 4096 ∧
    (∀ base, ∀ u ∈ s.live, s.taskrunning ≠ some u → (s.task u).context ≠ .chanalt base) ∧
    (s.chan 0).elemsize = sizeofWord ∧ Unsent (wordAt 0) s ∧
    ∀ junk, ¬WordDetermined s 4096 0 (channbrecvul 0 0 0 junk) := by
  obtain ⟨s, hs, hu, hbase, hchan⟩ := wordChannels
  refine ⟨s, hs, hu, hbase, ?_, ?_, fun junk => ?_⟩
  · rw [hchan]
    rfl
  · intro c q hq
    rw [hchan] at hq
    cases hq
  · refine not_wordDetermined_recv hu (hbase 0) ?_
    rw [hchan]
    simp [Channel.receivable, chancreate]

section Main
variable {s : Sys Links} {t : TaskPtr} {base c v : ℕ}

/-- A blocking receive by value returns what its sender or the channel holds; a non-blocking one
does so if and only if there is something to receive. -/
theorem byvalue_determined (h : Reachable s) (hu : s.User t)
    (hbase : ∀ u ∈ s.live, s.taskrunning ≠ some u → (s.task u).context ≠ .chanalt base)
    (he : (s.chan c).elemsize = sizeofWord) (hunsent : Unsent (wordAt v) s) (junk : Alt) :
    WordDetermined s t v (chanrecvp base c v junk) ∧
      WordDetermined s t v (chanrecvul base c v junk) ∧
    (WordDetermined s t v (channbrecvp base c v junk) ↔ (s.chan c).receivable) ∧
    (WordDetermined s t v (channbrecvul base c v junk) ↔ (s.chan c).receivable) := by
  have hblock : WordDetermined s t v (chanop base c .CHANRCV (some v) true junk) :=
    wordDetermined_recv h hu he hunsent (.inl rfl)
  have hnonblock : WordDetermined s t v (chanop base c .CHANRCV (some v) false junk) ↔
      (s.chan c).receivable := by
    constructor
    · intro hdet
      by_contra hk
      exact not_wordDetermined_recv hu hbase hk hdet
    · exact fun hk => wordDetermined_recv h hu he hunsent (.inr hk)
  exact ⟨hblock, hblock, hnonblock, hnonblock⟩

/-- A task is about to receive from a channel of words with `n` elements, by value. -/
def ReceivesWord (n : ℕ) : Prop :=
  ∃ s, Reachable s ∧ (s.chan 0).nbuf = n ∧ ∀ junk,
    WordDetermined s 4096 0 (chanrecvp 0 0 0 junk) ∧
    WordDetermined s 4096 0 (chanrecvul 0 0 0 junk) ∧
    (WordDetermined s 4096 0 (channbrecvp 0 0 0 junk) ↔ (s.chan 0).receivable) ∧
    (WordDetermined s 4096 0 (channbrecvul 0 0 0 junk) ↔ (s.chan 0).receivable)

theorem byvalue_determined_words : ReceivesWord 0 ∧ ReceivesWord 1 := by
  constructor
  · obtain ⟨s, hs, hu, hbase, hchan⟩ := wordChannels
    refine ⟨s, hs, by rw [hchan]; rfl, byvalue_determined hs hu (hbase 0) ?_ ?_⟩
    · rw [hchan]
      rfl
    · intro c q hq
      rw [hchan] at hq
      cases hq
  · obtain ⟨s, hs, hu, hbase, hchan⟩ := wordChannels_sent
    refine ⟨s, hs, by rw [hchan]; rfl, byvalue_determined hs hu (hbase 0) ?_ ?_⟩
    · rw [hchan]
      rfl
    · intro c q hq
      rw [hchan] at hq
      by_cases hc : c = 0
      · subst hc
        cases hq
      · rw [update_of_ne hc] at hq
        cases hq

end Main

end Libtask
