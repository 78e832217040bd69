import Libtask.Abstract.Preserve

/-! What `chanalt` does to the invariant: entering the call, executing one branch for the
caller and the alt it is matched with, and blocking on all branches. -/
namespace Libtask
open Function Runs

section Enter
variable {σ : Type} (s : Sys σ) (base : ℕ) (as : List Alt) (t : TaskPtr)

/-- The state in which the array of a call is stamped. -/
theorem altenter_eq : s.altenter base as t = { s with
    alts := update s.alts base (stamped base t as)
    log := .altcall t base :: s.log } := by
  simp [Sys.altenter, altstamp_eq, Sys.emit]

@[simp] theorem altenter_alts : (s.altenter base as t).alts =
    update s.alts base (stamped base t as) := by
  rw [altenter_eq]

@[simp] theorem altenter_log : (s.altenter base as t).log = .altcall t base :: s.log := rfl

@[simp] theorem altenter_chan : (s.altenter base as t).chan = s.chan := rfl

@[simp] theorem altenter_mem : (s.altenter base as t).mem = s.mem := rfl

variable {s base as t}

theorem alt?_altenter {q : AltPtr} (hq : q.base ≠ base) :
    (s.altenter base as t).alt? q = s.alt? q := by
  simp [Sys.alt?, hq]

end Enter

namespace Inv
variable {a b : Sys Queues} {pl : Placement} {t u : TaskPtr} {base i : ℕ} {as : List Alt}
  {p q : AltPtr} {c : ℕ} {op : Op} {x : Alt}

theorem inAlt (h : Inv a pl) (hu : pl u = some (.alt base)) : InAlt a pl u base := by
  obtain ⟨hhome, _⟩ := h.fits u _ hu
  refine ⟨?_, by simp [hu], by simp [hu]⟩
  cases hc : (a.task u).context <;> rw [hc] at hhome <;> cases hhome
  rfl

theorem altWaiting (h : Inv a pl) (hu : pl u = some (.alt base)) : AltWaiting a u base := by
  obtain ⟨_, hw⟩ := h.fits u _ hu
  rwa [(h.inAlt hu).1] at hw

/-- No task is in a call on an array that the caller may pass to `chanalt`. -/
theorem fresh (h : Inv a pl) (ht : a.User t)
    (hb : ∀ v ∈ a.live, a.taskrunning ≠ some v → (a.task v).context ≠ .chanalt base) :
    ∀ u, ¬InAlt a pl u base := by
  rintro u ⟨hc, hn, hu⟩
  obtain ⟨loc, hloc⟩ := Option.ne_none_iff_exists'.mp hn
  refine hb u (h.mem_live hloc) (fun hr => hu ?_) hc
  have hut : t = u := Option.some.inj (ht.1.symm.trans hr)
  exact hut ▸ h.onCpu.of_user ht

/-- The queues hold no branch of an array that no task is in a call on. -/
theorem base_ne (h : Inv a pl) (hfresh : ∀ u, ¬InAlt a pl u base) (hop : op.queued)
    (hp : p ∈ (a.chan c).arr op) : p.base ≠ base := by
  rintro rfl
  obtain ⟨⟨u, hu⟩, _⟩ := ((h.queue c op hop).2 p).mp hp
  exact hfresh u (h.inAlt hu)

section Enter

theorem altenter_frame : Frame (some t) {base} a (a.altenter base as t) where
  context _ _ := rfl
  exiting _ _ := rfl
  rendez := rfl
  alts base' hb := by simp [show base' ≠ base from hb]
  log := ⟨[.altcall t base], rfl, by simp [Event.subject, transferOf]⟩

theorem altenter (h : Inv a pl) (as : List Alt) (ht : pl t = some .user)
    (hfresh : ∀ u, ¬InAlt a pl u base) : Inv (a.altenter base as t) pl := by
  have hpl : update pl t (some .user) = pl := by rw [← ht, update_eq_self]
  have hr := h.relocate (b := a.altenter base as t) (o := some .user) (t := t) altenter_frame
    (h.mem_live_iff rfl ht) (fun u base' _ hi hb => hfresh u (Set.mem_singleton_iff.mp hb ▸ hi))
    (hpl.symm ▸ h.placed.congr rfl rfl fun _ => rfl) (hpl.symm ▸ h.onCpu.congr rfl rfl)
    (fun loc hl => by cases hl; trivial) (fun _ => h.not_exiting ht)
    (fun u base' _ hi => absurd (by simp) hi.2.2) (fun c op hop => ?_) h.ring h.idle
  · rwa [hpl] at hr
  · refine ⟨(h.queue c op hop).1, fun p => ?_⟩
    rw [hpl, show ((a.altenter base as t).chan c).arr op = (a.chan c).arr op from rfl,
      (h.queue c op hop).2 p]
    refine and_congr_right fun ⟨u, hu⟩ => ?_
    have hne : p.base ≠ base := by
      rintro rfl
      exact hfresh u (h.inAlt hu)
    simp [Sys.alt?, hne]

end Enter

section Execute
variable {b : Sys Queues} {evs : List ChanEvent}

theorem copied_frame (hcop : Copied c evs a b) {o : Option TaskPtr} {B : Set ℕ}
    (hB : ∀ e ∈ evs, e.alt.base ∈ B) : Frame o B a b := by
  rw [hcop.eq]
  refine ⟨fun _ _ => rfl, fun _ _ => rfl, rfl, fun _ _ => rfl, _, rfl, fun e he => ?_⟩
  obtain ⟨d, hd, rfl⟩ := List.mem_map.mp he
  refine ⟨.inl rfl, fun base hb => ?_⟩
  have hne : d.alt.base ≠ base := by
    rintro rfl
    exact hb (hB d hd)
  simp [transferOf, hne]

theorem copied_ring (h : Inv a pl) (hcop : Copied c evs a b) (c' : ℕ) :
    RingInv (b.chan c') (b.log.filterMap (chanEvent c')) := by
  have hlog : b.log = evs.map (.chan c) ++ a.log := by rw [hcop.eq]
  by_cases hc : c' = c
  · subst hc
    rw [hlog, List.filterMap_append, chanEvent_map]
    exact hcop.ring
  · have hnil : (evs.map (Event.chan c)).filterMap (chanEvent c') = [] := by
      refine List.filterMap_eq_nil_iff.mpr fun e he => ?_
      obtain ⟨d, _, rfl⟩ := List.mem_map.mp he
      simp [chanEvent, Ne.symm hc]
    rw [hlog, List.filterMap_append, hnil, List.nil_append, hcop.other c' hc]
    exact h.ring c'

theorem copied_arr (hcop : Copied c evs a b) (c' : ℕ) (op : Op) :
    (b.chan c').arr op = (a.chan c').arr op := by
  by_cases hc : c' = c
  · subst hc
    exact hcop.arr op
  · rw [hcop.other c' hc]

/-- The caller's branch is executed through the buffer alone. -/
theorem altexec_alone (h : Inv a pl) (ht : pl t = some .user) (hfresh : ∀ u, ¬InAlt a pl u base)
    (hx : a.alt? ⟨base, i⟩ = some x) (hop : x.op.queued)
    (hcan : altcanexec a ⟨base, i⟩ = true)
      (hnil : (a.chan x.c).arr (otherop x.op) = []) (rand : ℕ) :
    ∃ b e, altexecMatch ⟨base, i⟩ rand a = .ok (b, none) ∧ Inv b pl ∧
      ChanOnly x.c [e] a b ∧ e.alt = ⟨base, i⟩ := by
  rw [altcanexec_eq hx hop] at hcan
  have hbuf : (a.chan x.c).bufsize ≠ 0 := by
    intro h0
    rw [if_pos h0] at hcan
    exact hcan hnil
  rw [if_neg hbuf] at hcan
  obtain ⟨b, e, hok, hcop, he, hsnd, hrcv⟩ := altcopy_alone hx hop (h.ring x.c) hcan.1 hcan.2
  refine ⟨b, e, altexecMatch_alone hx hop hnil hok, ?_, hcop.chanOnly, he⟩
  have hF : Frame (some t) {base} a b := copied_frame hcop (by simp [he])
  have hpl : update pl t (some .user) = pl := by rw [← ht, update_eq_self]
  -- both queues of the channel are empty: nobody waits where the caller need not
  have hself : (a.chan x.c).arr x.op = [] := by
    by_contra hne
    rcases hop with ho | ho
    · have hlt := hcan.1 ho
      rw [ho] at hne
      exact absurd ((h.idle x.c).full (Nat.pos_of_ne_zero hbuf) hne) (by omega)
    · have hlt := hcan.2 ho
      rw [ho] at hne
      exact absurd ((h.idle x.c).empty (Nat.pos_of_ne_zero hbuf) hne) (by omega)
  have hempty : (a.chan x.c).asend = [] ∧ (a.chan x.c).arecv = [] := by
    rcases hop with ho | ho <;> rw [ho] at hself hnil
    · exact ⟨hself, hnil⟩
    · exact ⟨hnil, hself⟩
  have hr := h.relocate (b := b) (o := some .user) hF (h.mem_live_iff (by rw [hcop.eq]) ht)
    (fun u base' _ hi hb => hfresh u (Set.mem_singleton_iff.mp hb ▸ hi))
    (hpl.symm ▸ h.placed.congr (by rw [hcop.eq]) (by rw [hcop.eq]; rfl) fun _ => by rw [hcop.eq])
    (hpl.symm ▸ h.onCpu.congr (by rw [hcop.eq]) (by rw [hcop.eq]))
    (fun loc hl => by cases hl; trivial) (fun _ => by rw [hcop.eq]; exact h.not_exiting ht)
    (fun u base' _ hi => absurd (by simp) hi.2.2) (fun c op hop => ?_) (h.copied_ring hcop)
    fun c => ?_
  · rwa [hpl] at hr
  · rw [hpl, copied_arr hcop]
    have hq := h.queue c op hop
    rw [hcop.eq]
    exact hq
  · by_cases hc : c = x.c
    · subst hc
      have h₁ := (hcop.arr .CHANSND).trans hempty.1
      have h₂ := (hcop.arr .CHANRCV).trans hempty.2
      simp only [Channel.arr] at h₁ h₂
      exact ⟨fun _ hne => absurd h₁ hne, fun _ hne => absurd h₂ hne,
        fun _ p hp => by simp [h₁] at hp⟩
    · rw [hcop.other c hc]
      exact h.idle c

/-- The queues say of a blocked alt exactly what its array says. -/
theorem queuedFrom (h : Inv a pl) (hu : pl u = some (.alt base)) :
    QueuedFrom a ⟨base, 0⟩ (a.alts base) := by
  intro c op hop j
  rw [(h.queue c op hop).2]
  simp only [Enqueued, Nat.zero_add, getElem?_takeWhile_altend, Sys.alt?]
  constructor
  · rintro ⟨_, hj, x, hx, hc⟩
    exact ⟨x, ⟨hj, hx⟩, hc⟩
  · rintro ⟨x, ⟨hj, hx⟩, hc⟩
    exact ⟨⟨u, hu⟩, hj, x, hx, hc⟩

theorem queueInv_mono {x y : Channel} (h : QueueInv x) (hb : y.bufsize = x.bufsize)
    (hn : y.nbuf = x.nbuf) (hs : ∀ p ∈ y.asend, p ∈ x.asend) (hr : ∀ p ∈ y.arecv, p ∈ x.arecv) :
    QueueInv y where
  full h0 hne := by
    obtain ⟨p, hp⟩ := List.exists_mem_of_ne_nil _ hne
    rw [hn, hb]
    exact h.full (hb ▸ h0) (List.ne_nil_of_mem (hs p hp))
  empty h0 hne := by
    obtain ⟨p, hp⟩ := List.exists_mem_of_ne_nil _ hne
    rw [hn]
    exact h.empty (hb ▸ h0) (List.ne_nil_of_mem (hr p hp))
  solo h0 p hp q hq := h.solo (hb ▸ h0) p (hs p hp) q (hr q hq)

/-- An alt that waits is committed by a transfer of its branch `q`, once `a[0].xalt` says so and
its task is made ready. -/
theorem committed_of_waiting {a' : Sys Queues} {e d : ChanEvent} (hw : AltWaiting a u q.base)
    (hq : q.idx < altlen (a.alts q.base)) (halts : a'.alts = a.alts)
    (hlog : a'.log = [e, d].map (Event.chan c) ++ a.log)
    (htr : ([e, d].map (Event.chan c)).filterMap (transferOf q.base) = [q.idx]) :
    AltCommitted (a'.setXalt ⟨q.base, 0⟩ q |>.ready u) u q.base := by
  -- of the log only the two transfers and the ready event are new
  have hsince : since (.altcall u q.base) (a'.setXalt ⟨q.base, 0⟩ q |>.ready u).log =
      .ready u :: [e, d].map (Event.chan c) ++ since (.altcall u q.base) a.log := by
    have hnew : .altcall u q.base ∉ .ready u :: [e, d].map (Event.chan c) := by simp
    show since _ (.ready u :: a'.log) = _
    rw [hlog]
    exact since_append hnew a.log
  obtain ⟨x, hx⟩ : ∃ x, (a.alts q.base)[0]? = some x := by
    have hlen : altlen (a.alts q.base) ≤ (a.alts q.base).length :=
      (List.takeWhile_prefix _).length_le
    exact ⟨_, List.getElem?_eq_getElem (by omega)⟩
  refine ⟨q.idx, { x with xalt := q }, ?_, rfl, ?_, ?_⟩
  · have halts' : (a'.setXalt ⟨q.base, 0⟩ q |>.ready u).alts =
        update a.alts q.base ((a.alts q.base).modify 0 fun y => { y with xalt := q }) := by
      rw [← halts]
      rfl
    simp [Sys.alt?, halts', hx]
  · have ht := hw.transfers
    simp only [transfers] at ht ⊢
    rw [hsince, List.filterMap_append, ht, List.append_nil, List.filterMap_cons_none rfl, htr]
  · have hr := hw.readied
    simp only [readied] at hr ⊢
    rw [hsince, List.count_append, hr]
    simp

/-- The arrays that tasks wait on, when one of them waits no more. -/
theorem exists_alt_update (h : Inv a pl) (hu : pl u = some (.alt base)) (base' : ℕ) :
    (∃ v, update pl u (some .runqueue) v = some (.alt base')) ↔
      (∃ v, pl v = some (.alt base')) ∧ base' ≠ base := by
  constructor
  · rintro ⟨v, hv⟩
    by_cases hvu : v = u
    · subst hvu
      simp at hv
    · rw [update_of_ne hvu] at hv
      refine ⟨⟨v, hv⟩, ?_⟩
      rintro rfl
      exact hvu (h.unique v u _ (h.inAlt hv) (h.inAlt hu))
  · rintro ⟨⟨v, hv⟩, hne⟩
    refine ⟨v, ?_⟩
    rw [update_of_ne, hv]
    rintro rfl
    rw [hu, Option.some.injEq, Loc.alt.injEq] at hv
    exact hne hv.symm

/-- A blocked alt is over once its branches are off the queues and `a[0].xalt` says which one
was executed; its task is made ready. -/
theorem commit {chan : ℕ → Channel} {e d : ChanEvent} (h : Inv a pl) (mem : ℕ → UInt8)
    (hu : pl u = some (.alt q.base)) (hq : q.idx < altlen (a.alts q.base))
    (hfresh : ∀ v, ¬InAlt a pl v base) (hevs : (e.alt.base = base ∧ d.alt = q) ∨
      (e.alt = q ∧ d.alt.base = base))
    (hdeq : Dequeued a.chan chan fun p => p.base = q.base)
    (hring : ∀ c', RingInv (chan c')
      (([e, d].map (Event.chan c) ++ a.log).filterMap (chanEvent c')))
    (hidle : ∀ c', QueueInv (chan c')) :
    Inv (({ a with
        chan, mem
        log := [e, d].map (Event.chan c) ++ a.log } : Sys Queues).setXalt ⟨q.base, 0⟩ q |>.ready u)
      (update pl u (some .runqueue)) := by
  have hqb : q.base ≠ base := by
    intro hb
    exact hfresh u (hb ▸ h.inAlt hu)
  have huniq : ∀ v, InAlt a pl v q.base → v = u := fun v hv => h.unique v u _ hv (h.inAlt hu)
  have hw := h.altWaiting hu
  set a' : Sys Queues := { a with chan, mem, log := [e, d].map (Event.chan c) ++ a.log } with ha'
  have hF : Frame (some u) {base, q.base} a (a'.setXalt ⟨q.base, 0⟩ q) := by
    refine ⟨fun _ _ => rfl, fun _ _ => rfl, rfl, fun base' hb => ?_, _, rfl, fun ev hev => ?_⟩
    · have hne : base' ≠ q.base := fun he => hb (by simp [he])
      simp [Sys.setXalt, ha', hne]
    · obtain ⟨f, hf, rfl⟩ := List.mem_map.mp hev
      refine ⟨.inl rfl, fun base' hb => ?_⟩
      have hne : f.alt.base ≠ base' := by
        rintro rfl
        refine hb ?_
        simp only [List.mem_cons, List.not_mem_nil, or_false] at hf
        rcases hevs with ⟨h₁, h₂⟩ | ⟨h₁, h₂⟩ <;> rcases hf with rfl | rfl <;> simp [h₁, h₂]
      simp [transferOf, hne]
  have hoff : pl.Off u := by simp [Placement.Off, hu]
  have hplaced : Placed (a'.setXalt ⟨q.base, 0⟩ q) pl := h.placed.congr rfl rfl fun _ => rfl
  have hctx : ((a'.setXalt ⟨q.base, 0⟩ q |>.ready u).task u).context = .chanalt q.base := by
    rw [ready_context]
    exact (h.inAlt hu).1
  have htr : ([e, d].map (Event.chan c)).filterMap (transferOf q.base) = [q.idx] := by
    rcases hevs with ⟨h₁, h₂⟩ | ⟨h₁, h₂⟩ <;>
      simp [transferOf, h₁, h₂, Ne.symm hqb]
  have hcommitted : AltCommitted (a'.setXalt ⟨q.base, 0⟩ q |>.ready u) u q.base :=
    committed_of_waiting hw hq rfl rfl htr
  refine h.relocate (b := (a'.setXalt ⟨q.base, 0⟩ q).ready u) hF.ready (h.mem_live_iff rfl hu)
    (fun v base' hv hi hb => ?_) (hplaced.makeReady hoff)
    (h.onCpu.off_cpu rfl rfl (by simp [hu, Loc.cpu]) (by simp [Loc.cpu])) ?_ (fun _ => ?_)
    (fun v base' hv hi hia => ?_) (fun c' op hop => ?_) (fun c' => ?_) fun c' => hidle c'
  · rcases hb with rfl | rfl
    · exact hfresh v hi
    · exact hv (huniq v hi)
  · rintro _ ⟨⟩
    rw [Loc.fits, hctx]
    exact hcommitted
  · rw [ready_exiting]
    exact h.not_exiting hu
  · have hb : base' = q.base := by
      have := hi.1
      rw [hctx] at this
      cases this
      rfl
    exact hv (huniq v (hb ▸ hia))
  · refine ⟨hdeq.nodup c' op hop, fun p => ?_⟩
    rw [show ((a'.setXalt ⟨q.base, 0⟩ q |>.ready u).chan c').arr op = (chan c').arr op from rfl,
      hdeq.mem c' op hop, (h.queue c' op hop).2 p]
    simp only [Enqueued, h.exists_alt_update hu]
    constructor
    · rintro ⟨⟨hv, hrest⟩, hne⟩
      refine ⟨⟨hv, hne⟩, ?_⟩
      simpa [Sys.alt?, Sys.setXalt, Sys.ready, Sys.enq, Sys.emit, Sys.setTask, ha', hne] using hrest
    · rintro ⟨⟨hv, hne⟩, hrest⟩
      refine ⟨⟨hv, ?_⟩, hne⟩
      simpa [Sys.alt?, Sys.setXalt, Sys.ready, Sys.enq, Sys.emit, Sys.setTask, ha', hne] using hrest
  · have hlog : ((a'.setXalt ⟨q.base, 0⟩ q |>.ready u).log).filterMap (chanEvent c') =
        ([e, d].map (Event.chan c) ++ a.log).filterMap (chanEvent c') := rfl
    rw [hlog]
    exact hring c'

/-- The caller's branch is executed with the alt it is matched with. -/
theorem altexec_matched (h : Inv a pl) (hfresh : ∀ u, ¬InAlt a pl u base)
    (hx : a.alt? ⟨base, i⟩ = some x) (hop : x.op.queued)
    (hne : (a.chan x.c).arr (otherop x.op) ≠ []) (rand : ℕ) :
    ∃ b u e d base', altexecMatch ⟨base, i⟩ rand a = .ok (b, some u) ∧
      Inv (b.ready u) (update pl u (some .runqueue)) ∧ pl u = some (.alt base') ∧
      ChanOnly x.c [e, d] a b ∧ ([e, d].map (Event.chan x.c)).filterMap
          (transferOf base) = [i] := by
  obtain ⟨q, hq, hexec⟩ := altexecMatch_matched hx hop hne rand
  have hqb := h.base_ne hfresh hop.otherop hq
  obtain ⟨⟨u, hu⟩, hlt, y, hy, hyc, hyo⟩ := ((h.queue _ _ hop.otherop).2 q).mp hq
  have hw := h.altWaiting hu
  obtain ⟨hyt, hyx⟩ := hw.stamped q.idx hlt y hy
  have hnbuf : (a.chan x.c).nbuf = 0 ∨ 0 < (a.chan x.c).bufsize := by
    have := (h.ring x.c).nbuf_le
    omega
  obtain ⟨s₁, e, d, hok, hcop, hevs, hnb⟩ := altcopy_matched hx hop hy hyo (h.ring x.c) hnbuf
  have halts : s₁.alts = a.alts := by rw [hcop.eq]
  obtain ⟨chan₂, hdeq, hring, hd⟩ := altalldequeueFrom_ok (p := ⟨q.base, 0⟩)
    (show (s₁.alts q.base).drop 0 = s₁.alts q.base from rfl) (halts ▸ hw.terminated)
    (fun c op hop => by rw [copied_arr hcop]; exact (h.queue c op hop).1)
    (fun c op hop j => by rw [copied_arr hcop, halts]; exact h.queuedFrom hu c op hop j)
  have hmatch := hexec y s₁ _ hok ((hcop.alt? q).trans hy) (by rw [hyx]; exact hdeq)
  have hmem : Dequeued a.chan chan₂ fun p => p.base = q.base := by
    refine ⟨hd.nodup, fun c op hop p => ?_⟩
    rw [hd.mem c op hop, copied_arr hcop]
    simp
  have hchans : ∀ c, QueueInv (chan₂ c) := by
    intro c
    have hb : (chan₂ c).bufsize = (a.chan c).bufsize := by
      rw [bufsize_of_ring (hring c)]
      by_cases hc : c = x.c
      · subst hc
        exact hcop.bufsize
      · rw [hcop.other c hc]
    have hn : (chan₂ c).nbuf = (a.chan c).nbuf := by
      rw [nbuf_of_ring (hring c)]
      by_cases hc : c = x.c
      · subst hc
        exact hnb
      · rw [hcop.other c hc]
    exact queueInv_mono (h.idle c) hb hn
      (fun p hp => ((hmem.mem c .CHANSND (.inl rfl) p).mp hp).1)
      fun p hp => ((hmem.mem c .CHANRCV (.inr rfl) p).mp hp).1
  have hcommit := h.commit s₁.mem (c := x.c) (e := e) (d := d) hu hlt hfresh
    (by rcases hevs with ⟨h₁, h₂⟩ | ⟨h₁, h₂⟩
        · exact .inl ⟨by rw [h₁], h₂⟩
        · exact .inr ⟨h₁, by rw [h₂]⟩) hmem
    (fun c' => by
      have hr := h.copied_ring hcop c'
      rw [hcop.eq] at hr
      exact hr.congr (hring c')) hchans
  refine ⟨_, u, e, d, q.base, by rw [hmatch, hyt, hyx], ?_, hu, ?_, ?_⟩
  · rw [hcop.eq]
    exact hcommit
  · rw [hcop.eq]
    rfl
  · rcases hevs with ⟨h₁, h₂⟩ | ⟨h₁, h₂⟩ <;>
      simp [transferOf, h₁, h₂, hqb]

end Execute

section Block

theorem branch_op (hi : i < altlen (a.alts base)) :
    ∃ x, a.alt? ⟨base, i⟩ = some x ∧ (x.op = .CHANNOP ∨ x.op.queued) := by
  have hlen : altlen (a.alts base) ≤ (a.alts base).length := (List.takeWhile_prefix _).length_le
  have hx : (a.alts base)[i]? = some (a.alts base)[i] := List.getElem?_eq_getElem (by omega)
  refine ⟨_, hx, ?_⟩
  by_cases hn : (a.alts base)[i].op = .CHANNOP
  · exact .inl hn
  · exact .inr (queued_of_ne (not_altend_of_lt hi hx) hn)

/-- Queueing branches that cannot be executed leaves no queued alt that can. -/
theorem queueInv_branches (h : Inv a pl)
    (hcan : ∀ i < altlen (a.alts base), altcanexec a ⟨base, i⟩ = false) {y : Channel}
    (hring : y.ring = (a.chan c).ring) (harr : ∀ op, op.queued → y.arr op =
      (a.chan c).arr op ++ branches a base (List.range (altlen (a.alts base))) c op) :
    QueueInv y := by
  -- what a branch on this channel could not do when the call began
  have hno : ∀ op, op.queued → ∀ p ∈ branches a base (List.range (altlen (a.alts base))) c op,
      p.base = base ∧ ∃ x, a.alt? p = some x ∧ x.c = c ∧ x.op = op ∧ altcanexec a p = false := by
    intro op _ p hp
    obtain ⟨hb, hi, x, hx, hxc, hxo⟩ := mem_branches.mp hp
    refine ⟨hb, x, hx, hxc, hxo, ?_⟩
    have := hcan p.idx (List.mem_range.mp hi)
    rwa [← hb] at this
  have hsnd : y.asend = (a.chan c).asend ++ branches a base _ c .CHANSND := harr .CHANSND (.inl rfl)
  have hrcv : y.arecv = (a.chan c).arecv ++ branches a base _ c .CHANRCV := harr .CHANRCV (.inr rfl)
  have hle := (h.ring c).nbuf_le
  refine ⟨fun h0 hne => ?_, fun h0 hne => ?_, fun h0 p hp q hq => ?_⟩
  · rw [bufsize_of_ring hring] at h0
    rw [nbuf_of_ring hring, bufsize_of_ring hring]
    by_cases hold : (a.chan c).asend = []
    · rw [hsnd, hold, List.nil_append] at hne
      obtain ⟨p, hp⟩ := List.exists_mem_of_ne_nil _ hne
      obtain ⟨_, x, hx, rfl, hxo, hc⟩ := hno _ (.inl rfl) p hp
      rw [Bool.eq_false_iff, ne_eq, altcanexec_eq hx (.inl hxo), if_neg (by omega)] at hc
      by_contra hlt
      exact hc ⟨fun _ => by omega, by simp [hxo]⟩
    · exact (h.idle c).full h0 hold
  · rw [bufsize_of_ring hring] at h0
    rw [nbuf_of_ring hring]
    by_cases hold : (a.chan c).arecv = []
    · rw [hrcv, hold, List.nil_append] at hne
      obtain ⟨p, hp⟩ := List.exists_mem_of_ne_nil _ hne
      obtain ⟨_, x, hx, rfl, hxo, hc⟩ := hno _ (.inr rfl) p hp
      rw [Bool.eq_false_iff, ne_eq, altcanexec_eq hx (.inr hxo), if_neg (by omega)] at hc
      by_contra hlt
      exact hc ⟨by simp [hxo], fun _ => by omega⟩
    · exact (h.idle c).empty h0 hold
  · rw [bufsize_of_ring hring] at h0
    rw [hsnd, List.mem_append] at hp
    rw [hrcv, List.mem_append] at hq
    -- a new branch on one side means that the other side was empty
    have hnew : ∀ op, op.queued → ∀ p ∈ branches a base (List.range (altlen (a.alts base))) c op,
        (a.chan c).arr (otherop op) = [] := by
      intro op hop p hp
      obtain ⟨_, x, hx, rfl, rfl, hc⟩ := hno op hop p hp
      rw [Bool.eq_false_iff, ne_eq, altcanexec_eq hx hop, if_pos h0, not_not] at hc
      exact hc
    rcases hp with hp | hp <;> rcases hq with hq | hq
    · exact (h.idle c).solo h0 p hp q hq
    · have := hnew .CHANRCV (.inr rfl) q hq
      exact absurd (this : (a.chan c).asend = []) (List.ne_nil_of_mem hp)
    · have := hnew .CHANSND (.inl rfl) p hp
      exact absurd (this : (a.chan c).arecv = []) (List.ne_nil_of_mem hq)
    · rw [(hno _ (.inl rfl) p hp).1, (hno _ (.inr rfl) q hq).1]

theorem altblock {log : List Event} (h : Inv a pl) (ht : pl t = some .user)
    (hfresh : ∀ u, ¬InAlt a pl u base) (hend : ∃ x ∈ a.alts base, isAltend x.op)
    (hstamp : ∀ i < altlen (a.alts base), ∀ x, (a.alts base)[i]? = some x →
      x.task = t ∧ x.xalt = ⟨base, 0⟩)
    (hcan : ∀ i < altlen (a.alts base), altcanexec a ⟨base, i⟩ = false)
    (hlog : a.log = .altcall t base :: log) :
    ∃ b, altqueueAll base (List.range (altlen (a.alts base))) a = .ok b ∧
      Inv (b.switch (.chanalt base) t) (update pl t (some (.alt base))) := by
  have hbranch : ∀ i ∈ List.range (altlen (a.alts base)), ∃ x, a.alt? ⟨base, i⟩ = some x ∧
      (x.op = .CHANNOP ∨ x.op.queued) := fun i hi => branch_op (List.mem_range.mp hi)
  obtain ⟨chan', hok, hring, harr⟩ := altqueueAll_ok hbranch
  refine ⟨_, hok, ?_⟩
  have hF : Frame (some t) ∅ a (({ a with chan := chan' } : Sys Queues).switch (.chanalt base) t) :=
    .switch (.same rfl rfl rfl rfl)
  have hctx : ((({ a with chan := chan' } : Sys Queues).switch (.chanalt base) t).task t).context =
      .chanalt base := by rw [Sys.switch_self]
  have hoff : pl.Off t := by simp [Placement.Off, ht]
  have hplaced : Placed (({ a with chan := chan' } : Sys Queues).switch (.chanalt base) t) pl :=
    h.placed.congr rfl rfl fun _ => Sys.switch_ready
  refine h.relocate hF (h.mem_live_iff rfl ht) (by simp) (hplaced.off hoff (by simp) (by simp))
    (h.onCpu.leave rfl rfl ht (.inl rfl) (by simp [Loc.cpu])) ?_ (fun _ => ?_)
    (fun u base' _ hi => ?_) (fun c op hop => ?_) (fun c => (h.ring c).congr (hring c)) fun c => ?_
  · rintro _ ⟨⟩
    refine ⟨by rw [hctx]; rfl, ?_⟩
    rw [hctx]
    refine ⟨hend, hstamp, ?_, ?_⟩
    · simp [transfers, Sys.switch, Sys.setTask, hlog]
    · simp [readied, Sys.switch, Sys.setTask, hlog]
  · simpa using h.not_exiting ht
  · have hb := hi.1
    rw [hctx] at hb
    cases hb
    exact hfresh u
  · rw [show ((({ a with chan := chan' } : Sys Queues).switch (.chanalt base) t).chan c).arr op =
      (chan' c).arr op from rfl, harr c op hop]
    refine ⟨List.nodup_append.mpr ⟨(h.queue c op hop).1, nodup_branches List.nodup_range, ?_⟩,
      fun p => ?_⟩
    · rintro p hp _ hp' rfl
      exact h.base_ne hfresh hop hp (mem_branches.mp hp').1
    · rw [List.mem_append, (h.queue c op hop).2, mem_branches, List.mem_range]
      have hplace : (∃ v, update pl t (some (.alt base)) v = some (.alt p.base)) ↔
          (∃ v, pl v = some (.alt p.base)) ∨ p.base = base := by
        constructor
        · rintro ⟨v, hv⟩
          by_cases hvt : v = t
          · subst hvt
            rw [update_self, Option.some.injEq, Loc.alt.injEq] at hv
            exact .inr hv.symm
          · rw [update_of_ne hvt] at hv
            exact .inl ⟨v, hv⟩
        · rintro (⟨v, hv⟩ | rfl)
          · refine ⟨v, ?_⟩
            rw [update_of_ne, hv]
            rintro rfl
            rw [ht] at hv
            cases hv
          · exact ⟨t, by simp⟩
      have halt : ∀ p, (({ a with chan := chan' } : Sys Queues).switch (.chanalt base) t).alt? p =
          a.alt? p := fun _ => rfl
      simp only [Enqueued, hplace, halt]
      constructor
      · rintro (⟨hv, hrest⟩ | ⟨rfl, hi, hx⟩)
        · exact ⟨.inl hv, hrest⟩
        · exact ⟨.inr rfl, hi, hx⟩
      · rintro ⟨hv | rfl, hi, hx⟩
        · exact .inl ⟨hv, hi, hx⟩
        · exact .inr ⟨rfl, hi, hx⟩
  · exact h.queueInv_branches hcan (hring c) (harr c)

end Block
end Inv
end Libtask
