import Libtask.Abstract.Calls
import Libtask.ChannelSpec

/-! The invariant of the abstract machine: every live task is in one place that fits the call
it is in, and the channel queues hold the branches of the blocked alts. The rules below say
what it takes to keep it when one task goes from one place to another. -/
namespace Libtask
open Function

variable {σ : Type}

/-- The context of `t` goes with the place `loc`. -/
def Loc.fits (a : Sys σ) (t : TaskPtr) : Loc → Prop
  | .user => True
  | .resuming | .list .taskrunqueue => (a.task t).context.granted a t
  | loc => (a.task t).context.home = some loc ∧ (a.task t).context.waiting a t

def Loc.cpu (loc : Loc) : Prop := loc = .user ∨ loc = .resuming

/-- Control is where the placement has the running task. -/
structure OnCpu (a : Sys σ) (pl : Placement) : Prop where
  running : ∀ t, a.taskrunning = some t ↔ ∃ loc, pl t = some loc ∧ loc.cpu
  scheduler : a.control = .scheduler → a.taskrunning = none
  user : a.control = .user → ∃ t, pl t = some .user
  resume : a.control = .resume → ∃ t, pl t = some .resuming

/-- `t` is in a call of `chanalt` on the array `base`. -/
def InAlt (a : Sys σ) (pl : Placement) (t : TaskPtr) (base : ℕ) : Prop :=
  (a.task t).context = .chanalt base ∧ pl t ≠ none ∧ pl t ≠ some .user

/-- `p` is a branch on channel `c` and direction `op` of a blocked alt. -/
def Enqueued (a : Sys σ) (pl : Placement) (c : ℕ) (op : Op) (p : AltPtr) : Prop :=
  (∃ t, pl t = some (.alt p.base)) ∧ p.idx < altlen (a.alts p.base) ∧
    ∃ x, a.alt? p = some x ∧ x.c = c ∧ x.op = op

structure Inv (a : Sys Queues) (pl : Placement) : Prop where
  placed : Placed a pl
  live : ∀ t, pl t = none ↔ t ∉ a.live
  onCpu : OnCpu a pl
  fits : ∀ t loc, pl t = some loc → loc.fits a t
  exiting : ∀ t ∈ a.live, (a.task t).exiting = false
  unique : ∀ t u base, InAlt a pl t base → InAlt a pl u base → t = u
  queue : ∀ c op, op.queued → ((a.chan c).arr op).Nodup ∧
    ∀ p, p ∈ (a.chan c).arr op ↔ Enqueued a pl c op p
  ring : ∀ c, RingInv (a.chan c) (a.log.filterMap (chanEvent c))
  idle : ∀ c, QueueInv (a.chan c)

namespace Frame
variable {o : Option TaskPtr} {B : Set ℕ} {a b : Sys σ} {t : TaskPtr} {loc : Loc}

theorem fits (h : Frame o B a b) (ht : some t ≠ o)
    (hB : loc ≠ .user → ∀ base ∈ B, (a.task t).context ≠ .chanalt base) :
    loc.fits b t ↔ loc.fits a t := by
  by_cases hu : loc = .user
  · subst hu
    rfl
  · have hg := h.granted ht (a.task t).context (hB hu)
    have hw := h.waiting ht (a.task t).context (hB hu)
    unfold Loc.fits
    split <;> simp only [h.context t ht, hg, hw]

theorem alts_eq (h : Frame o ∅ a b) : b.alts = a.alts :=
  funext fun base => h.alts base (by simp)

theorem chanlog_eq (h : Frame o ∅ a b) (c : ℕ) :
    b.log.filterMap (chanEvent c) = a.log.filterMap (chanEvent c) := by
  obtain ⟨new, hl, hn⟩ := h.log
  rw [hl, List.filterMap_append, List.filterMap_eq_nil_iff.mpr, List.nil_append]
  intro e he
  have ht := (hn e he).2
  cases e with
  | chan c' e => exact absurd (ht e.alt.base (by simp)) (by simp [transferOf])
  | _ => rfl

end Frame

namespace OnCpu
variable {a b : Sys σ} {pl : Placement} {t u : TaskPtr} {loc loc' : Loc}

theorem congr (h : OnCpu a pl) (hr : b.taskrunning = a.taskrunning) (hc : b.control = a.control) :
    OnCpu b pl where
  running := by rw [hr]; exact h.running
  scheduler := by rw [hr, hc]; exact h.scheduler
  user := by rw [hc]; exact h.user
  resume := by rw [hc]; exact h.resume

theorem eq_of_cpu (h : OnCpu a pl) (ht : pl t = some loc) (hl : loc.cpu) (hu : pl u = some loc')
    (hl' : loc'.cpu) : u = t := by
  have h₁ := (h.running t).mpr ⟨loc, ht, hl⟩
  have h₂ := (h.running u).mpr ⟨loc', hu, hl'⟩
  exact Option.some.inj (h₂.symm.trans h₁)

theorem of_user (h : OnCpu a pl) (hu : a.User t) : pl t = some .user := by
  obtain ⟨u, hp⟩ := h.user hu.2
  have hr := (h.running u).mpr ⟨_, hp, .inl rfl⟩
  rwa [Option.some.inj (hu.1.symm.trans hr)]

theorem of_resuming {c : Context} (h : OnCpu a pl) (hu : a.Resuming t c) :
    pl t = some .resuming := by
  obtain ⟨u, hp⟩ := h.resume hu.2.1
  have hr := (h.running u).mpr ⟨_, hp, .inr rfl⟩
  rwa [Option.some.inj (hu.1.symm.trans hr)]

/-- A task moves and the CPU is not concerned. -/
theorem off_cpu (h : OnCpu a pl) (hr : b.taskrunning = a.taskrunning)
    (hc : b.control = a.control) (ht : ∀ loc, pl t = some loc → ¬loc.cpu) (hl' : ¬loc'.cpu) :
    OnCpu b (update pl t (some loc')) where
  running u := by
    rw [hr, h.running]
    by_cases hu : u = t
    · subst hu
      simp only [update_self, Option.some.injEq, exists_eq_left']
      exact ⟨fun ⟨l, hp, hl⟩ => absurd hl (ht l hp), fun hc => absurd hc hl'⟩
    · rw [update_of_ne hu]
  scheduler := by rw [hr, hc]; exact h.scheduler
  user hcu := by
    obtain ⟨u, hp⟩ := h.user (hc ▸ hcu)
    refine ⟨u, ?_⟩
    rw [update_of_ne, hp]
    rintro rfl
    exact ht _ hp (.inl rfl)
  resume hcr := by
    obtain ⟨u, hp⟩ := h.resume (hc ▸ hcr)
    refine ⟨u, ?_⟩
    rw [update_of_ne, hp]
    rintro rfl
    exact ht _ hp (.inr rfl)

theorem leave {o : Option Loc} (h : OnCpu a pl) (hr : b.taskrunning = none)
    (hc : b.control = .scheduler) (ht : pl t = some loc) (hl : loc.cpu)
    (ho : ∀ loc', o = some loc' → ¬loc'.cpu) : OnCpu b (update pl t o) where
  running u := by
    rw [hr]
    refine ⟨nofun, fun ⟨l, hp, hlc⟩ => ?_⟩
    by_cases hu : u = t
    · subst hu
      exact absurd hlc (ho l (by simpa using hp))
    · rw [update_of_ne hu] at hp
      exact absurd (h.eq_of_cpu ht hl hp hlc) hu
  scheduler _ := hr
  user hcu := by rw [hc] at hcu; cases hcu
  resume hcr := by rw [hc] at hcr; cases hcr

theorem back (h : OnCpu a pl) (hr : b.taskrunning = a.taskrunning) (hc : b.control = .user)
    (ht : pl t = some loc) (hl : loc.cpu) : OnCpu b (update pl t (some .user)) where
  running u := by
    rw [hr, h.running]
    by_cases hu : u = t
    · subst hu
      simp only [update_self, Option.some.injEq, exists_eq_left']
      exact ⟨fun _ => .inl rfl, fun _ => ⟨loc, ht, hl⟩⟩
    · rw [update_of_ne hu]
  scheduler hcs := by rw [hc] at hcs; cases hcs
  user _ := ⟨t, by simp⟩
  resume hcr := by rw [hc] at hcr; cases hcr

theorem dispatch (h : OnCpu a pl) (ha : a.taskrunning = none) (hr : b.taskrunning = some t)
    (hc : b.control = .resume) : OnCpu b (update pl t (some .resuming)) where
  running u := by
    have hu0 := h.running u
    rw [ha] at hu0
    rw [hr]
    by_cases hu : u = t
    · subst hu
      simp [Loc.cpu]
    · rw [update_of_ne hu, ← hu0]
      simp [Ne.symm hu]
  scheduler hcs := by rw [hc] at hcs; cases hcs
  user hcu := by rw [hc] at hcu; cases hcu
  resume _ := ⟨t, by simp⟩

end OnCpu

namespace Inv
variable {a b : Sys Queues} {pl : Placement} {t u : TaskPtr} {loc loc' : Loc} {o : Option Loc}

theorem mem_live (h : Inv a pl) (ht : pl t = some loc) : t ∈ a.live := by
  by_contra hn
  rw [(h.live t).mpr hn] at ht
  cases ht

theorem not_exiting (h : Inv a pl) (ht : pl t = some loc) : (a.task t).exiting = false :=
  h.exiting t (h.mem_live ht)

/-- Only the places of blocked alts and the arrays matter to the channel queues. -/
theorem enqueued_congr {pl' : Placement} {c : ℕ} {op : Op} {p : AltPtr} (ha : b.alts = a.alts)
    (hpl : ∀ base, (∃ u, pl' u = some (.alt base)) ↔ ∃ u, pl u = some (.alt base)) :
    Enqueued b pl' c op p ↔ Enqueued a pl c op p := by
  simp only [Enqueued, Sys.alt?, ha, hpl]

/-- One task, `t`, goes to `o`; the arrays in `B` may change if no other task is in an alt of
one. -/
theorem relocate {B : Set ℕ} (h : Inv a pl) (hF : Frame (some t) B a b)
    (hlive : ∀ u, u ∈ b.live ↔ if u = t then o.isSome else u ∈ a.live)
    (hB : ∀ u base, u ≠ t → InAlt a pl u base → base ∉ B) (hp : Placed b (update pl t o))
    (hcpu : OnCpu b (update pl t o)) (hfit : ∀ loc, o = some loc → loc.fits b t)
    (hex : o.isSome → (b.task t).exiting = false)
    (hin : ∀ u base, u ≠ t → InAlt b (update pl t o) t base → ¬InAlt a pl u base)
    (hq : ∀ c op, op.queued → ((b.chan c).arr op).Nodup ∧
      ∀ p, p ∈ (b.chan c).arr op ↔ Enqueued b (update pl t o) c op p)
    (hring : ∀ c, RingInv (b.chan c) (b.log.filterMap (chanEvent c)))
    (hidle : ∀ c, QueueInv (b.chan c)) : Inv b (update pl t o) where
  placed := hp
  live u := by
    rw [hlive]
    by_cases hu : u = t
    · subst hu
      simp
    · simp [hu, h.live u]
  onCpu := hcpu
  fits u l hu := by
    by_cases hut : u = t
    · subst hut
      rw [update_self] at hu
      exact hfit l hu
    · rw [update_of_ne hut] at hu
      refine (hF.fits (by simpa using hut) fun hl base hb hc => ?_).mpr (h.fits u l hu)
      refine hB u base hut ⟨hc, by simp [hu], fun hpu => hl ?_⟩ hb
      rw [hu] at hpu
      exact Option.some.inj hpu
  exiting u hu := by
    rw [hlive] at hu
    by_cases hut : u = t
    · subst hut
      exact hex (by simpa using hu)
    · rw [hF.exiting u (by simpa using hut)]
      exact h.exiting u (by simpa [hut] using hu)
  unique u v base hu hv := by
    have hto : ∀ w, w ≠ t → InAlt b (update pl t o) w base → InAlt a pl w base := by
      intro w hwt hw
      simpa only [InAlt, hF.context w (by simpa using hwt), update_of_ne hwt] using hw
    by_cases hut : u = t
    · by_cases hvt : v = t
      · rw [hut, hvt]
      · exact absurd (hto v hvt hv) (hin v base hvt (hut ▸ hu))
    · by_cases hvt : v = t
      · exact absurd (hto u hut hu) (hin u base hut (hvt ▸ hv))
      · exact h.unique u v base (hto u hut hu) (hto v hvt hv)
  queue := hq
  ring := hring
  idle := hidle

/-- One task goes to `o`, and it neither enters nor leaves an alt. -/
theorem move (h : Inv a pl) (hF : Frame (some t) ∅ a b) (hchan : b.chan = a.chan)
    (hlive : ∀ u, u ∈ b.live ↔ if u = t then o.isSome else u ∈ a.live)
    (ht : ∀ base, pl t ≠ some (.alt base)) (ho : ∀ base, o ≠ some (.alt base))
    (hp : Placed b (update pl t o)) (hcpu : OnCpu b (update pl t o))
    (hfit : ∀ loc, o = some loc → loc.fits b t) (hex : o.isSome → (b.task t).exiting = false)
    (hin : ∀ base, InAlt b (update pl t o) t base → InAlt a pl t base) :
    Inv b (update pl t o) := by
  refine h.relocate hF hlive (by simp) hp hcpu hfit hex (fun u base hu hi hia => ?_)
    (fun c op hop => ?_) (fun c => ?_) fun c => ?_
  · exact hu (h.unique u t base hia (hin base hi))
  · have hpl : ∀ base, (∃ u, update pl t o u = some (.alt base)) ↔
        ∃ u, pl u = some (.alt base) := by
      intro base
      constructor
      · rintro ⟨u, hu⟩
        by_cases hut : u = t
        · subst hut
          rw [update_self] at hu
          exact absurd hu (ho base)
        · rw [update_of_ne hut] at hu
          exact ⟨u, hu⟩
      · rintro ⟨u, hu⟩
        refine ⟨u, ?_⟩
        rw [update_of_ne, hu]
        rintro rfl
        exact ht base hu
    simp only [hchan, enqueued_congr hF.alts_eq hpl]
    exact h.queue c op hop
  · rw [hchan, hF.chanlog_eq]
    exact h.ring c
  · rw [hchan]
    exact h.idle c

theorem mem_live_iff (h : Inv a pl) (hlive : b.live = a.live) (ht : pl t = some loc) (u : TaskPtr) :
    u ∈ b.live ↔ if u = t then (some loc').isSome else u ∈ a.live := by
  rw [hlive]
  by_cases hu : u = t
  · subst hu
    simp [h.mem_live ht]
  · simp [hu]

/-- Nothing that the invariant speaks of changes, but perhaps who has control. -/
theorem quiet (h : Inv a pl) (hF : Frame none ∅ a b) (hchan : b.chan = a.chan)
    (hlive : b.live = a.live) (hl : b.links = a.links) (hp : b.polls = a.polls)
    (hr : ∀ t, (b.task t).ready = (a.task t).ready) (hcpu : OnCpu b pl) : Inv b pl where
  placed := h.placed.congr hl hp hr
  live t := by rw [hlive]; exact h.live t
  onCpu := hcpu
  fits t loc ht := (hF.fits (by simp) (by simp)).mpr (h.fits t loc ht)
  exiting t ht := by
    rw [hF.exiting t (by simp)]
    exact h.exiting t (hlive ▸ ht)
  unique t u base ht hu := by
    simp only [InAlt, hF.context _ (Option.some_ne_none _)] at ht hu
    exact h.unique t u base ht hu
  queue c op hop := by
    simp only [hchan, enqueued_congr hF.alts_eq fun _ => Iff.rfl]
    exact h.queue c op hop
  ring c := by
    rw [hchan, hF.chanlog_eq]
    exact h.ring c
  idle c := by
    rw [hchan]
    exact h.idle c

theorem stay (h : Inv a pl) (ht : pl t = some .user) (hF : Frame (some t) ∅ a b)
    (hchan : b.chan = a.chan) (hlive : b.live = a.live) (hl : b.links = a.links)
    (hp : b.polls = a.polls) (hr : ∀ u, (b.task u).ready = (a.task u).ready)
    (hex : (b.task t).exiting = (a.task t).exiting) (hrun : b.taskrunning = a.taskrunning)
    (hc : b.control = a.control) : Inv b pl := by
  have hpl : update pl t (some .user) = pl := by rw [← ht, update_eq_self]
  have hm := h.move (o := some .user) hF hchan (h.mem_live_iff hlive ht) (by simp [ht]) (by simp)
    (hpl.symm ▸ h.placed.congr hl hp hr) (hpl.symm ▸ h.onCpu.congr hrun hc)
    (fun loc hl => by cases hl; trivial) (fun _ => hex.trans (h.not_exiting ht))
    fun base hi => absurd (by simp) hi.2.2
  rwa [hpl] at hm

theorem back (h : Inv a pl) (ht : pl t = some .resuming) (hF : Frame (some t) ∅ a b)
    (hchan : b.chan = a.chan) (hlive : b.live = a.live) (hl : b.links = a.links)
    (hp : b.polls = a.polls) (hr : ∀ u, (b.task u).ready = (a.task u).ready)
    (hex : (b.task t).exiting = (a.task t).exiting) (hrun : b.taskrunning = a.taskrunning)
    (hc : b.control = .user) : Inv b (update pl t (some .user)) :=
  h.move hF hchan (h.mem_live_iff hlive ht) (by simp [ht]) (by simp)
    ((h.placed.congr hl hp hr).off (by simp [Placement.Off, ht]) (by simp) (by simp))
    (h.onCpu.back hrun hc ht (.inr rfl)) (fun loc hl => by cases hl; trivial)
    (fun _ => hex.trans (h.not_exiting ht)) fun base hi => absurd (by simp) hi.2.2

theorem makeReady (h : Inv a pl) (hu : pl u = some loc) (hcpu : ¬loc.cpu)
    (hloc : ∀ base, loc ≠ .alt base) (hF : Frame (some u) ∅ a b) (hchan : b.chan = a.chan)
    (hlive : b.live = a.live) (hp : Placed b (update pl u (some .runqueue)))
    (hrun : b.taskrunning = a.taskrunning) (hc : b.control = a.control)
    (hctx : (b.task u).context = (a.task u).context)
    (hex : (b.task u).exiting = (a.task u).exiting) (hg : (a.task u).context.granted b u) :
    Inv b (update pl u (some .runqueue)) := by
  refine h.move hF hchan (h.mem_live_iff hlive hu) (by simpa [hu] using hloc) (by simp) hp
    (h.onCpu.off_cpu hrun hc (by simpa [hu] using hcpu) (by simp [Loc.cpu])) ?_
    (fun _ => hex.trans (h.not_exiting hu)) fun base hi => ⟨hctx ▸ hi.1, by simp [hu], ?_⟩
  · rintro _ ⟨⟩
    simpa only [Loc.fits, hctx] using hg
  · rw [hu]
    rintro ⟨⟩
    exact hcpu (.inl rfl)

/-- The running task is switched out and goes to `loc'`, which is no alt. -/
theorem leave (h : Inv a pl) (ht : pl t = some loc) (hcpu : loc.cpu) (hF : Frame (some t) ∅ a b)
    (hchan : b.chan = a.chan) (hlive : b.live = a.live)
    (hp : Placed b (update pl t (some loc'))) (hcpu' : ¬loc'.cpu) (hloc' : ∀ base, loc' ≠ .alt base)
    (hrun : b.taskrunning = none) (hc : b.control = .scheduler)
    (hex : (b.task t).exiting = (a.task t).exiting) (hfit : loc'.fits b t)
    (hctx : ∀ base, (b.task t).context ≠ .chanalt base) : Inv b (update pl t (some loc')) := by
  refine h.move hF hchan (h.mem_live_iff hlive ht) (fun base hb => ?_) (by simpa using hloc') hp
    (h.onCpu.leave hrun hc ht hcpu (by simpa using hcpu')) (by rintro _ ⟨⟩; exact hfit)
    (fun _ => hex.trans (h.not_exiting ht)) fun base hi => absurd hi.1 (hctx base)
  rw [ht] at hb
  cases hb
  rcases hcpu with h | h <;> cases h

/-- A live task that waits for nobody has the CPU or will get it. -/
theorem running_or_queued (h : Inv a pl) (ht : t ∈ a.live)
    (hx : (a.task t).context.home = none) :
    a.taskrunning = some t ∨ t ∈ a.links .taskrunqueue := by
  obtain ⟨loc, hloc⟩ := Option.ne_none_iff_exists'.mp (mt (h.live t).mp (not_not.mpr ht))
  have hfit := h.fits t loc hloc
  unfold Loc.fits at hfit
  split at hfit
  · exact .inl ((h.onCpu.running t).mpr ⟨_, hloc, .inl rfl⟩)
  · exact .inl ((h.onCpu.running t).mpr ⟨_, hloc, .inr rfl⟩)
  · exact .inr (h.placed.mem_list.mpr hloc)
  · rw [hx] at hfit
    cases hfit.1

/-- A task that is neither on the CPU nor on the run queue waits where its call has it. -/
theorem switched_out (h : Inv a pl) (t : TaskPtr) (loc : Loc) :
    (t ∈ a.live ∧ a.taskrunning ≠ some t ∧ (a.task t).ready = false) ∧
        (a.task t).context.home = some loc ↔
      pl t = some loc ∧ ¬loc.cpu ∧ loc ≠ .runqueue := by
  constructor
  · intro ⟨⟨hl, hr, hq⟩, hhome⟩
    obtain ⟨loc', hloc⟩ := Option.ne_none_iff_exists'.mp (mt (h.live t).mp (not_not.mpr hl))
    have hcpu : ¬loc'.cpu := fun hcpu => hr ((h.onCpu.running t).mpr ⟨loc', hloc, hcpu⟩)
    have hqueue : loc' ≠ .runqueue := by
      intro hl'
      rw [h.placed.ready, hloc, hl'] at hq
      simp at hq
    have hfit := h.fits t loc' hloc
    unfold Loc.fits at hfit
    split at hfit
    · exact absurd (.inl rfl) hcpu
    · exact absurd (.inr rfl) hcpu
    · exact absurd rfl hqueue
    · obtain rfl : loc = loc' := Option.some.inj (hhome.symm.trans hfit.1)
      exact ⟨hloc, hcpu, hqueue⟩
  · intro ⟨hloc, hcpu, hqueue⟩
    refine ⟨⟨h.mem_live hloc, ?_, ?_⟩, ?_⟩
    · intro hr
      obtain ⟨loc', hloc', hcpu'⟩ := (h.onCpu.running t).mp hr
      rw [hloc] at hloc'
      exact hcpu (Option.some.inj hloc' ▸ hcpu')
    · rw [h.placed.ready, hloc]
      simpa using hqueue
    · have hfit := h.fits t loc hloc
      unfold Loc.fits at hfit
      split at hfit
      · exact absurd (.inl rfl) hcpu
      · exact absurd (.inr rfl) hcpu
      · exact absurd rfl hqueue
      · exact hfit.1

end Inv
end Libtask
