import Libtask.PointToPoint
import Libtask.Properties.Placement

/-! Programs of point-to-point tasks make the transfers of their dataflow network, whichever ready
task is dispatched. -/
namespace Libtask
open Function Relation Runs Dataflow

section Pick
variable {s : Sys Links} {a : Sys Queues} {pl : Placement} {t : TaskPtr} {xs ys : List TaskPtr}

/-- The order of the run queue does not matter to the invariant. -/
theorem Inv.toFront (h : Inv a pl) (hq : a.links .taskrunqueue = xs ++ t :: ys) :
    Inv (a.withLinks (update a.links .taskrunqueue (t :: (xs ++ ys)))) pl where
  placed := by
    refine ⟨fun k u => ?_, h.placed.poll, h.placed.ready⟩
    rw [← h.placed.list k u, Sys.withLinks]
    by_cases hk : k = .taskrunqueue
    · subst hk
      simp only [update_self, hq]
      exact List.perm_middle.symm.count_eq u
    · simp only [update_of_ne hk]
  live := h.live
  onCpu := h.onCpu.congr rfl rfl
  fits u loc hu := by
    have hF : Frame none ∅ a (a.withLinks (update a.links .taskrunqueue (t :: (xs ++ ys)))) :=
      .same rfl rfl rfl rfl
    exact (hF.fits (by simp) (by simp)).mpr (h.fits u loc hu)
  exiting := h.exiting
  unique := h.unique
  queue := h.queue
  ring := h.ring
  idle := h.idle

/-- Whichever ready task is dispatched, the lists stay as they should be. -/
theorem Sim.pick (h : Sim s a) (hI : Inv a pl) (hc : s.control = .scheduler)
    (hr : (s.task t).ready = true) : ∃ b pl', Sim (taskschedulerPick t s) b ∧ Inv b pl' := by
  unfold taskschedulerPick
  split
  · exact ⟨_, pl, h.setControl _, hI.halt _⟩
  · obtain ⟨q, hrep, rfl⟩ := h
    have ht : t ∈ q .taskrunqueue := by
      refine hI.placed.mem_list.mpr ?_
      have hready := hI.placed.ready t
      rw [show ((s.withLinks q).task t).ready = true from hr] at hready
      simpa using hready.symm
    obtain ⟨xs, ys, hq⟩ := List.append_of_mem ht
    have hfront := hI.toFront hq
    have hhead : ((s.withLinks q).withLinks (update q .taskrunqueue (t :: (xs ++ ys)))).links
        .taskrunqueue = t :: (xs ++ ys) := by simp [Sys.withLinks]
    refine ⟨_, _, ⟨_, hrep.deltask hq, ?_⟩, hfront.dispatch hc hhead⟩
    simp [Sys.dispatch, Sys.withLinks, Sys.emit, Sys.setTask, Sys.deq, Libtask.deltask]

end Pick

/-- A task of the program that is not in user code: it has not begun, lets others run, or is in
a call on a channel. -/
def AtEase (x : Task) : Prop :=
  (x.context = .taskstart ∧ x.startfn = .user) ∨ (∃ n, x.context = .taskyield n) ∨
    ∃ base, x.context = .chanalt base

/-- An event that is neither a transfer nor the start of a call on a channel. -/
def Event.aside : Event → Prop
  | .chan _ _ | .altcall _ _ => False
  | _ => True

namespace AltBlocked
variable {σ : Type} {s s' : Sys σ} {u : TaskPtr} {base base' : ℕ} {old : List Event}

/-- Since a blocked task began its call no branch of it has been in a transfer. -/
theorem transfers_nil (h : AltBlocked s u base) (new : List Event) (hlog : s.log = new ++ old)
    (hnew : .altcall u base ∉ new) :
    new.filterMap (transferOf base) = [] ∧ transfers u base old = [] := by
  have htr := h.2.2.2
  rw [transfers, hlog, since_append hnew, List.filterMap_append] at htr
  exact List.append_eq_nil_iff.mp htr

/-- A task that is blocked in a call it did not just begin was blocked in it before. -/
theorem before (h : AltBlocked s' u base) (new : List Event) (hl : u ∈ s.live)
    (hr : s.taskrunning ≠ some u) (hc : (s'.task u).context = (s.task u).context)
    (hlog : s'.log = new ++ s.log) (hnew : .altcall u base ∉ new) : AltBlocked s u base :=
  ⟨hl, hr, hc.symm.trans h.2.2.1, (h.transfers_nil new hlog hnew).2⟩

theorem not_transferred (h : AltBlocked s u base) (new : List Event) (hlog : s.log = new ++ old)
    (hnew : .altcall u base ∉ new) {c : ℕ} {e : ChanEvent} (he : .chan c e ∈ new) :
    e.alt.base ≠ base := by
  intro hb
  have hnone := List.filterMap_eq_nil_iff.mp (h.transfers_nil new hlog hnew).1 _ he
  simp [transferOf, hb] at hnone

theorem base_eq (h : AltBlocked s u base) (h' : AltBlocked s u base') : base = base' := by
  have hctx := h.2.2.1.symm.trans h'.2.2.1
  cases hctx
  rfl

end AltBlocked

namespace PointToPoint
variable (N : PointToPoint)

/-- `t` waits in the alt of `base` for the transfer that is due. -/
def Waits (s : Sys Links) (t : TaskPtr) (base : ℕ) : Prop :=
  ∃ x y, s.alts base = [x, y] ∧ y.op = .CHANEND ∧ N.Due s t x.c x.op x.v

/-- `t` runs code of its own, or a call of its has ended in a fault. -/
def OnItsOwn (s : Sys Links) (t : TaskPtr) : Prop :=
  s.taskrunning = some t ∧ (s.control = .user ∨ s.control = .halted .fault)

/-- What the program has done since `s₀` are transfers of its network, and each blocked task
waits for the one that is due. -/
structure Follows (s₀ s : Sys Links) : Prop where
  sim : ∃ a pl, Sim s a ∧ Inv a pl
  kept : ∀ c, Kept (s.chan c) (s.log.filterMap (chanEvent c))
  bufsize : ∀ c, (s.chan c).bufsize = (s₀.chan c).bufsize
  fires : ReflTransGen (N.Fire fun c => (s₀.chan c).bufsize) (N.history s₀.log) (N.history s.log)
  gone : ∀ t ∉ s.live, N.next t (N.history s.log t) = .stop
  task : ∀ t ∈ s.live, OnItsOwn s t ∨ AtEase (s.task t)
  waits : ∀ t base, AltBlocked s t base → N.Waits s t base

variable {N} {s₀ s s' : Sys Links} {t u : TaskPtr} {c base : ℕ} {op : Op} {v : Option ℕ}
  {new : List Event}

theorem doneBy_aside {e : Event} (h : e.aside) (t : TaskPtr) : N.doneBy t e = none := by
  cases e with
  | chan => cases h
  | _ => rfl

/-- Events that are no transfers add nothing to the history. -/
theorem history_congr (hlog : s'.log = new ++ s.log)
    (hnew : ∀ e ∈ new, ∀ t, N.doneBy t e = none) : N.history s'.log = N.history s.log := by
  funext t
  have hnil : hist (N.doneBy t) new = [] := by
    rw [hist, List.filterMap_eq_nil_iff.mpr fun e he => hnew e he t, List.reverse_nil]
  rw [history, hlog, hist_append, hnil, List.append_nil, history]

theorem chanEvents_aside (hlog : s'.log = new ++ s.log) (hnew : ∀ e ∈ new, e.aside) (c : ℕ) :
    s'.log.filterMap (chanEvent c) = s.log.filterMap (chanEvent c) := by
  have hnil : new.filterMap (chanEvent c) = [] := by
    refine List.filterMap_eq_nil_iff.mpr fun e he => ?_
    have haside := hnew e he
    cases e with
    | chan => cases haside
    | _ => rfl
  rw [hlog, List.filterMap_append, hnil, List.nil_append]

theorem Due.congr (h : N.Due s t c op v)
    (hmem : ∀ x, (∀ u ≠ t, x ∉ N.writes u) → s'.mem x = s.mem x)
    (hsize : (s'.chan c).elemsize = (s.chan c).elemsize)
    (hhist : N.history s'.log t = N.history s.log t) : N.Due s' t c op v where
  source := by
    rw [hsize]
    exact h.source
  dest := by
    rw [hsize]
    exact h.dest
  queued := h.queued
  send ho := by
    rw [hhist, hsize, h.send ho, amoveSource_congr fun x hx => hmem x
      fun u hu => h.source ho u hu x hx]
  recv ho := by
    rw [hhist, h.recv ho]

theorem Waits.congr (h : N.Waits s t base) (halts : s'.alts base = s.alts base)
    (hmem : ∀ x, (∀ u ≠ t, x ∉ N.writes u) → s'.mem x = s.mem x)
    (hsize : ∀ c, (s'.chan c).elemsize = (s.chan c).elemsize)
    (hhist : N.history s'.log t = N.history s.log t) : N.Waits s' t base := by
  obtain ⟨x, y, hxy, hy, hdue⟩ := h
  exact ⟨x, y, halts.trans hxy, hy, hdue.congr hmem (hsize _) hhist⟩

/-- A step without a transfer, in which no task begins to wait. -/
theorem Follows.quiet (h : N.Follows s₀ s) (new : List Event) (hsim : ∃ a pl, Sim s' a ∧ Inv a pl)
    (hlog : s'.log = new ++ s.log) (hnew : ∀ e ∈ new, e.aside) (hchan : s'.chan = s.chan)
    (halts : s'.alts = s.alts)
    (hmem : ∀ u, s'.taskrunning ≠ some u → ∀ x, (∀ w ≠ u, x ∉ N.writes w) → s'.mem x = s.mem x)
    (hgone : ∀ t ∉ s'.live, t ∉ s.live ∨ N.next t (N.history s.log t) = .stop)
    (htask : ∀ t ∈ s'.live, OnItsOwn s' t ∨ AtEase (s'.task t))
    (hwait : ∀ u ∈ s'.live, s'.taskrunning ≠ some u → ∀ base, (s'.task u).context = .chanalt base →
      u ∈ s.live ∧ s.taskrunning ≠ some u ∧ (s'.task u).context = (s.task u).context) :
    N.Follows s₀ s' := by
  have hhist : N.history s'.log = N.history s.log :=
    history_congr hlog fun e he => doneBy_aside (hnew e he)
  refine ⟨hsim, fun c => ?_, ?_, ?_, fun t ht => ?_, htask, fun u base hu => ?_⟩
  · rw [hchan, chanEvents_aside hlog hnew]
    exact h.kept c
  · rw [hchan]
    exact h.bufsize
  · rw [hhist]
    exact h.fires
  · rw [hhist]
    exact (hgone t ht).elim (h.gone t) id
  · obtain ⟨hl, hr, hc⟩ := hwait u hu.1 hu.2.1 base hu.2.2.1
    have hold : AltBlocked s u base := hu.before new hl hr hc hlog fun hm => hnew _ hm
    exact (h.waits u base hold).congr (by rw [halts]) (hmem u hu.2.1) (fun c => by rw [hchan])
      (by rw [hhist])

theorem Follows.pick (h : N.Follows s₀ s) (hc : s.control = .scheduler) (ht : t ∈ s.live)
    (hr : (s.task t).ready = true) : N.Follows s₀ (taskschedulerPick t s) := by
  obtain ⟨a, pl, hs, hI⟩ := h.sim
  have hsim := hs.pick hI hc hr
  have hnone : s.taskrunning = none := by
    obtain ⟨q, _, rfl⟩ := hs
    exact hI.onCpu.scheduler hc
  have hease : ∀ u ∈ s.live, AtEase (s.task u) := by
    intro u hu
    refine (h.task u hu).resolve_left fun hrun => ?_
    simp [OnItsOwn, hc] at hrun
  unfold taskschedulerPick at hsim ⊢
  split at hsim
  · rename_i h0
    rw [if_pos h0]
    exact h.quiet [] hsim rfl (by simp) rfl rfl (fun _ _ _ _ => rfl) (fun _ => .inl)
      (fun u hu => .inr (hease u hu)) fun u hu hru _ _ => ⟨hu, hru, rfl⟩
  · rename_i h0
    rw [if_neg h0]
    have htask : ∀ u, ((deltask .taskrunqueue t s).setTask t
        fun x => { x with ready := false }).task u = { s.task u with
          ready := if u = t then false else (s.task u).ready } := by
      intro u
      by_cases hu : u = t
      · subst hu
        simp [Sys.setTask, deltask]
      · simp [Sys.setTask, deltask, hu]
    refine h.quiet [.dispatch t] hsim rfl (by simp [Event.aside]) rfl rfl
      (fun _ _ _ _ => rfl) (fun _ => .inl) (fun u hu => .inr ?_) fun u hu _ _ _ => ⟨hu, ?_, ?_⟩
    · have hx := hease u hu
      simpa only [AtEase, Sys.emit, htask u] using hx
    · simp [hnone]
    · simp only [Sys.emit, htask u]

theorem sim_step {e : Env} {act : Action} (h : ∃ a pl, Sim s a ∧ Inv a pl)
    (hs : step (e, act) s = some s') : ∃ a pl, Sim s' a ∧ Inv a pl := by
  obtain ⟨a, pl, hsim, hI⟩ := h
  obtain ⟨b, hw, hb⟩ := walks_step hsim hI hs
  obtain ⟨pl', hI'⟩ := hw.inv hI
  exact ⟨b, pl', hb, hI'⟩

theorem Follows.schedule (h : N.Follows s₀ s) (hc : s.control = .scheduler)
    (hsim : ∃ a pl, Sim (taskscheduler s) a ∧ Inv a pl) : N.Follows s₀ (taskscheduler s) := by
  cases hh : head .taskrunqueue s with
  | some t =>
    obtain ⟨a, pl, ha, hI⟩ := h.sim
    obtain ⟨q, hrep, rfl⟩ := ha
    have hmem : t ∈ (s.withLinks q).links .taskrunqueue := by
      refine List.mem_of_mem_head? ?_
      rw [Option.mem_def, ← hh]
      exact (hrep.head _).symm
    have hpl := hI.placed.mem_list.mp hmem
    rw [taskscheduler_eq_pick hh]
    exact h.pick hc (hI.mem_live hpl) ((hI.placed.ready t).trans (by simp [hpl]))
  | none =>
    obtain ⟨v, hv⟩ : ∃ v, taskscheduler s = { s with control := .halted v } := by
      unfold taskscheduler
      split
      · exact ⟨_, rfl⟩
      · rw [hh]
        exact ⟨_, rfl⟩
    rw [hv] at hsim ⊢
    refine h.quiet [] hsim rfl (by simp) rfl rfl (fun _ _ _ _ => rfl) (fun _ => .inl)
      (fun u hu => .inr ?_) fun u hu hru _ _ => ⟨hu, hru, rfl⟩
    refine (h.task u hu).resolve_left fun hrun => ?_
    simp [OnItsOwn, hc] at hrun

theorem Follows.live (h : N.Follows s₀ s) (ht : s.taskrunning = some t) : t ∈ s.live := by
  obtain ⟨a, pl, hs, hI⟩ := h.sim
  obtain ⟨q, _, rfl⟩ := hs
  obtain ⟨loc, hloc, _⟩ := (hI.onCpu.running t).mp ht
  exact hI.mem_live hloc

/-- While a task runs in a call, the others are at ease. -/
theorem Follows.others (h : N.Follows s₀ s) (ht : s.taskrunning = some t) (hu : u ∈ s.live)
    (hut : u ≠ t) : AtEase (s.task u) := by
  refine (h.task u hu).resolve_left fun hrun => hut ?_
  exact Option.some.inj (hrun.1.symm.trans ht)

theorem Follows.resume {e : Env} (h : N.Follows s₀ s) (ht : s.taskrunning = some t)
    (hc : s.control = .resume) (hs' : s' = finish t s (Libtask.resume e t s))
    (hsim : ∃ a pl, Sim s' a ∧ Inv a pl) : N.Follows s₀ s' := by
  have hlive := h.live ht
  have hease : AtEase (s.task t) := by
    refine (h.task t hlive).resolve_left fun hrun => ?_
    simp [OnItsOwn, hc] at hrun
  have hback : (∃ new, (∀ e ∈ new, e.aside) ∧
      s' = { s with control := .user, log := new ++ s.log }) ∨
        ∃ v, s' = { s with control := .halted v } := by
    rw [hs']
    unfold Libtask.resume
    rcases hease with ⟨hx, hf⟩ | ⟨n, hx⟩ | ⟨base, hx⟩
    · simp only [hx, hf]
      exact .inl ⟨[], by simp, rfl⟩
    · simp only [hx]
      exact .inl ⟨[.ret t _], by simp [Event.aside], rfl⟩
    · simp only [hx, chanaltBack, bind, Except.bind]
      split
      · exact .inr ⟨_, rfl⟩
      · split
        · exact .inr ⟨_, rfl⟩
        · exact .inl ⟨[.ret t _, .altret t base _], by simp [Event.aside], rfl⟩
  rcases hback with ⟨new, hnew, rfl⟩ | ⟨v, rfl⟩
  · refine h.quiet new hsim rfl hnew rfl rfl (fun _ _ _ _ => rfl) (fun _ => .inl) (fun u hu => ?_)
      fun u hu hru _ _ => ⟨hu, hru, rfl⟩
    by_cases hut : u = t
    · exact .inl ⟨hut ▸ ht, .inl rfl⟩
    · exact .inr (h.others ht hu hut)
  · refine h.quiet [] hsim rfl (by simp) rfl rfl (fun _ _ _ _ => rfl) (fun _ => .inl)
      (fun u hu => .inr ?_) fun u hu hru _ _ => ⟨hu, hru, rfl⟩
    by_cases hut : u = t
    · exact hut ▸ hease
    · exact h.others ht hu hut

theorem Follows.write {mem : ℕ → UInt8} (h : N.Follows s₀ s) (ht : s.taskrunning = some t)
    (hmem : ∀ x ∉ N.writes t, mem x = s.mem x)
    (hsim : ∃ a pl, Sim { s with mem, control := .user } a ∧ Inv a pl) :
    N.Follows s₀ { s with mem, control := .user } := by
  refine h.quiet [] hsim rfl (by simp) rfl rfl (fun u hu x hx => hmem x (hx t ?_))
    (fun _ => .inl) (fun u hu => ?_) fun u hu hru _ _ => ⟨hu, hru, rfl⟩
  · rintro rfl
    exact hu ht
  · by_cases hut : u = t
    · exact .inl ⟨hut ▸ ht, .inl rfl⟩
    · exact .inr (h.others ht hu hut)

theorem Follows.not_exiting (h : N.Follows s₀ s) (ht : s.taskrunning = some t) :
    (s.task t).exiting = false := by
  obtain ⟨a, pl, ⟨q, _, rfl⟩, hI⟩ := h.sim
  obtain ⟨loc, hloc, _⟩ := (hI.onCpu.running t).mp ht
  exact hI.not_exiting hloc

theorem Follows.yield (h : N.Follows s₀ s) (ht : s.taskrunning = some t)
    (hsim : ∃ a pl, Sim (taskyield t s) a ∧ Inv a pl) : N.Follows s₀ (taskyield t s) := by
  have hself : (((taskready t s).switch (.taskyield s.tasknswitch) t).task t).context =
      .taskyield s.tasknswitch := by
    rw [Sys.switch_self]
  have hother : ∀ u ≠ t, ((taskready t s).switch (.taskyield s.tasknswitch) t).task u =
      s.task u := by
    intro u hu
    rw [Sys.switch_of_ne hu, taskready_task, if_neg hu]
  rw [taskyield_eq (h.not_exiting ht)] at hsim ⊢
  refine h.quiet [.ready t] hsim rfl (by simp [Event.aside]) rfl rfl (fun _ _ _ _ => rfl)
    (fun _ => .inl) (fun u hu => .inr ?_) fun u hu _ base hb => ?_
  · by_cases hut : u = t
    · subst hut
      exact .inr (.inl ⟨_, hself⟩)
    · rw [hother u hut]
      exact h.others ht hu hut
  · have hut : u ≠ t := by
      rintro rfl
      rw [hself] at hb
      cases hb
    exact ⟨hu, by simpa [ht] using hut.symm, by rw [hother u hut]⟩

/-- A call that would leave the block of its channel ends in a fault. -/
theorem Follows.fault (h : N.Follows s₀ s) :
    N.Follows s₀ { s with control := .halted .fault } := by
  obtain ⟨a, pl, hs, hI⟩ := h.sim
  refine h.quiet [] ⟨_, pl, hs.setControl _, hI.halt _⟩ rfl (by simp) rfl rfl
    (fun _ _ _ _ => rfl) (fun _ => .inl) (fun u hu => ?_) fun u hu hru _ _ => ⟨hu, hru, rfl⟩
  exact (h.task u hu).imp_left fun hrun => ⟨hrun.1, .inr rfl⟩

theorem Follows.exit {val : ℤ} (h : N.Follows s₀ s) (ht : s.taskrunning = some t)
    (hstop : N.next t (N.history s.log t) = .stop)
    (hsim : ∃ a pl, Sim (taskexit val t s) a ∧ Inv a pl) : N.Follows s₀ (taskexit val t s) := by
  have hlive : (taskexit val t s).live = s.live.erase t := by
    rw [taskexit_eq]
    rfl
  have hother : ∀ u ≠ t, ((taskexit val t s).task u).context = (s.task u).context ∧
      ((taskexit val t s).task u).startfn = (s.task u).startfn := by
    intro u hu
    rw [taskexit_eq]
    simp only [Sys.emit]
    by_cases hl : u = s.alltask (s.nalltask - 1)
    · subst hl
      simp [hu]
    · simp [hu, hl]
  refine h.quiet [.free t] hsim ?_ (by simp [Event.aside]) ?_ ?_ (fun u hu x hx => ?_)
    (fun u hu => ?_) (fun u hu => .inr ?_) fun u hu _ base hb => ?_
  · rw [taskexit_eq]
    rfl
  · rw [taskexit_eq]
    rfl
  · rw [taskexit_eq]
    rfl
  · rw [taskexit_eq]
    rfl
  · rw [hlive, Finset.mem_erase, not_and_or, not_not] at hu
    rcases hu with rfl | hu
    · exact .inr hstop
    · exact .inl hu
  · rw [hlive, Finset.mem_erase] at hu
    obtain ⟨hctx, hfn⟩ := hother u hu.1
    rw [AtEase, hctx, hfn]
    exact h.others ht hu.2 hu.1
  · rw [hlive, Finset.mem_erase] at hu
    exact ⟨hu.2, by simpa [ht] using hu.1.symm, (hother u hu.1).1⟩

end PointToPoint
end Libtask
