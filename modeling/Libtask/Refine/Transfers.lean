import Libtask.Properties.Channels
import Libtask.Properties.Nonblocking
import Libtask.Refine.PointToPoint

/-! `chansend` and `chanrecv` by a point-to-point task: it makes the transfer that is due, alone or
with the task that waits for it, or it waits. -/
namespace Libtask
open Function Relation Runs Dataflow

namespace PointToPoint
variable {N : PointToPoint} {s₀ s s' b : Sys Links} {t u : TaskPtr} {c base : ℕ} {op : Op}
  {v : Option ℕ} {p q : AltPtr} {bytes : List UInt8} {log : List Event}

section History

theorem sent_history (c : ℕ) (log : List Event) : N.sent c (N.history log) =
    hist ChanEvent.sentBytes (log.filterMap (chanEvent c)) := by
  simp only [Net.sent, history, hist, List.filterMap_reverse, List.filterMap_filterMap]
  congr 1
  refine List.filterMap_congr fun e _ => ?_
  cases e with
  | chan c' e =>
    by_cases hc : c' = c <;> cases e <;> simp [doneBy, sentOn, chanEvent, ChanEvent.sentBytes, hc]
  | _ => rfl

theorem rcvd_history (c : ℕ) (log : List Event) : N.rcvd c (N.history log) =
    hist ChanEvent.rcvdBytes (log.filterMap (chanEvent c)) := by
  simp only [Net.rcvd, history, hist, List.filterMap_reverse, List.filterMap_filterMap]
  congr 1
  refine List.filterMap_congr fun e _ => ?_
  cases e with
  | chan c' e =>
    by_cases hc : c' = c <;> cases e <;> simp [doneBy, rcvdOn, chanEvent, ChanEvent.rcvdBytes, hc]
  | _ => rfl

theorem history_sent : N.history (.chan c (.sent p bytes) :: log) =
    after (N.putting c bytes) (N.history log) := by
  funext t
  by_cases ht : t = N.sender c
  · subst ht
    simp [history, doneBy, after, Net.putting]
  · simp [history, doneBy, after, Net.putting, ht, Ne.symm ht]

theorem history_rcvd : N.history (.chan c (.rcvd q bytes) :: log) =
    after (N.getting c bytes) (N.history log) := by
  funext t
  by_cases ht : t = N.receiver c
  · subst ht
    simp [history, doneBy, after, Net.getting]
  · simp [history, doneBy, after, Net.getting, ht, Ne.symm ht]

/-- Only the two ends of a channel have a part in what goes through it. -/
theorem history_other (hs : t ≠ N.sender c) (hr : t ≠ N.receiver c) (evs : List ChanEvent) :
    N.history (evs.map (.chan c) ++ log) t = N.history log t := by
  induction evs with
  | nil => rfl
  | cons e evs ih =>
    cases e with
    | sent =>
      rw [List.map_cons, List.cons_append, history_sent, Net.after_putting hs, ih]
    | rcvd =>
      rw [List.map_cons, List.cons_append, history_rcvd, Net.after_getting hr, ih]

theorem Follows.ring (h : N.Follows s₀ s) (c : ℕ) :
    RingInv (s.chan c) (s.log.filterMap (chanEvent c)) := by
  obtain ⟨a, pl, ⟨q, _, rfl⟩, hI⟩ := h.sim
  exact hI.ring c

/-- The ends of a channel are the tasks for which a transfer on it is due. -/
theorem Due.sender (h : N.Due s t c .CHANSND v) : N.sender c = t := N.next_send (h.send rfl)

theorem Due.receiver (h : N.Due s t c .CHANRCV v) : N.receiver c = t := N.next_recv (h.recv rfl)

theorem Due.next_sender (h : N.Due s t c .CHANSND v) :
    N.next (N.sender c) (N.history s.log (N.sender c)) =
      .send c (amoveSource s.mem v (s.chan c).elemsize) := by
  rw [h.sender]
  exact h.send rfl

theorem Due.next_receiver (h : N.Due s t c .CHANRCV v) :
    N.next (N.receiver c) (N.history s.log (N.receiver c)) = .recv c := by
  rw [h.receiver]
  exact h.recv rfl

theorem Follows.fires_send (h : N.Follows s₀ s) (hdue : N.Due s t c .CHANSND v)
    (hn : (s.chan c).nbuf < (s.chan c).bufsize) :
    ReflTransGen (N.Fire fun c => (s₀.chan c).bufsize) (N.history s.log) (N.history
      (.chan c (.sent p (amoveSource s.mem v (s.chan c).elemsize)) :: s.log)) := by
  rw [history_sent]
  refine .single ⟨_, .put ?_ hdue.next_sender ?_, rfl⟩
  · rw [← h.bufsize]
    omega
  · have hfifo := (h.kept c).fifo
    rw [← sent_history (N := N), ← rcvd_history (N := N)] at hfifo
    rw [← h.bufsize, hfifo, List.length_append, Channel.held, Ring.length_contents]
    omega

theorem Follows.fires_recv (h : N.Follows s₀ s) (hdue : N.Due s t c .CHANRCV v)
    (hn : 0 < (s.chan c).nbuf) :
    ReflTransGen (N.Fire fun c => (s₀.chan c).bufsize) (N.history s.log) (N.history
      (.chan c (.rcvd p (s.chan c).front) :: s.log)) := by
  obtain ⟨rest, hfront, _⟩ := (h.kept c).front (h.ring c) hn
  rw [← sent_history (N := N), ← rcvd_history (N := N)] at hfront
  rw [history_rcvd]
  refine .single ⟨_, .get ?_ hdue.next_receiver hfront, rfl⟩
  have hle := (h.ring c).nbuf_le
  rw [← h.bufsize]
  omega

/-- An element goes from its sender to the receiver that waits for one, or to the end of the
buffer while another goes from its front to the receiver. -/
theorem Follows.fires_pair {w : Option ℕ} (h : N.Follows s₀ s) (hs : N.Due s t c .CHANSND v)
    (hr : N.Due s u c .CHANRCV w) :
    ReflTransGen (N.Fire fun c => (s₀.chan c).bufsize) (N.history s.log) (N.history
      ((if (s.chan c).nbuf = 0 then
          [.rcvd q (amoveSource s.mem v (s.chan c).elemsize),
            .sent p (amoveSource s.mem v (s.chan c).elemsize)]
        else [.sent p (amoveSource s.mem v (s.chan c).elemsize), .rcvd q (s.chan c).front]).map
          (.chan c) ++ s.log)) := by
  split
  · rename_i h0
    have hfifo := (h.kept c).fifo
    rw [← sent_history (N := N), ← rcvd_history (N := N), Channel.held, h0, Ring.contents_zero,
      List.append_nil] at hfifo
    simp only [List.map_cons, List.map_nil, List.cons_append, List.nil_append, history_rcvd,
      history_sent]
    exact Net.fires_through hs.next_sender hr.next_receiver hfifo
  · rename_i h0
    obtain ⟨rest, hfront, hlt⟩ := (h.kept c).front (h.ring c) (Nat.pos_of_ne_zero h0)
    rw [← sent_history (N := N), ← rcvd_history (N := N)] at hfront
    have hle := (h.ring c).nbuf_le
    simp only [List.map_cons, List.map_nil, List.cons_append, List.nil_append, history_rcvd,
      history_sent]
    refine Net.fires_refill ?_ hs.next_sender hr.next_receiver hfront ?_
    · rw [← h.bufsize]
      omega
    · rw [← h.bufsize]
      omega

end History

section Chanop
variable {junk : Alt}

theorem stamped_chanop (hop : op.queued) : stamped base t (chanopArray c op v true junk) =
    [{ c := c, op := op, v := v, task := t, xalt := ⟨base, 0⟩ }, { junk with op := .CHANEND }] := by
  rcases hop with rfl | rfl <;> rfl

theorem Follows.block {b : Sys Links} (h : N.Follows s₀ s) (ht : s.taskrunning = some t)
    (hdue : N.Due s t c op v)
    (hbase : ∀ u ∈ s.live, s.taskrunning ≠ some u → (s.task u).context ≠ .chanalt base)
    (hb : b = { s.altenter base (chanopArray c op v true junk) t with chan := b.chan })
    (hring : ∀ c, (b.chan c).ring = (s.chan c).ring)
    (hsim : ∃ a pl, Sim (b.switch (.chanalt base) t) a ∧ Inv a pl) :
    N.Follows s₀ (b.switch (.chanalt base) t) := by
  rw [altenter_eq, stamped_chanop hdue.queued] at hb
  have hlog : (b.switch (.chanalt base) t).log = [.altcall t base] ++ s.log := by
    rw [hb]
    rfl
  have halts : (b.switch (.chanalt base) t).alts = update s.alts base
      [{ c := c, op := op, v := v, task := t, xalt := ⟨base, 0⟩ },
      { junk with op := .CHANEND }] := by
    rw [hb]
    rfl
  have hmem : (b.switch (.chanalt base) t).mem = s.mem := by
    rw [hb]
    rfl
  have hlive : (b.switch (.chanalt base) t).live = s.live := by
    rw [hb]
    rfl
  have hself : ((b.switch (.chanalt base) t).task t).context = .chanalt base := by
    rw [Sys.switch_self]
  have hother : ∀ u ≠ t, (b.switch (.chanalt base) t).task u = s.task u := by
    intro u hu
    rw [Sys.switch_of_ne hu, hb]
  have hhist : N.history (b.switch (.chanalt base) t).log = N.history s.log :=
    history_congr hlog (by simp [doneBy])
  have helem : ∀ c, (b.chan c).elemsize = (s.chan c).elemsize := fun c =>
    elemsize_of_ring (hring c)
  refine ⟨hsim, fun c => ?_, fun c => (bufsize_of_ring (hring c)).trans (h.bufsize c), ?_,
    fun u hu => ?_, fun u hu => .inr ?_, fun u base' hu => ?_⟩
  · have hkept : Kept (b.chan c) (s.log.filterMap (chanEvent c)) := (h.kept c).congr (hring c)
    rw [hlog]
    exact hkept
  · rw [hhist]
    exact h.fires
  · rw [hhist]
    exact h.gone u (hlive ▸ hu)
  · by_cases hut : u = t
    · subst hut
      exact .inr (.inr ⟨base, hself⟩)
    · rw [hother u hut]
      exact h.others ht (hlive ▸ hu) hut
  · by_cases hut : u = t
    · subst hut
      obtain rfl : base = base' := by
        have hctx := hu.2.2.1
        rw [hself] at hctx
        cases hctx
        rfl
      refine ⟨_, _, by rw [halts, update_self], rfl, ?_⟩
      exact hdue.congr (by simp [hmem]) (helem c) (by rw [hhist])
    · have hrun : s.taskrunning ≠ some u := by
        rw [ht]
        simpa using Ne.symm hut
      have hold : AltBlocked s u base' := by
        refine hu.before [.altcall t base] (hlive ▸ hu.1) hrun (by rw [hother u hut]) hlog ?_
        simp [hut]
      have hne : base' ≠ base := by
        rintro rfl
        exact hbase u (hlive ▸ hu.1) hrun hold.2.2.1
      exact (h.waits u base' hold).congr (by rw [halts, update_of_ne hne]) (by simp [hmem]) helem
        (by rw [hhist])

theorem chanop_branch (s : Sys Links) (base c : ℕ) (v : Option ℕ) (junk : Alt) (t : TaskPtr)
    (hop : op.queued) :
    (s.altenter base (chanopArray c op v true junk) t).alt? ⟨base, 0⟩ =
      some { c := c, op := op, v := v, task := t, xalt := ⟨base, 0⟩ } := by
  simp [Sys.alt?, altenter_eq, stamped_chanop hop]

/-- The branch of the call goes to the end of its queue. -/
theorem chanop_queue (s : Sys Links) (base c : ℕ) (v : Option ℕ) (junk : Alt) (t : TaskPtr)
    (hop : op.queued) : ∃ b, altqueueAll base (List.range 1)
      (s.altenter base (chanopArray c op v true junk) t) = .ok b ∧
    b = { s.altenter base (chanopArray c op v true junk) t with chan := b.chan } ∧
      ∀ c, (b.chan c).ring = (s.chan c).ring := by
  have hb : ∀ i ∈ List.range 1, ∃ x,
      (s.altenter base (chanopArray c op v true junk) t).alt? ⟨base, i⟩ = some x ∧
        (x.op = .CHANNOP ∨ x.op.queued) := by
    intro i hi
    obtain rfl : i = 0 := by simpa using hi
    exact ⟨_, chanop_branch s base c v junk t hop, .inr hop⟩
  obtain ⟨chan', hok, hring, _⟩ := altqueueAll_ok hb
  exact ⟨_, hok, rfl, fun c => (hring c).trans (by rw [altenter_chan])⟩

/-- Where `altcopy` stays in its block the channels keep their elements. -/
theorem Follows.kept_served {evs : List ChanEvent} (h : N.Follows s₀ s) (hs : Served c evs s b)
    (hchan : ∀ c', (s'.chan c').ring = (b.chan c').ring)
    (hlog : ∀ c', s'.log.filterMap (chanEvent c') =
      (evs.map (.chan c)).filterMap (chanEvent c') ++ s.log.filterMap (chanEvent c'))
    (hin : InBlocks s s') (c' : ℕ) : Kept (s'.chan c') (s'.log.filterMap (chanEvent c')) := by
  obtain ⟨y, hy, hserves⟩ := hs
  refine Kept.congr ?_ (hchan c')
  rw [hlog, hy]
  by_cases hc : c' = c
  · subst hc
    have hslots := hin c' evs (by rw [hlog, chanEvent_map])
    rw [chanEvent_map, update_self]
    exact (h.kept c').serves (h.ring c') hserves hslots
  · have hnone : (evs.map (.chan c)).filterMap (chanEvent c') = [] := by
      refine List.filterMap_eq_nil_iff.mpr fun e he => ?_
      obtain ⟨e, _, rfl⟩ := List.mem_map.mp he
      simp [chanEvent, Ne.symm hc]
    rw [hnone, List.nil_append, update_of_ne hc]
    exact h.kept c'

/-- Transfers in which the tasks `P` took part have been made, and no task has begun to wait. -/
theorem Follows.served {P : TaskPtr → Prop} (h : N.Follows s₀ s) (ht : s.taskrunning = some t)
    (hP : ∀ u, P u → u ∈ s.live) (hsim : ∃ a pl, Sim s' a ∧ Inv a pl)
    (hkept : ∀ c, Kept (s'.chan c) (s'.log.filterMap (chanEvent c)))
    (hbuf : ∀ c, (s'.chan c).bufsize = (s.chan c).bufsize)
    (helem : ∀ c, (s'.chan c).elemsize = (s.chan c).elemsize)
    (hfires : ReflTransGen (N.Fire fun c => (s₀.chan c).bufsize) (N.history s.log)
      (N.history s'.log))
    (hothers : ∀ u, ¬P u → N.history s'.log u = N.history s.log u) (hlive : s'.live = s.live)
    (hrun : OnItsOwn s' t)
    (htask : ∀ u, AtEase (s.task u) → AtEase (s'.task u))
    (hwait : ∀ u base, AltBlocked s' u base → AltBlocked s u base ∧ ¬P u ∧
      s'.alts base = s.alts base ∧ ∀ x, (∀ w ≠ u, x ∉ N.writes w) → s'.mem x = s.mem x) :
    N.Follows s₀ s' := by
  refine ⟨hsim, hkept, fun c => (hbuf c).trans (h.bufsize c), h.fires.trans hfires,
    fun u hu => ?_, fun u hu => ?_, fun u base hu => ?_⟩
  · rw [hlive] at hu
    rw [hothers u fun hp => hu (hP u hp)]
    exact h.gone u hu
  · by_cases hut : u = t
    · exact .inl (hut ▸ hrun)
    · exact .inr (htask u (h.others ht (hlive ▸ hu) hut))
  · obtain ⟨hold, hp, halts, hmem⟩ := hwait u base hu
    exact (h.waits u base hold).congr halts hmem helem (hothers u hp)

/-- What a call returns with when its branch has been executed. -/
def answered (t : TaskPtr) (base : ℕ) (b : Sys Links) : Sys Links :=
  { b.emit (.altret t base 0) with control := .user }.emit (.ret t 0)

theorem Follows.alone {ev : ChanEvent} {W : Set ℕ} (h : N.Follows s₀ s)
    (ht : s.taskrunning = some t)
    (hbase : ∀ u ∈ s.live, s.taskrunning ≠ some u → (s.task u).context ≠ .chanalt base)
    (hcopy : Transfer c [ev] W (s.altenter base (chanopArray c op v true junk) t) b)
    (hserved : Served c [ev] s b) (hin : InBlocks s (answered t base b)) (hW : W ⊆ N.writes t)
    (hfires : ReflTransGen (N.Fire fun c => (s₀.chan c).bufsize) (N.history s.log)
      (N.history (.chan c ev :: s.log)))
    (hothers : ∀ u ≠ t, N.history (.chan c ev :: s.log) u = N.history s.log u)
    (hsim : ∃ a pl, Sim (answered t base b) a ∧ Inv a pl) : N.Follows s₀ (answered t base b) := by
  have hlog : b.log = .chan c ev :: .altcall t base :: s.log := by
    rw [hcopy.eq, altenter_eq]
    rfl
  have hhist : N.history (answered t base b).log = N.history (.chan c ev :: s.log) := by
    funext u
    simp [answered, Sys.emit, hlog, history, doneBy]
  have halts : b.alts = update s.alts base (stamped base t (chanopArray c op v true junk)) := by
    rw [hcopy.eq, altenter_eq]
  have htask : b.task = s.task ∧ b.live = s.live ∧ b.taskrunning = s.taskrunning := by
    rw [hcopy.eq, altenter_eq]
    exact ⟨rfl, rfl, rfl⟩
  have hevents : ∀ c', (answered t base b).log.filterMap (chanEvent c') =
      ([ev].map (.chan c)).filterMap (chanEvent c') ++ s.log.filterMap (chanEvent c') := by
    intro c'
    by_cases hc : c = c' <;>
      simp [answered, Sys.emit, hlog, List.filterMap_cons, chanEvent, hc]
  have hkept := h.kept_served hserved (fun _ => rfl) hevents hin
  refine h.served (P := (· = t)) ht (fun u hu => hu ▸ h.live ht) hsim hkept (fun c => ?_)
    (fun c => ?_) (hhist ▸ hfires) (fun u hu => ?_) htask.2.1
    ⟨htask.2.2.trans ht, .inl rfl⟩ (fun u hu => ?_)
    fun u base' hu => ?_
  · refine (hcopy.bufsize c).trans ?_
    rw [altenter_eq]
  · refine (hcopy.elemsize c).trans ?_
    rw [altenter_eq]
  · rw [hhist]
    exact hothers u hu
  · have hu' : AtEase (b.task u) := htask.1 ▸ hu
    exact hu'
  · have hrun : s.taskrunning ≠ some u := fun hr => hu.2.1 (htask.2.2.trans hr)
    have hut : u ≠ t := by
      rintro rfl
      exact hrun ht
    have hl : u ∈ s.live := htask.2.1 ▸ hu.1
    have hold : AltBlocked s u base' := by
      refine hu.before [.ret t 0, .altret t base 0, .chan c ev, .altcall t base] hl hrun ?_
        ?_ (by simp [hut])
      · exact congrArg (fun f => (f u).context) htask.1
      · simp [answered, Sys.emit, hlog]
    refine ⟨hold, hut, ?_, fun x hx => ?_⟩
    · have hne : base' ≠ base := by
        rintro rfl
        exact hbase u hl hrun hold.2.2.1
      show b.alts base' = _
      rw [halts, update_of_ne hne]
    · refine (hcopy.mem x fun hw => ?_).trans (by rw [altenter_eq])
      exact hx t hut.symm (hW hw)

theorem Follows.blocked_unique {w : TaskPtr} (h : N.Follows s₀ s) (hu : AltBlocked s u base)
    (hw : AltBlocked s w base) : w = u := by
  obtain ⟨a, pl, ⟨q, _, rfl⟩, hI⟩ := h.sim
  exact hI.altBlocked_unique hw hu

/-- A transfer with the task `u`, which waited for it and is made ready. -/
theorem Follows.matched {evs : List ChanEvent} {W : Set ℕ} {s₁ s₂ : Sys Links}
    (h : N.Follows s₀ s) (ht : s.taskrunning = some t) (hu : AltBlocked s u q.base)
    (hbase : ∀ u ∈ s.live, s.taskrunning ≠ some u → (s.task u).context ≠ .chanalt base)
    (hcopy : Transfer c evs W (s.altenter base (chanopArray c op v true junk) t) s₁)
    (honly : OnlyQueues s₁ s₂) (hserved : Served c evs s s₁)
    (hin : InBlocks s (answered t base (taskready u (s₂.setXalt ⟨q.base, 0⟩ q))))
    (hq : ∃ e ∈ evs, e.alt = q)
    (hW : W ⊆ N.writes t ∨ W ⊆ N.writes u)
    (hfires : ReflTransGen (N.Fire fun c => (s₀.chan c).bufsize) (N.history s.log)
      (N.history (evs.map (.chan c) ++ s.log)))
    (hothers : ∀ w, w ≠ t → w ≠ u →
      N.history (evs.map (.chan c) ++ s.log) w = N.history s.log w)
    (hsim : ∃ a pl, Sim (answered t base (taskready u (s₂.setXalt ⟨q.base, 0⟩ q))) a ∧ Inv a pl) :
    N.Follows s₀ (answered t base (taskready u (s₂.setXalt ⟨q.base, 0⟩ q))) := by
  set s' := answered t base (taskready u (s₂.setXalt ⟨q.base, 0⟩ q)) with hs'
  have heq : s₂ = { s with
      chan := s₂.chan
      alts := update s.alts base (stamped base t (chanopArray c op v true junk))
      mem := s₁.mem
      log := evs.map (.chan c) ++ .altcall t base :: s.log } := by
    rw [honly.eq, hcopy.eq, altenter_eq]
  let new : List Event :=
    [.ret t 0, .altret t base 0, .ready u] ++ (evs.map (.chan c) ++ [.altcall t base])
  have hlog : s'.log = new ++ s.log := by
    rw [hs', heq]
    simp [new, answered, taskready, addtask, Sys.setXalt, Sys.emit, Sys.setTask]
  have hhist : N.history s'.log = N.history (evs.map (.chan c) ++ s.log) := by
    funext w
    simp [hlog, new, history, doneBy]
  have hctx : ∀ w, (s'.task w).context = (s.task w).context ∧
      (s'.task w).startfn = (s.task w).startfn := by
    intro w
    rw [hs', heq]
    simp [answered, taskready_task, Sys.setXalt, Sys.emit]
  have hsame : s'.live = s.live ∧ s'.taskrunning = s.taskrunning := by
    rw [hs', heq]
    exact ⟨rfl, rfl⟩
  have hmem : ∀ x ∉ W, s'.mem x = s.mem x := by
    intro x hx
    rw [hs', heq]
    exact (hcopy.mem x hx).trans (by rw [altenter_eq])
  have hsize : ∀ c, (s'.chan c).bufsize = (s.chan c).bufsize ∧
      (s'.chan c).elemsize = (s.chan c).elemsize := by
    intro c'
    have hr := honly.ring c'
    refine ⟨((bufsize_of_ring hr).trans (hcopy.bufsize c')).trans ?_,
      ((elemsize_of_ring hr).trans (hcopy.elemsize c')).trans ?_⟩ <;> rw [altenter_eq]
  have hevents : ∀ c', s'.log.filterMap (chanEvent c') =
      (evs.map (.chan c)).filterMap (chanEvent c') ++ s.log.filterMap (chanEvent c') := by
    intro c'
    rw [hlog]
    simp [new, List.filterMap_append, List.filterMap_cons, chanEvent]
  have hkept := h.kept_served hserved (fun c' => honly.ring c') hevents hin
  refine h.served (P := fun w => w = t ∨ w = u) ht ?_ hsim hkept (fun c => (hsize c).1)
    (fun c => (hsize c).2) (hhist ▸ hfires) (fun w hw => ?_) hsame.1 ⟨hsame.2.trans ht, .inl rfl⟩
    (fun w hw => ?_) fun w base' hw => ?_
  · rintro w (rfl | rfl)
    · exact h.live ht
    · exact hu.1
  · rw [hhist]
    exact hothers w (fun he => hw (.inl he)) fun he => hw (.inr he)
  · rw [AtEase, (hctx w).1, (hctx w).2]
    exact hw
  · have hrun : s.taskrunning ≠ some w := fun hr => hw.2.1 (hsame.2.trans hr)
    have hwt : w ≠ t := by
      rintro rfl
      exact hrun ht
    have hl : w ∈ s.live := hsame.1 ▸ hw.1
    have hnew : .altcall w base' ∉ new := by simp [new, hwt]
    have hold : AltBlocked s w base' := hw.before new hl hrun (hctx w).1 hlog hnew
    -- the transfer is on record for the task that waited, so it waits no longer
    have hwu : w ≠ u := by
      rintro rfl
      obtain ⟨e, he, rfl⟩ := hq
      have hmem : .chan c e ∈ new := by simp [new, he]
      exact hw.not_transferred new hlog hnew hmem (hu.base_eq hold)
    refine ⟨hold, by simp [hwt, hwu], ?_, fun x hx => hmem x fun hw' => ?_⟩
    · have hne : base' ≠ base := by
        rintro rfl
        exact hbase w hl hrun hold.2.2.1
      have hneq : base' ≠ q.base := by
        rintro rfl
        exact hwu (h.blocked_unique hu hold)
      rw [hs', heq]
      simp [answered, taskready, addtask, Sys.setXalt, Sys.emit, Sys.setTask, hne, hneq]
    · rcases hW with hW | hW
      · exact hx t hwt.symm (hW hw')
      · exact hx u hwu.symm (hW hw')

/-- Whoever is in a queue of a channel is a task for which that transfer is due. -/
theorem Follows.partner (h : N.Follows s₀ s) (hop : op.queued) (hq : q ∈ (s.chan c).arr op) :
    ∃ u y, AltBlocked s u q.base ∧ s.alt? q = some y ∧ y.c = c ∧ y.op = op ∧ y.task = u ∧
      y.xalt = ⟨q.base, 0⟩ ∧ N.Due s u c op y.v := by
  obtain ⟨a, pl, ⟨L, _, rfl⟩, hI⟩ := h.sim
  obtain ⟨⟨u, hu⟩, hlt, y, hy, hyc, hyo⟩ := (hI.mem_arr_iff hop).mp hq
  obtain ⟨hyt, hyx⟩ := (hI.altWaiting (hI.altBlocked_iff.mp hu)).stamped q.idx hlt y hy
  obtain ⟨x, e, halts, he, hdue⟩ := h.waits u q.base hu
  -- an array of one branch: the branch in the queue is that one
  have hlen : altlen (s.alts q.base) = 1 := by
    have hx : isAltend x.op = false := by
      rcases hdue.queued with ho | ho <;> rw [ho] <;> rfl
    rw [halts, altlen_cons, hx, altlen_cons, he]
    rfl
  have hidx : q.idx = 0 := by
    have hlt' : q.idx < altlen (s.alts q.base) := hlt
    omega
  obtain rfl : x = y := by
    have hy' : (s.alts q.base)[q.idx]? = some y := hy
    rw [halts, hidx] at hy'
    exact Option.some.inj hy'
  exact ⟨u, x, hu, hy, hyc, hyo, hyt, hyx, hyc ▸ hyo ▸ hdue⟩

theorem Follows.exec_alone (h : N.Follows s₀ s) (ht : s.taskrunning = some t)
    (hdue : N.Due s t c op v)
    (hbase : ∀ u ∈ s.live, s.taskrunning ≠ some u → (s.task u).context ≠ .chanalt base)
    (hcan : altcanexec (s.altenter base (chanopArray c op v true junk) t) ⟨base, 0⟩ = true)
    (hnil : (s.chan c).arr (otherop op) = [])
    (hcopy : altcopy (some ⟨base, 0⟩) none (s.altenter base (chanopArray c op v true junk) t) =
      .ok b)
    (hsim : ∃ a pl, Sim (answered t base b) a ∧ Inv a pl) (hin : InBlocks s (answered t base b)) :
    N.Follows s₀ (answered t base b) := by
  have hx := chanop_branch s base c v junk t hdue.queued
  rw [altcanexec_eq hx hdue.queued] at hcan
  have hroom : (op = .CHANSND → (s.chan c).nbuf < (s.chan c).bufsize) ∧
      (op = .CHANRCV → 0 < (s.chan c).nbuf) := by
    split at hcan
    · exact absurd hnil hcan
    · exact hcan
  rcases hdue.queued with rfl | rfl
  · have hT := altcopy_send_transfer hx rfl hcopy
    have hS := altcopy_send_served hx rfl (by simpa only [altenter_chan] using hroom.1 rfl) hcopy
    simp only [Served, altenter_mem, altenter_chan] at hT hS
    refine h.alone ht hbase hT hS hin (Set.empty_subset _) (h.fires_send hdue (hroom.1 rfl))
      (fun u hu => ?_) hsim
    rw [history_sent, Net.after_putting]
    rw [hdue.sender]
    exact hu
  · have hT := altcopy_recv_transfer hx rfl hcopy
    have hS := altcopy_recv_served hx rfl (by simpa only [altenter_chan] using hroom.2 rfl) hcopy
    simp only [Served, altenter_chan] at hT hS
    refine h.alone ht hbase hT hS hin (hdue.dest rfl) (h.fires_recv hdue (hroom.2 rfl))
      (fun u hu => ?_) hsim
    rw [history_rcvd, Net.after_getting]
    rw [hdue.receiver]
    exact hu

/-- The transfer that is due is made with a task that waits for it. -/
theorem Follows.exec_matched {s₁ s₂ : Sys Links} {y : Alt} (h : N.Follows s₀ s)
    (ht : s.taskrunning = some t) (hdue : N.Due s t c op v)
    (hbase : ∀ u ∈ s.live, s.taskrunning ≠ some u → (s.task u).context ≠ .chanalt base)
    (hq : q ∈ (s.chan c).arr (otherop op))
    (hcopy : altcopy (some ⟨base, 0⟩) (some q)
      (s.altenter base (chanopArray c op v true junk) t) = .ok s₁)
    (hy : (s.altenter base (chanopArray c op v true junk) t).alt? q = some y)
    (honly : OnlyQueues s₁ s₂)
    (hsim : ∃ a pl, Sim (answered t base (taskready y.task (s₂.setXalt y.xalt q))) a ∧ Inv a pl)
    (hin : InBlocks s (answered t base (taskready y.task (s₂.setXalt y.xalt q)))) :
    N.Follows s₀ (answered t base (taskready y.task (s₂.setXalt y.xalt q))) := by
  obtain ⟨u, z, hu, hz, hzc, hzo, hzt, hzx, hdueu⟩ := h.partner hdue.queued.otherop hq
  have hx := chanop_branch s base c v junk t hdue.queued
  have hqb : q.base ≠ base := by
    rintro rfl
    exact hbase u hu.1 hu.2.1 hu.2.2.1
  obtain rfl : z = y := by
    rw [Sys.alt?, altenter_eq] at hy
    simp only [update_of_ne hqb] at hy
    exact Option.some.inj (hz.symm.trans hy)
  have hut : u ≠ t := by
    rintro rfl
    exact hu.2.1 ht
  rw [hzt, hzx] at hsim hin ⊢
  rcases hdue.queued with rfl | rfl
  · have happ : ClearOf (bytesAt z.v (s.chan c).elemsize) v (s.chan c).elemsize := fun x hx hz =>
      hdue.source rfl u hut x hx (hdueu.dest rfl hz)
    have hT := altcopy_pair_transfer (c := c) hx hy rfl hzo rfl hzc (.inl ⟨rfl, rfl⟩)
      (by simpa only [altenter_chan] using happ) hcopy
    have hS := altcopy_pair_served (c := c) hx hy rfl hzo rfl hzc (.inl ⟨rfl, rfl⟩)
      (by simpa only [altenter_chan] using happ) hcopy
    simp only [Served, altenter_mem, altenter_chan] at hT hS
    refine h.matched ht hu hbase hT honly hS hin ?_ (.inr (hdueu.dest rfl))
      (h.fires_pair hdue hdueu)
      (fun w hwt hwu => history_other ?_ ?_ _) hsim
    · by_cases h0 : (s.chan c).nbuf = 0 <;> simp [h0, ChanEvent.alt]
    · rw [hdue.sender]
      exact hwt
    · rw [hdueu.receiver]
      exact hwu
  · have happ : ClearOf (bytesAt v (s.chan c).elemsize) z.v (s.chan c).elemsize := fun x hx hz =>
      hdueu.source rfl t hut.symm x hx (hdue.dest rfl hz)
    have hT := altcopy_pair_transfer (c := c) hy hx hzo rfl hzc rfl (.inr ⟨rfl, rfl⟩)
      (by simpa only [altenter_chan] using happ) hcopy
    have hS := altcopy_pair_served (c := c) hy hx hzo rfl hzc rfl (.inr ⟨rfl, rfl⟩)
      (by simpa only [altenter_chan] using happ) hcopy
    simp only [Served, altenter_mem, altenter_chan] at hT hS
    refine h.matched ht hu hbase hT honly hS hin ?_ (.inl (hdue.dest rfl)) (h.fires_pair hdueu hdue)
      (fun w hwt hwu => history_other ?_ ?_ _) hsim
    · by_cases h0 : (s.chan c).nbuf = 0 <;> simp [h0, ChanEvent.alt]
    · rw [hdueu.sender]
      exact hwu
    · rw [hdue.receiver]
      exact hwt

/-- A call of `chansend` or `chanrecv` for the transfer that is due. -/
theorem Follows.chanop {rand₁ rand₂ : ℕ} (h : N.Follows s₀ s) (ht : s.taskrunning = some t)
    (hc : s.control = .user) (hdue : N.Due s t c op v)
    (hbase : ∀ u ∈ s.live, s.taskrunning ≠ some u → (s.task u).context ≠ .chanalt base)
    (hs' : s' = finish t s (chanalt base rand₁ rand₂ t
      ({ s with alts := update s.alts base (chanopArray c op v true junk) }.emit
      (.altcall t base))))
    (hsim : ∃ a pl, Sim s' a ∧ Inv a pl) (hin : InBlocks s s') : N.Follows s₀ s' := by
  rw [chanalt_eq, altlen_chanop hdue.queued] at hs'
  obtain ⟨a, pl, hs, hI⟩ := h.sim
  cases hi : altpick base (s.altenter base (chanopArray c op v true junk) t) 1 rand₁ with
  | none =>
    obtain ⟨b, hb, hbe, hring⟩ := chanop_queue s base c v junk t hdue.queued
    have hex : (b.task t).exiting = false := by
      rw [hbe, altenter_eq]
      exact h.not_exiting ht
    have hend : ((chanopArray c op v true junk)[1]?).any (fun x => x.op = .CHANEND) = true := by
      simp [chanopArray]
    simp only [hi, hend, if_true, hb, Except.map, finish] at hs'
    have hsw : s' = b.switch (.chanalt base) t := by
      rw [hs', taskswitch_eq _ hex]
    rw [hsw] at hsim ⊢
    exact h.block ht hdue hbase hbe hring hsim
  | some i =>
    obtain ⟨hlt, hcan⟩ := altpick_some hi
    obtain rfl : i = 0 := by omega
    obtain ⟨b, o, hok⟩ : ∃ b o, altexecMatch ⟨base, 0⟩ rand₂
        (s.altenter base (chanopArray c op v true junk) t) = .ok (b, o) := by
      have hent := hs.altenter base (chanopArray c op v true junk) t
      have hpick : altpick base (a.altenter base (chanopArray c op v true junk) t)
          (altlen (chanopArray c op v true junk)) rand₁ = some 0 := by
        rw [hs.altpick_altenter, altlen_chanop hdue.queued, hi]
      obtain ⟨q, hq, rfl⟩ := hs
      obtain ⟨b, o, _, _, _, hok, _⟩ := hI.altrun ⟨ht, hc⟩ hbase hpick rand₂
      obtain ⟨b', hok', _⟩ := hent.altexecMatch hok
      exact ⟨b', o, hok'⟩
    have hs'' : s' = answered t base (o.elim b fun u => taskready u b) := by
      simpa [hi, altexec_eq hok, Except.map, finish, answered] using hs'
    rw [hs''] at hsim hin ⊢
    rcases altexecMatch_cases (chanop_branch s base c v junk t hdue.queued) hdue.queued hok with
      ⟨hnil, hcopy, rfl⟩ | ⟨q, hq, s₁, s₂, y, hcopy, hy, honly, rfl, rfl⟩
    · rw [altenter_chan] at hnil
      exact h.exec_alone ht hdue hbase hcan hnil hcopy hsim hin
    · rw [altenter_chan] at hq
      exact h.exec_matched ht hdue hbase hq hcopy hy honly hsim hin

end Chanop

end PointToPoint
end Libtask
