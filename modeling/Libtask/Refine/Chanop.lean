import Libtask.Refine.Transfers

/-! What a call of `chansend` or `chanrecv` leads to: the caller blocks, makes its transfer alone,
or makes it with a task that waited for it. -/
namespace Libtask
open Function Runs

variable {σ : Type}

/-- What was sent on channel `c`, oldest first. -/
def sentOn (c : ℕ) (s : Sys σ) : List (List UInt8) :=
  hist ChanEvent.sentBytes (s.log.filterMap (chanEvent c))

/-- On channel `c` the elements at the addresses `snd` and `rcv`, of `n` bytes, were sent and
received. -/
structure Exchanged (c n : ℕ) (snd rcv : Option ℕ) (s s' : Sys Links) : Prop where
  sent : ∀ c', sentOn c' s' = sentOn c' s ++
    if c' = c then (snd.map fun v => readBytes s.mem v n).toList else []
  rcvd : ∀ c', received c' s' = received c' s ++
    if c' = c then (rcv.map fun v => readBytes s'.mem v n).toList else []
  mem : ∀ x ∉ bytesAt rcv n, s'.mem x = s.mem x
  bufsize : ∀ c', (s'.chan c').bufsize = (s.chan c').bufsize
  elemsize : ∀ c', (s'.chan c').elemsize = (s.chan c').elemsize

/-- Of the tasks other than `t` those of `P` were blocked, and are not any more; for the rest
nothing changed. -/
structure Undisturbed (t : TaskPtr) (P : TaskPtr → Prop) (s s' : Sys Links) : Prop where
  live : s'.live = s.live
  kind : ∀ u, (s'.task u).startfn = (s.task u).startfn ∧ (s'.task u).system = (s.task u).system
  context : ∀ u ≠ t, (s'.task u).context = (s.task u).context
  blocked : ∀ u ≠ t, ∀ base, AltBlocked s' u base ↔ AltBlocked s u base ∧ ¬P u
  alts : ∀ u ≠ t, ∀ base, AltBlocked s' u base → s'.alts base = s.alts base

/-- `t` called for the operation `op` on channel `c`, with its element at `v`. -/
inductive Outcome (t : TaskPtr) (base c : ℕ) (op : Op) (v : ℕ) (s s' : Sys Links) : Prop
  | block (hctl : s'.control = .scheduler ∧ s'.taskrunning = none) (hb : AltBlocked s' t base)
      (halts : ∃ x e, s'.alts base = [x, e] ∧ (x.c = c ∧ x.op = op ∧ x.v = some v) ∧
        e.op = .CHANEND)
      (hx : Exchanged c (s.chan c).elemsize none none s s')
      (hu : Undisturbed t (fun _ => False) s s')
  | alone (hctl : s'.control = .user ∧ s'.taskrunning = some t)
      (hx : Exchanged c (s.chan c).elemsize (if op = .CHANSND then some v else none)
        (if op = .CHANRCV then some v else none) s s')
      (hu : Undisturbed t (fun _ => False) s s')
  | pair {u : TaskPtr} {q : AltPtr} {z : Alt} {w : ℕ}
      (hctl : s'.control = .user ∧ s'.taskrunning = some t) (hut : u ≠ t)
      (hb : AltBlocked s u q.base) (hz : s.alt? q = some z)
      (hzop : z.c = c ∧ z.op = otherop op ∧ z.v = some w)
      (hx : Exchanged c (s.chan c).elemsize (some (if op = .CHANSND then v else w))
        (some (if op = .CHANRCV then v else w)) s s')
      (hu : Undisturbed t (· = u) s s')

section Log
variable {s s' : Sys σ} {new : List Event} {t u : TaskPtr} {base base' : ℕ}

theorem sentOn_append (hlog : s'.log = new ++ s.log) (c : ℕ) :
    sentOn c s' = sentOn c s ++ hist ChanEvent.sentBytes (new.filterMap (chanEvent c)) := by
  rw [sentOn, hlog, List.filterMap_append, hist_append, sentOn]

theorem received_append (hlog : s'.log = new ++ s.log) (c : ℕ) :
    received c s' = received c s ++ hist ChanEvent.rcvdBytes (new.filterMap (chanEvent c)) := by
  rw [received, hlog, List.filterMap_append, hist_append, received]

/-- A task in a call of `chanalt` stays blocked in it unless there is a transfer for it. -/
theorem altBlocked_iff_of_log (hl : u ∈ s'.live ↔ u ∈ s.live) (hr : s.taskrunning ≠ some u)
    (hr' : s'.taskrunning ≠ some u) (hc : (s'.task u).context = (s.task u).context)
    (hlog : s'.log = new ++ s.log) (hnew : .altcall u base ∉ new) :
    AltBlocked s' u base ↔ AltBlocked s u base ∧ new.filterMap (transferOf base) = [] := by
  simp only [AltBlocked, hl, hc, hlog, transfers, since_append hnew, List.filterMap_append,
    List.append_eq_nil_iff]
  constructor
  · intro h
    exact ⟨⟨h.1, hr, h.2.2.1, h.2.2.2.2⟩, h.2.2.2.1⟩
  · intro h
    exact ⟨h.1.1, hr', h.1.2.2.1, h.2, h.1.2.2.2⟩

end Log

theorem readBytes_writeBytes (mem : ℕ → UInt8) (a : ℕ) (bytes : List UInt8) :
    readBytes (writeBytes mem a bytes) a bytes.length = bytes := by
  apply List.ext_getElem (length_readBytes _ _ _)
  intro i hi hi'
  simp only [readBytes, List.getElem_map, List.getElem_range, writeBytes_in hi']

theorem clearOf_of_apart {v w n : ℕ} (h : v + n ≤ w ∨ w + n ≤ v) :
    ClearOf (bytesAt (some v) n) (some w) n := by
  intro x hx hx'
  obtain ⟨a, ha, hle, hlt⟩ := hx
  obtain ⟨b, hb, hle', hlt'⟩ := hx'
  cases ha
  cases hb
  omega

section Copy
variable {s s' : Sys σ} {p q b r : AltPtr} {x y z : Alt} {c v : ℕ}

theorem readBytes_amove {n : ℕ} {bytes : List UInt8} (mem : ℕ → UInt8) (hn : bytes.length = n) :
    readBytes (amove (some v) bytes mem) v n = bytes := by
  rw [← hn]
  exact readBytes_writeBytes mem v bytes

theorem altcopy_recv_mem (hx : s.alt? p = some x) (ho : x.op = .CHANRCV) (hv : x.v = some v)
    (h : altcopy (some p) none s = .ok s') :
    readBytes s'.mem v (s.chan x.c).elemsize = (s.chan x.c).front := by
  rw [altcopy_recv hx ho] at h
  cases h
  rw [altcopyRecv, hv]
  exact readBytes_amove s.mem (length_readBytes _ _ _)

/-- What is received in a transfer with a partner is at the receiver's address. -/
theorem altcopy_pair_mem (hb : s.alt? b = some y) (hr : s.alt? r = some z) (hy : y.op = .CHANSND)
    (hz : z.op = .CHANRCV) (hyc : y.c = c) (hzc : z.c = c) (hv : z.v = some v)
    (hpq : p = b ∧ q = r ∨ p = r ∧ q = b) (h : altcopy (some p) (some q) s = .ok s') :
    readBytes s'.mem v (s.chan c).elemsize =
      if (s.chan c).nbuf = 0 then amoveSource s.mem y.v (s.chan c).elemsize
      else (s.chan c).front := by
  rw [altcopy_pair hb hr hy hz hyc hzc hpq] at h
  split at h
  · rename_i h0
    cases h
    rw [if_pos h0, altcopyDirect, hv]
    exact readBytes_amove s.mem (length_amoveSource _ _ _)
  · rename_i h0
    have hmem : s'.mem = (altcopyRecv c r z s).mem := by
      funext a
      exact (altcopySend_transfer h).mem a (Set.notMem_empty a)
    rw [if_neg h0, hmem, altcopyRecv, hv]
    exact readBytes_amove s.mem (length_readBytes _ _ _)

end Copy

section Outcome
open PointToPoint (answered stamped_chanop chanop_branch chanop_queue)

variable {s s' b : Sys Links} {t u : TaskPtr} {c base v : ℕ} {op : Op} {q : AltPtr} {z : Alt}
  {junk : Alt}

/-- What the library knows of the state in which a task calls for an operation. -/
structure Calling (t : TaskPtr) (base c : ℕ) (op : Op) (v : ℕ) (s : Sys Links) : Prop where
  sim : ∃ a pl, Sim s a ∧ Inv a pl
  running : s.taskrunning = some t
  user : s.control = .user
  queued : op.queued
  unused : ∀ u ∈ s.live, s.taskrunning ≠ some u → (s.task u).context ≠ .chanalt base
  apart : ∀ q ∈ (s.chan c).arr (otherop op), ∀ z, s.alt? q = some z → ∃ w, z.v = some w ∧
    (v + (s.chan c).elemsize ≤ w ∨ w + (s.chan c).elemsize ≤ v)

theorem Calling.running_ne (h : Calling t base c op v s) (hu : u ≠ t) :
    s.taskrunning ≠ some u := by
  rw [h.running]
  simpa using Ne.symm hu

theorem Calling.base_ne (h : Calling t base c op v s) {base' : ℕ} (hu : AltBlocked s u base') :
    base' ≠ base := by
  intro he
  exact h.unused u hu.1 hu.2.1 (he ▸ hu.2.2.1)

theorem Calling.live (h : Calling t base c op v s) :
    t ∈ s.live ∧ (s.task t).exiting = false := by
  obtain ⟨a, pl, hs, hI⟩ := h.sim
  exact hs.running hI h.running

theorem Calling.block (h : Calling t base c op v s)
    (hb : b = { s.altenter base (chanopArray c op (some v) true junk) t with chan := b.chan })
    (hring : ∀ c, (b.chan c).ring = (s.chan c).ring) :
    Outcome t base c op v s (b.switch (.chanalt base) t) := by
  rw [altenter_eq, stamped_chanop h.queued] at hb
  have hlog : (b.switch (.chanalt base) t).log = [.altcall t base] ++ s.log := by
    rw [hb]
    rfl
  have halts : (b.switch (.chanalt base) t).alts = update s.alts base
      [{ c := c, op := op, v := some v, task := t, xalt := ⟨base, 0⟩ },
        { junk with op := .CHANEND }] := by
    rw [hb]
    rfl
  have hmem : (b.switch (.chanalt base) t).mem = s.mem := by
    rw [hb]
    rfl
  have hlive : (b.switch (.chanalt base) t).live = s.live := by
    rw [hb]
    rfl
  have hself : (b.switch (.chanalt base) t).task t =
      { s.task t with context := .chanalt base } := by
    rw [Sys.switch_self, hb]
  have hother : ∀ u ≠ t, (b.switch (.chanalt base) t).task u = s.task u := by
    intro u hu
    rw [Sys.switch_of_ne hu, hb]
  have hblocked : ∀ u ≠ t, ∀ base', AltBlocked (b.switch (.chanalt base) t) u base' ↔
      AltBlocked s u base' := by
    intro u hu base'
    rw [altBlocked_iff_of_log (by rw [hlive]) (h.running_ne hu) (by simp [Sys.switch])
      (by rw [hother u hu]) hlog (by simp [hu])]
    simp [transferOf]
  refine .block ⟨rfl, rfl⟩ ⟨hlive ▸ h.live.1, by simp [Sys.switch], by rw [hself], ?_⟩ ?_ ?_ ?_
  · rw [transfers, hlog, List.singleton_append, since_cons_self, List.filterMap_nil]
  · exact ⟨_, _, by rw [halts, update_self], ⟨rfl, rfl, rfl⟩, rfl⟩
  · constructor
    case sent =>
      intro c'
      rw [sentOn_append hlog]
      split <;> rfl
    case rcvd =>
      intro c'
      rw [received_append hlog]
      split <;> rfl
    case mem => exact fun x _ => congrFun hmem x
    case bufsize => exact fun c' => bufsize_of_ring (hring c')
    case elemsize => exact fun c' => elemsize_of_ring (hring c')
  · constructor
    case live => exact hlive
    case kind =>
      intro u
      by_cases hu : u = t
      · rw [hu, hself]
        exact ⟨rfl, rfl⟩
      · rw [hother u hu]
        exact ⟨rfl, rfl⟩
    case context => exact fun u hu => by rw [hother u hu]
    case blocked => simpa using hblocked
    case alts =>
      intro u hu base' hb'
      rw [halts, update_of_ne (h.base_ne ((hblocked u hu base').mp hb'))]

/-- The elements of a transfer, as its events have them. -/
theorem exchanged_of_log {n : ℕ} {snd rcv : Option ℕ} {evs : List ChanEvent}
    {pre post : List Event} (hlog : s'.log = pre ++ (evs.map (.chan c) ++ post) ++ s.log)
    (hpre : ∀ e ∈ pre ++ post, ∀ c, chanEvent c e = none)
    (hsent : hist ChanEvent.sentBytes evs = (snd.map fun v => readBytes s.mem v n).toList)
    (hrcvd : hist ChanEvent.rcvdBytes evs = (rcv.map fun v => readBytes s'.mem v n).toList)
    (hmem : ∀ x ∉ bytesAt rcv n, s'.mem x = s.mem x)
    (hsize : ∀ c', (s'.chan c').bufsize = (s.chan c').bufsize ∧
      (s'.chan c').elemsize = (s.chan c').elemsize) : Exchanged c n snd rcv s s' := by
  have hnone : ∀ c', pre.filterMap (chanEvent c') = [] ∧ post.filterMap (chanEvent c') = [] := by
    intro c'
    constructor
    · exact List.filterMap_eq_nil_iff.mpr fun e he => hpre e (List.mem_append_left _ he) c'
    · exact List.filterMap_eq_nil_iff.mpr fun e he => hpre e (List.mem_append_right _ he) c'
  have hevs : ∀ c', (pre ++ (evs.map (Event.chan c) ++ post)).filterMap (chanEvent c') =
      if c' = c then evs else [] := by
    intro c'
    simp only [List.filterMap_append, (hnone c').1, (hnone c').2, List.nil_append, List.append_nil,
      List.filterMap_map]
    by_cases hc : c' = c
    · have hsome : chanEvent c' ∘ Event.chan c = some := by
        funext e
        simp [chanEvent, hc]
      rw [hsome, List.filterMap_some, if_pos hc]
    · rw [if_neg hc, List.filterMap_eq_nil_iff]
      intro e _
      simp [chanEvent, Ne.symm hc]
  constructor
  case sent =>
    intro c'
    rw [sentOn_append hlog, hevs, ← hsent]
    split <;> rfl
  case rcvd =>
    intro c'
    rw [received_append hlog, hevs, ← hrcvd]
    split <;> rfl
  case mem => exact hmem
  case bufsize => exact fun c' => (hsize c').1
  case elemsize => exact fun c' => (hsize c').2

/-- The call makes its transfer without a partner. -/
theorem Calling.undisturbed_alone {ev : ChanEvent} {W : Set ℕ} (h : Calling t base c op v s)
    (hcopy : Transfer c [ev] W (s.altenter base (chanopArray c op (some v) true junk) t) b)
    (hev : ev.alt.base = base) :
    (answered t base b).log = [.ret t 0, .altret t base 0] ++ ([ev].map (.chan c) ++
      [.altcall t base]) ++ s.log ∧ Undisturbed t (fun _ => False) s (answered t base b) ∧
    ((answered t base b).control = .user ∧ (answered t base b).taskrunning = some t) := by
  have hb : b = { s with
      chan := b.chan
      alts := update s.alts base (stamped base t (chanopArray c op (some v) true junk))
      mem := b.mem
      log := .chan c ev :: .altcall t base :: s.log } := by
    rw [hcopy.eq, altenter_eq]
    rfl
  have hlog : (answered t base b).log = [.ret t 0, .altret t base 0] ++ ([ev].map (.chan c) ++
      [.altcall t base]) ++ s.log := by
    rw [hb]
    rfl
  have htask : (answered t base b).task = s.task := by
    rw [hb]
    rfl
  have hrun : (answered t base b).taskrunning = some t := by
    rw [← h.running, hb]
    rfl
  have hblocked : ∀ u ≠ t, ∀ base', AltBlocked (answered t base b) u base' ↔
      AltBlocked s u base' := by
    intro u hu base'
    have hl : u ∈ (answered t base b).live ↔ u ∈ s.live := by
      rw [hb]
      rfl
    rw [altBlocked_iff_of_log hl (h.running_ne hu) (by simpa [hrun] using hu.symm)
      (by rw [htask]) hlog (by simp [hu])]
    refine and_iff_left_of_imp fun hold => ?_
    simp [transferOf, hev, Ne.symm (h.base_ne hold)]
  refine ⟨hlog, ?_, rfl, hrun⟩
  constructor
  case live =>
    rw [hb]
    rfl
  case kind =>
    rw [htask]
    exact fun u => ⟨rfl, rfl⟩
  case context =>
    rw [htask]
    exact fun u _ => rfl
  case blocked => simpa using hblocked
  case alts =>
    intro u hu base' hb'
    have hne := h.base_ne ((hblocked u hu base').mp hb')
    have halts : (answered t base b).alts base' = b.alts base' := rfl
    rw [halts, hb]
    exact update_of_ne hne _ _

/-- The call makes its transfer with `u`, which waited for it. -/
theorem Calling.undisturbed_pair {evs : List ChanEvent} {W : Set ℕ} {s₁ s₂ : Sys Links}
    (h : Calling t base c op v s) (hu : AltBlocked s u q.base)
    (hcopy : Transfer c evs W (s.altenter base (chanopArray c op (some v) true junk) t) s₁)
    (honly : OnlyQueues s₁ s₂) (hq : ∃ e ∈ evs, e.alt = q)
    (hevs : ∀ e ∈ evs, e.alt.base = base ∨ e.alt = q) :
    (answered t base (taskready u (s₂.setXalt ⟨q.base, 0⟩ q))).log =
        [.ret t 0, .altret t base 0, .ready u] ++ (evs.map (.chan c) ++ [.altcall t base]) ++
          s.log ∧
      Undisturbed t (· = u) s (answered t base (taskready u (s₂.setXalt ⟨q.base, 0⟩ q))) ∧
      ((answered t base (taskready u (s₂.setXalt ⟨q.base, 0⟩ q))).control = .user ∧
        (answered t base (taskready u (s₂.setXalt ⟨q.base, 0⟩ q))).taskrunning = some t) := by
  set s' := answered t base (taskready u (s₂.setXalt ⟨q.base, 0⟩ q)) with hs'
  have heq : s₂ = { s with
      chan := s₂.chan
      alts := update s.alts base (stamped base t (chanopArray c op (some v) true junk))
      mem := s₁.mem
      log := evs.map (.chan c) ++ .altcall t base :: s.log } := by
    rw [honly.eq, hcopy.eq, altenter_eq]
  have hlog : s'.log = [.ret t 0, .altret t base 0, .ready u] ++ (evs.map (.chan c) ++
      [.altcall t base]) ++ s.log := by
    rw [hs', heq]
    simp [answered, taskready, addtask, Sys.setXalt, Sys.emit, Sys.setTask]
  have htask : ∀ w, (s'.task w).context = (s.task w).context ∧
      (s'.task w).startfn = (s.task w).startfn ∧ (s'.task w).system = (s.task w).system := by
    intro w
    have hready : s'.task w = (taskready u (s₂.setXalt ⟨q.base, 0⟩ q)).task w := rfl
    have hsame : (s₂.setXalt ⟨q.base, 0⟩ q).task = s.task := by
      rw [heq]
      rfl
    rw [hready, taskready_task, hsame]
    by_cases hw : w = u <;> simp [hw]
  have hlive : s'.live = s.live := by
    rw [hs', heq]
    rfl
  have hrun : s'.taskrunning = some t := by
    rw [← h.running, hs', heq]
    rfl
  have hsim := h.sim
  have hunique : ∀ w, AltBlocked s w q.base → w = u := by
    intro w hw
    obtain ⟨a, pl, ⟨L, _, rfl⟩, hI⟩ := hsim
    exact hI.altBlocked_unique hw hu
  have hblocked : ∀ w ≠ t, ∀ base', AltBlocked s' w base' ↔ AltBlocked s w base' ∧ ¬w = u := by
    intro w hw base'
    rw [altBlocked_iff_of_log (by rw [hlive]) (h.running_ne hw) (by simpa [hrun] using hw.symm)
      (htask w).1 hlog (by simp [hw])]
    apply and_congr_right
    intro hold
    have hne := h.base_ne hold
    rw [List.filterMap_eq_nil_iff]
    constructor
    · intro hnone hwu
      subst hwu
      obtain ⟨e, he, rfl⟩ := hq
      have htr := hnone (.chan c e) (by simp [he])
      simp [transferOf, hold.base_eq hu] at htr
    · intro hwu e he
      simp only [List.mem_append, List.mem_cons, List.not_mem_nil, or_false, List.mem_map] at he
      rcases he with (rfl | rfl | rfl) | ⟨d, hd, rfl⟩ | rfl
      · rfl
      · rfl
      · rfl
      · simp only [transferOf, ite_eq_right_iff, reduceCtorEq, imp_false]
        rcases hevs d hd with hbase | halt
        · exact fun he => hne (he.symm.trans hbase)
        · intro he
          rw [halt] at he
          exact hwu (hunique w (he ▸ hold))
      · rfl
  refine ⟨hlog, ?_, rfl, hrun⟩
  constructor
  case live => exact hlive
  case kind => exact fun w => ⟨(htask w).2.1, (htask w).2.2⟩
  case context => exact fun w _ => (htask w).1
  case blocked => exact hblocked
  case alts =>
    intro w hw base' hb'
    obtain ⟨hold, hwu⟩ := (hblocked w hw base').mp hb'
    have hne := h.base_ne hold
    have hneq : base' ≠ q.base := by
      rintro rfl
      exact hwu (hunique w hold)
    rw [hs', heq]
    simp [answered, taskready, addtask, Sys.setXalt, Sys.emit, Sys.setTask, hne, hneq]

theorem Calling.exec_alone (h : Calling t base c op v s)
    (hcopy : altcopy (some ⟨base, 0⟩) none
    (s.altenter base (chanopArray c op (some v) true junk) t) =
      .ok b) : Outcome t base c op v s (answered t base b) := by
  have hx := chanop_branch s base c (some v) junk t h.queued
  have hpre : ∀ e ∈ [Event.ret t 0, .altret t base 0] ++ [.altcall t base], ∀ c,
      chanEvent c e = none := by simp [chanEvent]
  rcases h.queued with rfl | rfl
  · have hT := altcopy_send_transfer hx rfl hcopy
    simp only [altenter_mem, altenter_chan] at hT
    obtain ⟨hlog, hu, hctl⟩ := h.undisturbed_alone hT rfl
    refine .alone hctl ?_ hu
    apply exchanged_of_log hlog hpre rfl rfl
    · intro x _
      exact (hT.mem x (Set.notMem_empty x)).trans (by rw [altenter_mem])
    · intro c'
      exact ⟨(hT.bufsize c').trans (by rw [altenter_chan]),
        (hT.elemsize c').trans (by rw [altenter_chan])⟩
  · have hT := altcopy_recv_transfer hx rfl hcopy
    have hmem := altcopy_recv_mem hx rfl rfl hcopy
    simp only [altenter_chan] at hT hmem
    obtain ⟨hlog, hu, hctl⟩ := h.undisturbed_alone hT rfl
    refine .alone hctl ?_ hu
    apply exchanged_of_log hlog hpre rfl
    · simp only [if_true, Option.map_some, Option.toList_some]
      rw [show (answered t base b).mem = b.mem from rfl, hmem]
      rfl
    · intro x hx
      exact (hT.mem x hx).trans (by rw [altenter_mem])
    · intro c'
      exact ⟨(hT.bufsize c').trans (by rw [altenter_chan]),
        (hT.elemsize c').trans (by rw [altenter_chan])⟩

/-- Whoever is in a queue of a channel is blocked, with the branch that is there. -/
theorem Calling.partner (h : Calling t base c op v s) (hq : q ∈ (s.chan c).arr (otherop op)) :
    ∃ u z, AltBlocked s u q.base ∧ s.alt? q = some z ∧ z.c = c ∧ z.op = otherop op ∧ z.task = u ∧
      z.xalt = ⟨q.base, 0⟩ := by
  obtain ⟨a, pl, ⟨L, _, rfl⟩, hI⟩ := h.sim
  obtain ⟨⟨u, hu⟩, hlt, z, hz, hzc, hzo⟩ := (hI.mem_arr_iff h.queued.otherop).mp hq
  obtain ⟨hzt, hzx⟩ := (hI.altWaiting (hI.altBlocked_iff.mp hu)).stamped q.idx hlt z hz
  exact ⟨u, z, hu, hz, hzc, hzo, hzt, hzx⟩

theorem Calling.exec_pair {s₁ s₂ : Sys Links} {y : Alt} (h : Calling t base c op v s)
    (hq : q ∈ (s.chan c).arr (otherop op))
    (hcopy : altcopy (some ⟨base, 0⟩) (some q)
      (s.altenter base (chanopArray c op (some v) true junk) t) = .ok s₁)
    (hy : (s.altenter base (chanopArray c op (some v) true junk) t).alt? q = some y)
    (honly : OnlyQueues s₁ s₂) :
    Outcome t base c op v s (answered t base (taskready y.task (s₂.setXalt y.xalt q))) := by
  obtain ⟨u, z, hu, hz, hzc, hzo, hzt, hzx⟩ := h.partner hq
  obtain ⟨w, hw, hap⟩ := h.apart q hq z hz
  have hx := chanop_branch s base c (some v) junk t h.queued
  have hqb : q.base ≠ base := h.base_ne hu
  have hut : u ≠ t := by
    rintro rfl
    exact hu.2.1 h.running
  obtain rfl : z = y := by
    rw [Sys.alt?, altenter_eq] at hy
    simp only [update_of_ne hqb] at hy
    exact Option.some.inj (hz.symm.trans hy)
  have hmem₂ : ∀ x, (answered t base (taskready u (s₂.setXalt ⟨q.base, 0⟩ q))).mem x =
      s₁.mem x := by
    intro x
    rw [honly.eq]
    rfl
  have hsize : ∀ {evs W}, Transfer c evs W (s.altenter base (chanopArray c op (some v) true junk) t)
      s₁ → ∀ c', ((answered t base (taskready u (s₂.setXalt ⟨q.base, 0⟩ q))).chan c').bufsize =
        (s.chan c').bufsize ∧ ((answered t base (taskready u (s₂.setXalt ⟨q.base, 0⟩ q))).chan
          c').elemsize = (s.chan c').elemsize := by
    intro evs W hT c'
    have hr := honly.ring c'
    exact ⟨((bufsize_of_ring hr).trans (hT.bufsize c')).trans (by rw [altenter_chan]),
      ((elemsize_of_ring hr).trans (hT.elemsize c')).trans (by rw [altenter_chan])⟩
  have hpre : ∀ e ∈ [Event.ret t 0, .altret t base 0, .ready u] ++ [.altcall t base], ∀ c,
      chanEvent c e = none := by simp [chanEvent]
  rw [hzt, hzx]
  rcases h.queued with rfl | rfl
  · have hT := altcopy_pair_transfer (c := c) hx hy rfl hzo rfl hzc (.inl ⟨rfl, rfl⟩)
      (by
        rw [hw]
        exact clearOf_of_apart (by simpa only [altenter_chan] using hap.symm)) hcopy
    have hmem := altcopy_pair_mem (c := c) hx hy rfl hzo rfl hzc hw (.inl ⟨rfl, rfl⟩) hcopy
    simp only [altenter_mem, altenter_chan] at hT hmem
    obtain ⟨hlog, hun, hctl⟩ := h.undisturbed_pair hu hT honly
      (by by_cases h0 : (s.chan c).nbuf = 0 <;> simp [h0, ChanEvent.alt])
      (by by_cases h0 : (s.chan c).nbuf = 0 <;> simp [h0, ChanEvent.alt])
    refine .pair hctl hut hu hz ⟨hzc, hzo, hw⟩ ?_ hun
    apply exchanged_of_log hlog hpre
    · by_cases h0 : (s.chan c).nbuf = 0 <;> simp [h0, ChanEvent.sentBytes, amoveSource]
    · simp only [reduceCtorEq, if_false, Option.map_some, Option.toList_some]
      rw [show readBytes (answered t base (taskready u (s₂.setXalt ⟨q.base, 0⟩ q))).mem w
        (s.chan c).elemsize = readBytes s₁.mem w (s.chan c).elemsize from
          List.map_congr_left fun i _ => hmem₂ _, hmem]
      by_cases h0 : (s.chan c).nbuf = 0 <;> simp [h0, ChanEvent.rcvdBytes]
    · intro x hx
      refine ((hmem₂ x).trans (hT.mem x ?_)).trans (by rw [altenter_mem])
      rw [hw]
      exact hx
    · exact hsize hT
  · have hT := altcopy_pair_transfer (c := c) hy hx hzo rfl hzc rfl (.inr ⟨rfl, rfl⟩)
      (by
        rw [hw]
        exact clearOf_of_apart (by simpa only [altenter_chan] using hap)) hcopy
    have hmem := altcopy_pair_mem (c := c) hy hx hzo rfl hzc rfl rfl (.inr ⟨rfl, rfl⟩) hcopy
    simp only [altenter_mem, altenter_chan] at hT hmem
    obtain ⟨hlog, hun, hctl⟩ := h.undisturbed_pair hu hT honly
      (by by_cases h0 : (s.chan c).nbuf = 0 <;> simp [h0, ChanEvent.alt])
      (by by_cases h0 : (s.chan c).nbuf = 0 <;> simp [h0, ChanEvent.alt])
    refine .pair hctl hut hu hz ⟨hzc, hzo, hw⟩ ?_ hun
    apply exchanged_of_log hlog hpre
    · by_cases h0 : (s.chan c).nbuf = 0 <;> simp [h0, ChanEvent.sentBytes, amoveSource, hw]
    · simp only [if_true, Option.map_some, Option.toList_some]
      rw [show readBytes (answered t base (taskready u (s₂.setXalt ⟨q.base, 0⟩ q))).mem v
        (s.chan c).elemsize = readBytes s₁.mem v (s.chan c).elemsize from
          List.map_congr_left fun i _ => hmem₂ _, hmem]
      by_cases h0 : (s.chan c).nbuf = 0 <;> simp [h0, ChanEvent.rcvdBytes]
    · intro x hx
      exact ((hmem₂ x).trans (hT.mem x hx)).trans (by rw [altenter_mem])
    · exact hsize hT

/-- Every call of `chansend` or `chanrecv` has one of the three outcomes. -/
theorem Calling.outcome {rand₁ rand₂ : ℕ} (h : Calling t base c op v s)
    (hs' : s' = finish t s (chanalt base rand₁ rand₂ t ({ s with
      alts := update s.alts base (chanopArray c op (some v) true junk) }.emit (.altcall t base)))) :
    Outcome t base c op v s s' := by
  rw [chanalt_eq, altlen_chanop h.queued] at hs'
  obtain ⟨a, pl, hs, hI⟩ := h.sim
  cases hi : altpick base (s.altenter base (chanopArray c op (some v) true junk) t) 1 rand₁ with
  | none =>
    obtain ⟨b, hb, hbe, hring⟩ := chanop_queue s base c (some v) junk t h.queued
    have hex : (b.task t).exiting = false := by
      rw [hbe, altenter_eq]
      exact h.live.2
    have hend : ((chanopArray c op (some v) true junk)[1]?).any (fun x => x.op = .CHANEND) =
        true := by simp [chanopArray]
    simp only [hi, hend, if_true, hb, Except.map, finish] at hs'
    rw [hs', taskswitch_eq _ hex]
    exact h.block hbe hring
  | some i =>
    obtain ⟨hlt, hcan⟩ := altpick_some hi
    obtain rfl : i = 0 := by omega
    obtain ⟨b, o, hok⟩ : ∃ b o, altexecMatch ⟨base, 0⟩ rand₂
        (s.altenter base (chanopArray c op (some v) true junk) t) = .ok (b, o) := by
      have hent := hs.altenter base (chanopArray c op (some v) true junk) t
      have hpick : altpick base (a.altenter base (chanopArray c op (some v) true junk) t)
          (altlen (chanopArray c op (some v) true junk)) rand₁ = some 0 := by
        rw [hs.altpick_altenter, altlen_chanop h.queued, hi]
      have hunused := h.unused
      have huser : a.User t := by
        obtain ⟨q, _, rfl⟩ := hs
        exact ⟨h.running, h.user⟩
      obtain ⟨q, hq, rfl⟩ := hs
      obtain ⟨b, o, _, _, _, hok, _⟩ := hI.altrun huser hunused hpick rand₂
      obtain ⟨b', hok', _⟩ := hent.altexecMatch hok
      exact ⟨b', o, hok'⟩
    have hs'' : s' = answered t base (o.elim b fun u => taskready u b) := by
      simpa [hi, altexec_eq hok, Except.map, finish, answered] using hs'
    rw [hs'']
    rcases altexecMatch_cases (chanop_branch s base c (some v) junk t h.queued) h.queued hok with
      ⟨_, hcopy, rfl⟩ | ⟨q, hq, s₁, s₂, y, hcopy, hy, honly, rfl, rfl⟩
    · exact h.exec_alone hcopy
    · rw [altenter_chan] at hq
      exact h.exec_pair hq hcopy hy honly

end Outcome
end Libtask
