import Libtask.Refine.Transfers

/-! Point-to-point programs are determinate: what is received on each channel does not depend on
the order in which ready tasks are dispatched. -/
namespace Libtask
open Function Relation Runs Dataflow

namespace PointToPoint
variable {N : PointToPoint} {s₀ s s' : Sys Links} {t : TaskPtr} {c base : ℕ}

theorem Follows.step (h : N.Follows s₀ s) (hs : N.Step s s') : N.Follows s₀ s' := by
  cases hs with
  | pick hc ht hr => exact h.pick hc ht hr
  | fault => exact h.fault
  | step hact hs hin =>
    have hsim := sim_step h.sim hs
    rcases step_cases hs with ⟨rfl, hc, rfl⟩ | ⟨t, rfl, ht, hc, hs'⟩ |
      ⟨k, t, rfl, ht, hc, hadm, hs'⟩
    · exact h.schedule hc hsim
    · exact h.resume ht hc hs' hsim
    · obtain ⟨t', ht', hallow⟩ := hact k rfl
      obtain rfl : t = t' := Option.some.inj (ht.symm.trans ht')
      cases hallow with
      | chansend hdue => exact h.chanop ht hc hdue hadm.2.2 hs' hsim hin
      | chanrecv hdue => exact h.chanop ht hc hdue hadm.2.2 hs' hsim hin
      | write hmem =>
        rw [hs'] at hsim ⊢
        exact h.write ht hmem hsim
      | taskyield =>
        rw [hs'] at hsim ⊢
        exact h.yield ht hsim
      | taskexit hstop =>
        rw [hs'] at hsim ⊢
        exact h.exit ht hstop hsim

theorem Follows.run (h : N.Follows s₀ s) (hs : ReflTransGen N.Step s s') : N.Follows s₀ s' := by
  induction hs with
  | refl => exact h
  | tail _ hs ih => exact ih.step hs

/-- Nobody waits at the start. -/
theorem Start.follows (h : N.Start s) : N.Follows s s := by
  obtain ⟨a, pl, _, hI, hs⟩ := h.reachable.sim
  refine ⟨⟨a, pl, hs, hI⟩, fun c => ?_, fun _ => rfl, .refl, h.gone, fun t ht => ?_,
    fun t base hb => ?_⟩
  · obtain ⟨q, _, rfl⟩ := hs
    rcases h.unused c with hfit | ⟨hlog, hnbuf, hoff⟩
    · exact ⟨(hI.ring c).fifo (Nat.lt_of_le_of_lt (Nat.le_add_left _ 48) hfit), .inl hfit⟩
    · refine ⟨?_, .inr ?_⟩
      · rw [hlog, Channel.held, hnbuf]
        rfl
      · rw [hnbuf, hoff]
        omega
  · rcases h.task t ht with hu | hx | hx
    · exact .inl ⟨hu.1, .inl hu.2⟩
    · exact .inr (.inl hx)
    · exact .inr (.inr (.inl hx))
  · rcases h.task t hb.1 with hu | hx | ⟨n, hx⟩
    · exact absurd hu.1 hb.2.1
    · exact absurd (hx.1.symm.trans hb.2.2.1) (by simp)
    · exact absurd (hx.symm.trans hb.2.2.1) (by simp)

section Stopped

/-- Once the program has stopped every task that is left waits for a transfer. -/
theorem Follows.blocked (h : N.Follows s₀ s) (hstop : Stopped s) (ht : t ∈ s.live) :
    ∃ base, AltBlocked s t base := by
  obtain ⟨a, pl, ⟨q, _, rfl⟩, hI⟩ := h.sim
  have hidle : (s.withLinks q).taskrunning ≠ some t ∧ t ∉ (s.withLinks q).links .taskrunqueue := by
    refine ⟨by simp [Sys.withLinks, hstop.1], fun hm => ?_⟩
    have hr := (hI.placed.ready t).symm.trans (hstop.2 t ht)
    simp [hI.placed.mem_list.mp hm] at hr
  have hhome : ((s.withLinks q).task t).context.home ≠ none := fun hnone =>
    (hI.running_or_queued ht hnone).elim hidle.1 hidle.2
  rcases (h.task t ht).resolve_left (fun hu => hidle.1 hu.1) with ⟨hx, _⟩ | ⟨n, hx⟩ | ⟨base, hx⟩
  · exact absurd (congrArg Context.home hx) hhome
  · exact absurd (congrArg Context.home hx) hhome
  · refine ⟨base, hI.altBlocked_iff.mpr
      ((hI.switched_out t (.alt base)).mp ⟨⟨ht, hidle.1, ?_⟩, ?_⟩).1⟩
    · exact hstop.2 t ht
    · exact congrArg Context.home hx

/-- The blocked tasks are those that have something left to do. -/
theorem Follows.blocked_iff (h : N.Follows s₀ s) (hstop : Stopped s) :
    (∃ base, AltBlocked s t base) ↔ N.next t (N.history s.log t) ≠ .stop := by
  constructor
  · rintro ⟨base, hb⟩ hn
    obtain ⟨x, _, _, _, hdue⟩ := h.waits t base hb
    rcases hdue.queued with ho | ho
    · cases hn.symm.trans (hdue.send ho)
    · cases hn.symm.trans (hdue.recv ho)
  · intro hn
    refine h.blocked hstop ?_
    by_contra hl
    exact hn (h.gone t hl)

/-- A task that waits for a transfer is in the queue for it. -/
theorem Follows.queued (h : N.Follows s₀ s) (hb : AltBlocked s t base) :
    ∃ x : Alt, N.Due s t x.c x.op x.v ∧ (⟨base, 0⟩ : AltPtr) ∈ (s.chan x.c).arr x.op := by
  obtain ⟨x, y, halts, _, hdue⟩ := h.waits t base hb
  obtain ⟨a, pl, ⟨q, _, rfl⟩, hI⟩ := h.sim
  refine ⟨x, hdue, (hI.mem_arr_iff hdue.queued).mpr ⟨⟨t, hb⟩, ?_, x, ?_, rfl, rfl⟩⟩
  · have hx : isAltend x.op = false := by
      rcases hdue.queued with ho | ho <;> rw [ho] <;> rfl
    show 0 < altlen (s.alts base)
    rw [halts, altlen_cons, hx]
    simp
  · show (s.alts base)[0]? = some x
    rw [halts]
    rfl

theorem Follows.sender_queued {b : List UInt8} (h : N.Follows s₀ s) (hstop : Stopped s)
    (hn : N.next t (N.history s.log t) = .send c b) :
    ∃ p ∈ (s.chan c).asend, AltBlocked s t p.base := by
  obtain ⟨base, hb⟩ := (h.blocked_iff hstop).mpr (by rw [hn]; simp)
  obtain ⟨x, hdue, hmem⟩ := h.queued hb
  rcases hdue.queued with ho | ho
  · cases hn.symm.trans (hdue.send ho)
    rw [ho] at hmem
    exact ⟨_, hmem, hb⟩
  · cases hn.symm.trans (hdue.recv ho)

theorem Follows.receiver_queued (h : N.Follows s₀ s) (hstop : Stopped s)
    (hn : N.next t (N.history s.log t) = .recv c) :
    ∃ p ∈ (s.chan c).arecv, AltBlocked s t p.base := by
  obtain ⟨base, hb⟩ := (h.blocked_iff hstop).mpr (by rw [hn]; simp)
  obtain ⟨x, hdue, hmem⟩ := h.queued hb
  rcases hdue.queued with ho | ho
  · cases hn.symm.trans (hdue.send ho)
  · cases hn.symm.trans (hdue.recv ho)
    rw [ho] at hmem
    exact ⟨_, hmem, hb⟩

/-- Once the program has stopped no transfer of its network is left. -/
theorem Follows.stuck (h : N.Follows s₀ s) (hstop : Stopped s) :
    N.Stuck (fun c => (s₀.chan c).bufsize) (N.history s.log) := by
  have hidle : ∀ c, QueueInv (s.chan c) := by
    obtain ⟨a, pl, ⟨q, _, rfl⟩, hI⟩ := h.sim
    exact hI.idle
  have hfifo : ∀ c, N.sent c (N.history s.log) = N.rcvd c (N.history s.log) ++ (s.chan c).held ∧
      (s.chan c).held.length = (s.chan c).nbuf := by
    intro c
    rw [sent_history, rcvd_history]
    exact ⟨(h.kept c).fifo, by rw [Channel.held, Ring.length_contents]⟩
  intro d hd
  cases hd with
  | @put c b h0 hs hroom =>
    obtain ⟨p, hp, _⟩ := h.sender_queued hstop hs
    rw [← h.bufsize] at h0 hroom
    have hfull := (hidle c).full (Nat.pos_of_ne_zero h0) (List.ne_nil_of_mem hp)
    rw [(hfifo c).1, List.length_append, (hfifo c).2] at hroom
    omega
  | @get c b rest h0 hr hheld =>
    obtain ⟨p, hp, _⟩ := h.receiver_queued hstop hr
    rw [← h.bufsize] at h0
    have hempty := (hidle c).empty (Nat.pos_of_ne_zero h0) (List.ne_nil_of_mem hp)
    rw [(hfifo c).1, List.append_cancel_left_eq] at hheld
    have hlen := (hfifo c).2
    rw [hheld, hempty] at hlen
    cases hlen
  | @meet c b h0 hs hr =>
    obtain ⟨p, hp, hbp⟩ := h.sender_queued hstop hs
    obtain ⟨q, hq, hbq⟩ := h.receiver_queued hstop hr
    rw [← h.bufsize] at h0
    have hpq := (hidle c).solo h0 p hp q hq
    rw [← hpq] at hbq
    exact Net.ne_receiver hs hr (h.blocked_unique hbp hbq).symm

end Stopped

/-- Two runs of a point-to-point program, in which ready tasks are dispatched in any orders, receive
the same elements from each channel as far as both go; and if both have stopped, they have received
the same, and the same tasks are blocked. -/
theorem schedule_independence {N : PointToPoint} {s₀ s₁ s₂ : Sys Links} (h : N.Start s₀)
    (h₁ : ReflTransGen N.Step s₀ s₁) (h₂ : ReflTransGen N.Step s₀ s₂) :
    (∀ c, received c s₁ <+: received c s₂ ∨ received c s₂ <+: received c s₁) ∧
      (Stopped s₁ → Stopped s₂ → (∀ c, received c s₁ = received c s₂) ∧
        ∀ t, (∃ base, AltBlocked s₁ t base) ↔ ∃ base, AltBlocked s₂ t base) := by
  have hf₁ := h.follows.run h₁
  have hf₂ := h.follows.run h₂
  simp only [received, ← rcvd_history (N := N)]
  refine ⟨Net.rcvd_comparable hf₁.fires hf₂.fires, fun hs₁ hs₂ => ?_⟩
  have heq := Net.stuck_unique hf₁.fires hf₂.fires (hf₁.stuck hs₁) (hf₂.stuck hs₂)
  refine ⟨fun c => by rw [heq], fun t => ?_⟩
  rw [hf₁.blocked_iff hs₁, hf₂.blocked_iff hs₂, heq]

def blank : Alt := { c := 0, v := none, op := .CHANNOP, task := 0, xalt := ⟨0, 0⟩ }

/-- Two tasks: the first sends one byte on channel 0, the second receives it. -/
def greeting : PointToPoint where
  sender _ := 4096
  receiver _ := 8192
  next t h :=
    if t = 4096 ∧ h.isEmpty then .send 0 [0]
    else if t = 8192 ∧ h.isEmpty then .recv 0 else .stop
  next_send := by
    intro t h c b hn
    split at hn
    · rename_i ht
      exact ht.1.symm
    · split at hn <;> cases hn
  next_recv := by
    intro t h c hn
    split at hn
    · cases hn
    · split at hn
      · rename_i ht
        exact ht.1.symm
      · cases hn
  writes _ := ∅

/-- The first task creates the second. -/
def greetingRun : List (Env × Action) :=
  [(.still 0, .schedule), (.still 0, .resume), (.still 8192, .call (.taskcreate .user))]

/-- In one run the first task sends its byte; in another it yields, and is dispatched again
before the second task. -/
theorem schedule_independence_small : ∃ s₀ s₁ s₂ s₃, greeting.Start s₀ ∧ greeting.Step s₀ s₁ ∧
    greeting.Step s₀ s₂ ∧ greeting.Step s₂ s₃ ∧ (s₁.chan 0).nbuf = 1 ∧
    head .taskrunqueue s₂ = some 8192 ∧ s₃.taskrunning = some 4096 ∧
    (∀ c, received c s₁ <+: received c s₃ ∨ received c s₃ <+: received c s₁) ∧
      (Stopped s₁ → Stopped s₃ → (∀ c, received c s₁ = received c s₃) ∧
        ∀ t, (∃ base, AltBlocked s₁ t base) ↔ ∃ base, AltBlocked s₃ t base) := by
  obtain ⟨s₀, s₁, s₂, hs₀, hs₁, hs₂, hnbuf, hqueue, hpick, hchan, hmem, hlive, hrun, hc, hx, hh⟩ :
      ∃ s₀ s₁ s₂ : Sys Links, Program.small.after (fun _ _ => True) greetingRun = some s₀ ∧
        step (.still 0, .call (chansend 0 0 (some 0) blank)) s₀ = some s₁ ∧
        step (.still 0, .call .taskyield) s₀ = some s₂ ∧ (s₁.chan 0).nbuf = 1 ∧
        head .taskrunqueue s₂ = some 8192 ∧
        (s₂.control = .scheduler ∧ 4096 ∈ s₂.live ∧ (s₂.task 4096).ready = true ∧
          (taskschedulerPick 4096 s₂).taskrunning = some 4096) ∧
        s₀.chan = Program.small.globals.chan ∧ s₀.mem = Program.small.mem ∧
        s₀.live = {4096, 8192} ∧ s₀.taskrunning = some 4096 ∧ s₀.control = .user ∧
        ((s₀.task 8192).context = .taskstart ∧ (s₀.task 8192).startfn = .user) ∧
        greeting.history s₀.log 4096 = [] :=
    ⟨_, _, _, rfl, rfl, rfl, rfl, rfl, ⟨rfl, by decide, rfl, rfl⟩, rfl, rfl, by decide, rfl, rfl,
      ⟨rfl, rfl⟩, rfl⟩
  have hfit : ∀ c, 48 + (s₀.chan c).bufsize * (s₀.chan c).elemsize < 2 ^ 32 := by
    intro c
    rw [hchan]
    exact (by decide : 48 + 1 * 1 < 2 ^ 32)
  have hin : ∀ s, InBlocks s₀ s := by
    obtain ⟨_, _, _, hI, q, _, rfl⟩ := Reachable.sim (Program.reachableBy_after hs₀)
    refine fun s c evs _ => (hI.ring c).slots_inside ?_ (hfit c) evs
    show 0 < (((s₀.withLinks q).chan c).bufsize)
    rw [show (s₀.withLinks q).chan = s₀.chan from rfl, hchan]
    exact Nat.one_pos
  have hstart : greeting.Start s₀ := by
    refine ⟨Program.reachableBy_after hs₀, fun c => .inl (hfit c), fun t ht => ?_, fun t ht => ?_⟩
    · rw [hlive] at ht
      rcases Finset.mem_insert.mp ht with rfl | ht
      · exact .inl ⟨hrun, hc⟩
      · rw [Finset.mem_singleton.mp ht]
        exact .inr (.inl hx)
    · rw [hlive] at ht
      simp only [Finset.mem_insert, Finset.mem_singleton, not_or] at ht
      simp [greeting, ht.1, ht.2]
  have hsend : greeting.Allows s₀ 4096 (chansend 0 0 (some 0) blank) := by
    refine .chansend ⟨.inl rfl, fun _ _ _ _ _ => id, nofun, fun _ => ?_, nofun⟩
    rw [hh, hchan, hmem]
    rfl
  have h₁ : greeting.Step s₀ s₁ := by
    refine .step (fun c hcall => ⟨4096, hrun, ?_⟩) hs₁ (hin s₁)
    cases hcall
    exact hsend
  have h₂ : greeting.Step s₀ s₂ := by
    refine .step (fun c hcall => ⟨4096, hrun, ?_⟩) hs₂ (hin s₂)
    cases hcall
    exact .taskyield
  have h₃ : greeting.Step s₂ (taskschedulerPick 4096 s₂) := .pick hpick.1 hpick.2.1 hpick.2.2.1
  exact ⟨s₀, s₁, s₂, _, hstart, h₁, h₂, h₃, hnbuf, hqueue, hpick.2.2.2,
    schedule_independence hstart (.single h₁) (.head h₂ (.single h₃))⟩

end PointToPoint
end Libtask
