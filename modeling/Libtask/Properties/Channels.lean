import Libtask.Abstract.LockOps
import Libtask.Properties.Placement

/-! Channels: they are bounded first-in first-out queues, no two tasks miss each other on one,
and every alt that returns a branch has had that branch executed and no other. -/
namespace Libtask
open Function Runs

/-- The ways the process can end: `exit`, and the aborts that a client error or a lack of
memory or descriptors leads to. -/
def Halt.expected : Halt → Prop
  | .exit _ => True
  | .abort a => a ∈ [Abort.taskallocMalloc, .qlockOops, .qunlockOwner, .wunlockNotLocked,
      .wunlockReaders, .tooManyPollfds]
  | .fault | .diverge => False

/-- The ends that the program or its environment brings about. -/
def Halt.own : Halt → Prop
  | .exit _ => True
  | .abort a => a = .taskallocMalloc ∨ a = .tooManyPollfds
  | .fault | .diverge => False

/-- A move that ends the process for a lock that is not held as the caller, or the library, has
it. -/
inductive Misuse (a : Sys Queues) : Option Call → Halt → Prop
  | unowned {t : TaskPtr} {l : ℕ} {c : Call} (h : a.User t) (ho : (a.qlock l).owner = none)
      (hc : c = .qunlock l ∨ ∃ r, c = .tasksleep r ∧ (a.rendez r).l = some l) :
      Misuse a (some c) (.abort .qunlockOwner)
  | oops {t : TaskPtr} {l : ℕ} {c : Context} (h : a.Resuming t c) (hc : c.inQlock l)
      (ho : (a.qlock l).owner ≠ some t) : Misuse a none (.abort .qlockOops)
  | unwritten {t : TaskPtr} {l : ℕ} (h : a.User t) (hw : (a.rwlock l).writer = none) :
      Misuse a (some (.wunlock l)) (.abort .wunlockNotLocked)
  | hasreaders {t : TaskPtr} {l : ℕ} (h : a.User t) (hw : (a.rwlock l).writer ≠ none)
      (hr : (a.rwlock l).readers ≠ 0) : Misuse a (some (.wunlock l)) (.abort .wunlockReaders)

section Moves
variable {lab : Option Call} {a b : Sys Queues} {pl : Placement}

/-- A move that ends the process does so for the program or its environment, or for a lock. -/
theorem Move.halts (hI : Inv a pl) (m : Move lab a b) {v : Halt} (hv : b.control = .halted v) :
    a.control = .halted v ∨ v.own ∨ Misuse a lab v := by
  cases m with
  | exit | stall | exitall | nomem | toomany =>
    cases hv
    exact .inr (.inl (by simp [Halt.own]))
  | unowned h ho hc =>
    cases hv
    exact .inr (.inr (.unowned h ho hc))
  | oops h hc ho =>
    cases hv
    exact .inr (.inr (.oops h hc ho))
  | unwritten h hw =>
    cases hv
    exact .inr (.inr (.unwritten h hw))
  | hasreaders h hw hr =>
    cases hv
    exact .inr (.inr (.hasreaders h hw hr))
  | dispatch | back | altback => cases hv
  | tasksystem =>
    unfold Libtask.tasksystem at hv
    split at hv <;> exact .inl hv
  | life m =>
    cases m with
    | create | startfd => exact .inl hv
    | taskexit v _ =>
      rw [taskexit_eq] at hv
      cases hv
  | fd m =>
    cases m with
    | fdcall | fdyield | taskdelay | fdwait => cases hv
    | _ => exact .inl hv
  | taskyield | altblock => cases hv
  | queuing m => exact .inl (m.objMove.halted hv)
  | rw m => exact .inl (m.objMove.halted hv)
  | @altrun _ _ _ _ _ _ _ _ u h has hbase hi hx =>
    obtain ⟨c, evs, _, hb, _⟩ := hI.altrun_of_ok h hbase hi hx
    have hc := congrArg Sys.control hb
    cases u <;> exact .inl (hc.symm.trans hv)
  | _ => exact .inl hv

/-- A move that ends the process ends it in an expected way. -/
theorem Move.halted (hI : Inv a pl) (m : Move lab a b) {v : Halt} (hv : b.control = .halted v) :
    a.control = .halted v ∨ v.expected := by
  refine (m.halts hI hv).imp_right ?_
  rintro (hown | hbad)
  · cases v with
    | exit => trivial
    | abort r => rcases hown with rfl | rfl <;> simp [Halt.expected]
    | fault | diverge => cases hown
  · cases hbad <;> simp [Halt.expected]

end Moves

theorem ReachedBy.halted {ok : Sys Queues → Call → Prop} {a : Sys Queues} {v : Halt}
    (h : ReachedBy ok a) (hv : a.control = .halted v) : v.expected := by
  induction h using Reach.induct with
  | init h =>
    obtain ⟨P, rfl⟩ := h
    cases hv
  | step h hs ih =>
    obtain ⟨pl, hI⟩ := ReachedBy.inv h
    obtain ⟨_, m, _⟩ := hs
    exact (m.halted hI hv).elim ih id

/-- Two tasks on a channel with room for one element: the first sends twice and blocks. -/
def sendRun : List (Env × Action) :=
  let junk : Alt := { c := 0, v := none, op := .CHANNOP, task := 0, xalt := ⟨0, 0⟩ }
  [(.still 0, .schedule), (.still 0, .resume), (.still 8192, .call (.taskcreate .user)),
    (.still 0, .call (chansend 0 0 (some 0) junk)), (.still 0, .call (chansend 1 0 none junk))]

/-- `t` is blocked in an alt with a branch for `op` on channel `c`. -/
def BlockedOn {σ : Type} (s : Sys σ) (t : TaskPtr) (c : ℕ) (op : Op) : Prop :=
  ∃ base i x, AltBlocked s t base ∧ i < altlen (s.alts base) ∧ s.alt? ⟨base, i⟩ = some x ∧
    x.c = c ∧ x.op = op

section Rendezvous
variable {a : Sys Queues} {pl : Placement} {t u : TaskPtr} {c : ℕ} {op : Op} {p : AltPtr}

theorem Inv.mem_arr_iff (h : Inv a pl) (hop : op.queued) : p ∈ (a.chan c).arr op ↔
    (∃ t, AltBlocked a t p.base) ∧ p.idx < altlen (a.alts p.base) ∧
      ∃ x, a.alt? p = some x ∧ x.c = c ∧ x.op = op := by
  simp only [(h.queue c op hop).2, Enqueued, h.altBlocked_iff]

theorem Inv.blockedOn (h : Inv a pl) (hop : op.queued) (ht : BlockedOn a t c op) :
    ∃ p ∈ (a.chan c).arr op, AltBlocked a t p.base := by
  obtain ⟨base, i, x, hb, hi, hx, hc, ho⟩ := ht
  exact ⟨⟨base, i⟩, (h.mem_arr_iff hop).mpr ⟨⟨t, hb⟩, hi, x, hx, hc, ho⟩, hb⟩

/-- An array is that of one blocked call only. -/
theorem Inv.altBlocked_unique {base : ℕ} (h : Inv a pl) (ht : AltBlocked a t base)
    (hu : AltBlocked a u base) : t = u := by
  have hin : ∀ {v}, AltBlocked a v base → InAlt a pl v base := fun hv =>
    ⟨hv.2.2.1, by simp [h.altBlocked_iff.mp hv], by simp [h.altBlocked_iff.mp hv]⟩
  exact h.unique t u base (hin ht) (hin hu)

/-- On a buffered channel a queued alt cannot be executed. -/
theorem Inv.not_altcanexec (h : Inv a pl) (hbuf : 0 < (a.chan c).bufsize)
    (hp : p ∈ (a.chan c).asend ∨ p ∈ (a.chan c).arecv) : altcanexec a p = false := by
  rw [Bool.eq_false_iff]
  intro hcan
  rcases hp with hp | hp
  · obtain ⟨_, _, x, hx, hxc, hxo⟩ :=
      (h.mem_arr_iff (.inl rfl)).mp (hp : p ∈ (a.chan c).arr .CHANSND)
    rw [altcanexec_eq hx (.inl hxo), hxc, if_neg (by omega)] at hcan
    have hfull := (h.idle c).full hbuf (List.ne_nil_of_mem hp)
    have hlt := hcan.1 hxo
    omega
  · obtain ⟨_, _, x, hx, hxc, hxo⟩ :=
      (h.mem_arr_iff (.inr rfl)).mp (hp : p ∈ (a.chan c).arr .CHANRCV)
    rw [altcanexec_eq hx (.inr hxo), hxc, if_neg (by omega)] at hcan
    have hempty := (h.idle c).empty hbuf (List.ne_nil_of_mem hp)
    have hpos := hcan.2 hxo
    omega

end Rendezvous

/-- On every channel the waiting alts and the ring fit each other, so that no two tasks miss
each other. -/
structure NoMissedRendezvous {σ : Type} (s : Sys σ) : Prop where
  nbuf_le : ∀ c, (s.chan c).nbuf ≤ (s.chan c).bufsize
  off_lt : ∀ c, 0 < (s.chan c).bufsize → (s.chan c).off < (s.chan c).bufsize
  unbuffered : ∀ c, (s.chan c).bufsize = 0 → (s.chan c).nbuf = 0 ∧ (s.chan c).off = 0
  full : ∀ c, 0 < (s.chan c).bufsize → (s.chan c).asend ≠ [] →
    (s.chan c).nbuf = (s.chan c).bufsize
  empty : ∀ c, 0 < (s.chan c).bufsize → (s.chan c).arecv ≠ [] → (s.chan c).nbuf = 0
  stuck : ∀ c, 0 < (s.chan c).bufsize → ∀ p, p ∈ (s.chan c).asend ∨ p ∈ (s.chan c).arecv →
    altcanexec s p = false
  solo : ∀ c, (s.chan c).bufsize = 0 → ∀ p ∈ (s.chan c).asend, ∀ q ∈ (s.chan c).arecv,
    p.base = q.base ∧ ∃ t, AltBlocked s t p.base
  no_missed : ∀ c t u, BlockedOn s t c .CHANSND → BlockedOn s u c .CHANRCV → t = u
  no_assert : s.control ≠ .halted (.abort .assertFailed)
  no_fault : s.control ≠ .halted .fault

/-- No two tasks are ever left blocked on complementary operations of a channel, and no
assertion or division of `altcopy` ever fails. -/
theorem no_missed_rendezvous {s : Sys Links} (h : Reachable s) : NoMissedRendezvous s := by
  obtain ⟨_, pl, ha, hI, q, hq, rfl⟩ := h.sim
  constructor
  case nbuf_le => exact fun c => (hI.ring c).nbuf_le
  case off_lt => exact fun c => (hI.ring c).off_lt
  case unbuffered =>
    intro c h0
    have hle := (hI.ring c).nbuf_le
    exact ⟨Nat.eq_zero_of_le_zero (h0 ▸ hle), (hI.ring c).off_zero h0⟩
  case full => exact fun c => (hI.idle c).full
  case empty => exact fun c => (hI.idle c).empty
  case stuck => exact fun c hbuf p hp => hI.not_altcanexec hbuf hp
  case solo =>
    intro c h0 p hp r hr
    exact ⟨(hI.idle c).solo h0 p hp r hr, ((hI.mem_arr_iff (.inl rfl)).mp hp).1⟩
  case no_missed =>
    intro c t u ht hu
    obtain ⟨p, hp, hpt⟩ := hI.blockedOn (.inl rfl) ht
    obtain ⟨r, hr, hru⟩ := hI.blockedOn (.inr rfl) hu
    by_cases h0 : (s.chan c).bufsize = 0
    · have hpr := (hI.idle c).solo h0 p hp r hr
      rw [← hpr] at hru
      exact hI.altBlocked_unique hpt hru
    · have hbuf : 0 < (s.chan c).bufsize := Nat.pos_of_ne_zero h0
      have hfull : (s.chan c).nbuf = (s.chan c).bufsize :=
        (hI.idle c).full hbuf (List.ne_nil_of_mem hp)
      have hempty : (s.chan c).nbuf = 0 := (hI.idle c).empty hbuf (List.ne_nil_of_mem hr)
      omega
  case no_assert =>
    intro hv
    have hexp := ha.halted hv
    simp [Halt.expected] at hexp
  case no_fault => exact fun hv => ha.halted hv

theorem no_missed_rendezvous_small : ∃ s, Program.small.after (fun _ _ => True) sendRun = some s ∧
    NoMissedRendezvous s := by
  have hrun : (Program.small.after (fun _ _ => True) sendRun).isSome := by decide
  obtain ⟨s, hs⟩ := Option.isSome_iff_exists.mp hrun
  exact ⟨s, hs, no_missed_rendezvous (Program.reachableBy_after hs)⟩

end Libtask
