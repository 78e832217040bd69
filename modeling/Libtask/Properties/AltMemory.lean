import Libtask.ChannelMemory
import Libtask.Properties.Nonblocking
import Libtask.Refine.Data

/-! Calls of `chanalt` in two memories that agree on what is sent: they go the same way, and write
the same bytes to the same place. -/
namespace Libtask
open Function

theorem taskswitch_withMem {σ : Type} (x : Context) (t : TaskPtr) (m : ℕ → UInt8) (s : Sys σ) :
    taskswitch x t (s.withMem m) = (taskswitch x t s).withMem m := by
  have h := withData_taskswitch (t := t) (d := ⟨s.chan, s.alts, m⟩) x s
  rw [show s.withMem m = s.withData ⟨s.chan, s.alts, m⟩ from rfl, h, Sys.withData, Sys.withMem]
  have hd := taskswitch_data (t := t) x s
  rw [← show s.chan = (taskswitch x t s).chan from (congrArg Data.chan hd).symm,
    ← show s.alts = (taskswitch x t s).alts from (congrArg Data.alts hd).symm]

section Queued
variable {s : Sys Links} {c base : ℕ} {op : Op} {p q : AltPtr} {t : TaskPtr}

/-- A queued alt is a branch, stamped and for this queue, of a task that is blocked. -/
theorem Reachable.queued_alt (h : Reachable s) (hq : q ∈ (s.chan c).arr op) :
    ∃ y, s.alt? q = some y ∧ y.c = c ∧ y.op = op ∧ y.xalt = ⟨q.base, 0⟩ ∧
      AltBlocked s y.task q.base := by
  obtain ⟨_, pl, _, hI, l, _, rfl⟩ := h.sim
  obtain ⟨⟨u, hu⟩, hlt, y, hy, hc, hop⟩ := (hI.mem_arr_iff (mem_arr_queued hq)).mp hq
  obtain ⟨htask, hxalt⟩ := (hI.altWaiting (hI.altBlocked_iff.mp hu)).stamped q.idx hlt y hy
  refine ⟨y, hy, hc, hop, hxalt, ?_⟩
  rw [htask]
  exact hu

end Queued

section Call
variable {s : Sys Links} {t : TaskPtr} {base i : ℕ} {as : List Alt} {q : AltPtr} {L : Set ℕ}
  {m : ℕ → UInt8} {e : Env}

theorem branch_altenter (s : Sys Links) (base : ℕ) (t : TaskPtr) (hi : i < altlen as) :
    ∃ y, as[i]? = some y ∧ (s.altenter base as t).alt? ⟨base, i⟩ = some (stamp base t y) ∧
      (y.op = .CHANNOP ∨ y.op.queued) := by
  have hle : altlen as ≤ as.length := (List.takeWhile_prefix _).length_le
  have hy : as[i]? = some as[i] := List.getElem?_eq_getElem (by omega)
  have halts : (s.altenter base as t).alts base = stamped base t as := by
    simp
  refine ⟨as[i], hy, ?_, ?_⟩
  · rw [Sys.alt?, halts, getElem?_stamped, if_pos hi, hy, Option.map_some]
  · by_cases hn : as[i].op = .CHANNOP
    · exact .inl hn
    · exact .inr (queued_of_ne (not_altend_of_lt hi hy) hn)

/-- The branch that is picked is executed with alts that are queued for the other direction. -/
theorem Reachable.executes (h : Reachable s) (has : AltArray s base as) {rand : ℕ}
    (hi : altpick base (s.altenter base as t) (altlen as) rand = some i) :
    ∃ y, as[i]? = some y ∧ Executes (s.altenter base as t) ⟨base, i⟩ (stamp base t y) := by
  obtain ⟨hlt, hcan⟩ := altpick_some hi
  obtain ⟨y, hy, hbranch, hop⟩ := branch_altenter s base t hlt
  refine ⟨y, hy, hbranch, ?_, ?_⟩
  · refine hop.resolve_left fun hn => ?_
    rw [not_altcanexec_nop hbranch hn] at hcan
    cases hcan
  · intro q hq
    obtain ⟨z, hz, hzc, hzo, _⟩ := h.queued_alt hq
    rw [alt?_altenter (h.queued_base has _ _ hq).1]
    exact ⟨z, hz, hzc, hzo⟩

theorem Executes.mem_partner {y : Alt} {rand : ℕ}
    (h : Executes (s.altenter base as t) ⟨base, i⟩ (stamp base t y))
    (hq : altpartner ⟨base, i⟩ rand (s.altenter base as t) = some q) :
    q ∈ (s.chan y.c).arr (otherop y.op) := by
  have hmem := mem_of_altpartner h.branch hq
  exact hmem

/-- No alt that waits sends from `L`. -/
def Unsent (L : Set ℕ) (s : Sys Links) : Prop :=
  ∀ c, ∀ q ∈ (s.chan c).asend, ∀ y, s.alt? q = some y →
    ClearOf L y.v (s.chan y.c).elemsize

/-- No branch of the array sends from `L`. -/
def SendsOff (L : Set ℕ) (s : Sys Links) (as : List Alt) : Prop :=
  ∀ x ∈ as, x.op = .CHANSND → ClearOf L x.v (s.chan x.c).elemsize

/-- A call that executes a branch at once writes the same bytes in another memory. -/
theorem Reachable.call_withMem (h : Reachable s) (hu : s.User t) (has : AltArray s base as)
    (hunsent : Unsent L s) (hoff : SendsOff L s as) (hm : Set.EqOn s.mem m Lᶜ)
    (hE : executableOnEntry s base as ≠ []) :
    ∃ i y b o dst bytes, as[i]? = some y ∧
      Executes (s.altenter base as t) ⟨base, i⟩ (stamp base t y) ∧
      altexecMatch ⟨base, i⟩ e.rand₂ (s.altenter base as t) = .ok (b, o) ∧
      call e (.chanalt base as) t s =
        .ok ((o.elim b fun u => taskready u b).emit (.altret t base i), .value i) ∧
      call e (.chanalt base as) t (s.withMem m) =
        .ok (((o.elim b fun u => taskready u b).emit (.altret t base i)).withMem
          (amove dst bytes m), .value i) ∧
      bytes.length = (s.chan y.c).elemsize ∧ b.mem = amove dst bytes s.mem ∧
      ∀ q z, altreceiver ⟨base, i⟩ e.rand₂ (s.altenter base as t) = some q →
        (s.altenter base as t).alt? q = some z → dst = z.v := by
  have hsome : ∃ i, altpick base (s.altenter base as t) (altlen as) e.rand₁ = some i := by
    rw [executableOnEntry, ← executable_altenter (t := t)] at hE
    exact altpick_ne_none _ hE
  obtain ⟨i, hi⟩ := hsome
  obtain ⟨y, hy, hex⟩ := h.executes has hi
  obtain ⟨s', hok, _⟩ := h.altrun hu.2 hu.1 has hi
  rw [call_chanalt_some hi] at hok
  obtain ⟨s₁, hexec, _⟩ := map_ok hok
  obtain ⟨⟨b, o⟩, hmatch, _⟩ := bind_ok hexec
  have hsend : (stamp base t y).op = .CHANSND →
      ClearOf L (stamp base t y).v (s.chan y.c).elemsize :=
    fun ho => hoff y (List.mem_of_getElem? hy) ho
  have hsent : ∀ q ∈ (s.chan y.c).asend, ∀ z, (s.altenter base as t).alt? q = some z →
      ClearOf L z.v (s.chan z.c).elemsize := by
    intro q hq z hz
    rw [alt?_altenter (h.queued_base has y.c .CHANSND hq).1] at hz
    exact hunsent y.c q hq z hz
  obtain ⟨dst, bytes, hlen, hmem, hwith, hrcv⟩ :=
    hex.altexecMatch_withMem (m := m) hm hsend hsent hmatch
  refine ⟨i, y, b, o, dst, bytes, hy, hex, hmatch, ?_, ?_, hlen, hmem, hrcv⟩
  · rw [call_chanalt_some hi, altexec_eq hmatch]
    rfl
  · have hi' : altpick base ((s.withMem m).altenter base as t) (altlen as) e.rand₁ = some i := by
      rw [altpick_eq] at hi ⊢
      exact hi
    rw [call_chanalt_some hi', show (s.withMem m).altenter base as t =
      (s.altenter base as t).withMem m from rfl, altexec_eq hwith]
    cases o <;> rfl

/-- From `s` to `r` a call of `chanalt` has queued its branches; channels, arrays and memory are
otherwise as on entry. -/
structure QueuesAll (s : Sys Links) (base : ℕ) (as : List Alt) (t : TaskPtr) (r : Sys Links) :
    Prop where
  elemsize : ∀ c, (r.chan c).elemsize = (s.chan c).elemsize
  arr : ∀ c op, op.queued → (r.chan c).arr op = (s.chan c).arr op ++
    branches (s.altenter base as t) base (List.range (altlen as)) c op
  alts : r.alts = (s.altenter base as t).alts
  mem : r.mem = s.mem

/-- A call that has no branch to execute and may block does so in every memory. -/
theorem call_waits (hE : executableOnEntry s base as = [])
    (hcan : (as[altlen as]?).any (·.op = .CHANEND) = true) :
    ∃ r, QueuesAll s base as t r ∧ call e (.chanalt base as) t s = .ok (r, .switched) ∧
      ∀ m, call e (.chanalt base as) t (s.withMem m) = .ok (r.withMem m, .switched) := by
  have hbranch : ∀ i ∈ List.range (altlen as), ∃ x, (s.altenter base as t).alt? ⟨base, i⟩ = some x ∧
      (x.op = .CHANNOP ∨ x.op.queued) := by
    intro i hi
    obtain ⟨y, _, hy, hop⟩ := branch_altenter s base t (List.mem_range.mp hi)
    exact ⟨_, hy, hop⟩
  obtain ⟨chan', hok, hring, harr⟩ := altqueueAll_ok hbranch
  have hcall : ∀ m, call e (.chanalt base as) t (s.withMem m) =
      .ok ((taskswitch (.chanalt base) t { s.altenter base as t with chan := chan' }).withMem m,
        .switched) := by
    intro m
    have hnone : altpick base ((s.withMem m).altenter base as t) (altlen as) e.rand₁ = none := by
      rw [altpick_entry, show executableOnEntry (s.withMem m) base as = [] from hE,
        List.getElem?_nil]
    rw [call_chanalt_none hnone, if_pos hcan, show (s.withMem m).altenter base as t =
      (s.altenter base as t).withMem m from rfl, altqueueAll_withMem, hok, ← taskswitch_withMem]
    rfl
  obtain ⟨r, hr⟩ : ∃ r, r = taskswitch (.chanalt base) t
      { s.altenter base as t with chan := chan' } :=
    ⟨_, rfl⟩
  have hdata : r.data = ⟨chan', (s.altenter base as t).alts, s.mem⟩ := by
    rw [hr, taskswitch_data]
    rfl
  have hchan : r.chan = chan' := congrArg Data.chan hdata
  have hmem : r.mem = s.mem := congrArg Data.mem hdata
  rw [← hr] at hcall
  refine ⟨r, ⟨?_, ?_, congrArg Data.alts hdata, hmem⟩, ?_, hcall⟩
  · intro c
    rw [hchan]
    exact elemsize_of_ring (hring c)
  · intro c op hop
    rw [hchan]
    exact harr c op hop
  · have hself : r.withMem s.mem = r := by
      rw [← hmem]
      rfl
    exact (hcall s.mem).trans (by rw [hself])

end Call

end Libtask
