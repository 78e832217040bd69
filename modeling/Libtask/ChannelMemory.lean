import Libtask.ChannelTransfer
import Mathlib.Data.Set.Function

/-! The functions of channel.c in two memories that agree on what is sent: they do the same, and
write the same bytes to the same place. -/
namespace Libtask
open Function

variable {σ : Type}

/-- The state with another memory. -/
def Sys.withMem (m : ℕ → UInt8) (s : Sys σ) : Sys σ := { s with mem := m }

section Amove
variable {m m' : ℕ → UInt8} {L : Set ℕ} {dst v : Option ℕ} {bytes : List UInt8} {n x : ℕ}

theorem amove_in (hx : x ∈ bytesAt dst bytes.length) :
    amove dst bytes m x = amove dst bytes m' x := by
  obtain ⟨a, rfl, ha⟩ := hx
  simp [amove, writeBytes, ha]

theorem amove_eqOn (h : Set.EqOn m m' Lᶜ) :
    Set.EqOn (amove dst bytes m) (amove dst bytes m') Lᶜ := by
  intro x hx
  by_cases hb : x ∈ bytesAt dst bytes.length
  · exact amove_in hb
  · rw [amove_out hb, amove_out hb]
    exact h hx

/-- Memories that differ at most where an element is written are equal afterwards. -/
theorem amove_eq (h : Set.EqOn m m' (bytesAt dst n)ᶜ) (hn : bytes.length = n) :
    amove dst bytes m = amove dst bytes m' := by
  funext x
  by_cases hb : x ∈ bytesAt dst bytes.length
  · exact amove_in hb
  · rw [amove_out hb, amove_out hb]
    exact h (hn ▸ hb)

theorem amoveSource_eqOn (h : Set.EqOn m m' Lᶜ) (hv : ClearOf L v n) :
    amoveSource m' v n = amoveSource m v n :=
  amoveSource_congr fun _ hx => (h (hv _ hx)).symm

end Amove

section Copy
variable {s s' : Sys σ} {m : ℕ → UInt8} {L : Set ℕ} {c : ℕ} {p q b r : AltPtr} {x y z : Alt}

theorem altcopySend_withMem (hsrc : amoveSource m y.v (s.chan c).elemsize =
      amoveSource s.mem y.v (s.chan c).elemsize) :
    altcopySend c b y (s.withMem m) = (altcopySend c b y s).map (Sys.withMem m) := by
  unfold altcopySend
  simp only [show (s.withMem m).chan = s.chan from rfl, show (s.withMem m).mem = m from rfl, hsrc]
  rw [apply_ite (Except.map (Sys.withMem m))]
  rfl

/-- An element that is sent alone does not get into memory. -/
theorem altcopy_send_withMem (hm : Set.EqOn s.mem m Lᶜ) (hx : s.alt? p = some x)
    (ho : x.op = .CHANSND) (hsrc : ClearOf L x.v (s.chan x.c).elemsize)
    (h : altcopy (some p) none s = .ok s') :
    s'.mem = s.mem ∧ altcopy (some p) none (s.withMem m) = .ok (s'.withMem m) := by
  have hcopy : altcopy (some p) none (s.withMem m) = altcopySend x.c p x (s.withMem m) :=
    altcopy_send (s := s.withMem m) hx ho
  rw [altcopy_send hx ho] at h
  rw [hcopy, altcopySend_withMem (amoveSource_eqOn hm hsrc), h]
  exact ⟨funext fun a => (altcopySend_transfer h).mem a (by simp), rfl⟩

theorem altcopy_recv_withMem (m : ℕ → UInt8) (hx : s.alt? p = some x) (ho : x.op = .CHANRCV)
    (h : altcopy (some p) none s = .ok s') :
    s'.mem = amove x.v (s.chan x.c).front s.mem ∧
      altcopy (some p) none (s.withMem m) = .ok (s'.withMem (amove x.v (s.chan x.c).front m)) := by
  have hcopy : altcopy (some p) none (s.withMem m) = .ok (altcopyRecv x.c p x (s.withMem m)) :=
    altcopy_recv (s := s.withMem m) hx ho
  obtain rfl : altcopyRecv x.c p x s = s' := Except.ok.inj ((altcopy_recv hx ho).symm.trans h)
  rw [hcopy]
  exact ⟨rfl, rfl⟩

theorem altcopy_pair_withMem (hm : Set.EqOn s.mem m Lᶜ) (hb : s.alt? b = some y)
    (hr : s.alt? r = some z) (hy : y.op = .CHANSND) (hz : z.op = .CHANRCV) (hyc : y.c = c)
    (hzc : z.c = c) (hpq : p = b ∧ q = r ∨ p = r ∧ q = b)
    (hsrc : ClearOf L y.v (s.chan c).elemsize)
    (h : altcopy (some p) (some q) s = .ok s') :
    ∃ bytes, bytes.length = (s.chan c).elemsize ∧ s'.mem = amove z.v bytes s.mem ∧
      altcopy (some p) (some q) (s.withMem m) = .ok (s'.withMem (amove z.v bytes m)) := by
  have hcopy := altcopy_pair (s := s.withMem m) hb hr hy hz hyc hzc hpq
  rw [show (s.withMem m).chan = s.chan from rfl] at hcopy
  rw [altcopy_pair hb hr hy hz hyc hzc hpq] at h
  split at h
  · rename_i h0
    cases h
    refine ⟨amoveSource s.mem y.v (s.chan c).elemsize, length_amoveSource .., rfl, ?_⟩
    rw [hcopy, if_pos h0]
    unfold altcopyDirect
    simp only [show (s.withMem m).chan = s.chan from rfl, show (s.withMem m).mem = m from rfl,
      amoveSource_eqOn hm hsrc]
    rfl
  · rename_i h0
    refine ⟨(s.chan c).front, length_readBytes .., ?_, ?_⟩
    · exact funext fun a => (altcopySend_transfer h).mem a (by simp)
    · have hrecv : altcopyRecv c r z (s.withMem m) =
          (altcopyRecv c r z s).withMem (amove z.v (s.chan c).front m) := rfl
      have hsize : ((altcopyRecv c r z s).chan c).elemsize = (s.chan c).elemsize :=
        altcopyRecv_transfer.elemsize c
      rw [hcopy, if_neg h0, hrecv, altcopySend_withMem, h]
      · rfl
      · -- what the receiver got lies in both memories
        exact amoveSource_eqOn (amove_eqOn hm) (hsize ▸ hsrc)

end Copy

section Exec
variable {s s' : Sys σ} {m m' : ℕ → UInt8} {p q : AltPtr} {x : Alt} {rand : ℕ}

/-- The queues do not depend on the memory. -/
theorem offQueues_withMem (m : ℕ → UInt8) : OffQueues (Sys.withMem (σ := σ) m) fun _ => True where
  chan _ := rfl
  alts _ _ _ := rfl
  setChan _ _ _ := rfl
  setXalt _ _ _ _ := rfl

theorem altqueueAll_withMem (base : ℕ) (is : List ℕ) :
    altqueueAll base is (s.withMem m) = (altqueueAll base is s).map (Sys.withMem m) :=
  (offQueues_withMem m).altqueueAll trivial is

theorem altcommit_withMem (o : Option AltPtr) : altcommit (s.withMem m) o =
    (altcommit s o).map fun r => (r.1.withMem m, r.2) :=
  (offQueues_withMem m).altcommit fun _ _ => ⟨fun _ => rfl, fun _ _ => trivial⟩

/-- All that `altexecMatch` does in another memory, it does there. -/
theorem altexecMatch_withMem (hx : s.alt? p = some x)
    (h : ∀ s₁, altcopy (some p) (altpartner p rand s) s = .ok s₁ →
      altcopy (some p) (altpartner p rand s) (s.withMem m) = .ok (s₁.withMem m'))
    {r : Sys σ × Option TaskPtr} (hr : altexecMatch p rand s = .ok r) :
    altexecMatch p rand (s.withMem m) = .ok (r.1.withMem m', r.2) := by
  have hx' : (s.withMem m).alt? p = some x := hx
  rw [altexecMatch_eq hx] at hr
  obtain ⟨s₁, hcopy, hcommit⟩ := bind_ok hr
  rw [altexecMatch_eq hx', show altpartner p rand (s.withMem m) = altpartner p rand s from rfl,
    h s₁ hcopy]
  show altcommit (s₁.withMem m') _ = _
  rw [altcommit_withMem, hcommit]
  rfl

theorem altcommit_mem {o : Option AltPtr} {r : Sys σ × Option TaskPtr} (h : altcommit s o = .ok r) :
    r.1.mem = s.mem := by
  have hmem := altcommit_withMem (s := s) (m := s.mem) o
  rw [show s.withMem s.mem = s from rfl, h] at hmem
  exact congrArg (fun r => r.1.mem) (Except.ok.inj hmem)

/-- A branch `p`, in a state in which the queued alts are of the channels and directions they are
queued for. -/
structure Executes (s : Sys σ) (p : AltPtr) (x : Alt) : Prop where
  branch : s.alt? p = some x
  queued : x.op.queued
  others : ∀ q ∈ (s.chan x.c).arr (otherop x.op),
    ∃ y, s.alt? q = some y ∧ y.c = x.c ∧ y.op = otherop x.op

/-- The alt that receives when `altexec` is called on `p`. -/
def altreceiver (p : AltPtr) (rand : ℕ) (s : Sys σ) : Option AltPtr :=
  if (s.alt? p).any (·.op = .CHANRCV) then some p else altpartner p rand s

/-- Where senders do not send from `L`, two memories that agree off `L` get the same bytes written
to the same place: to the alt that receives, if there is one. -/
theorem Executes.altexecMatch_withMem {L : Set ℕ} (h : Executes s p x) (hm : Set.EqOn s.mem m Lᶜ)
    (hsend : x.op = .CHANSND → ClearOf L x.v (s.chan x.c).elemsize)
    (hsent : ∀ q ∈ (s.chan x.c).asend, ∀ y, s.alt? q = some y →
      ClearOf L y.v (s.chan y.c).elemsize)
    {r : Sys σ × Option TaskPtr} (hr : altexecMatch p rand s = .ok r) :
    ∃ dst bytes, bytes.length = (s.chan x.c).elemsize ∧ r.1.mem = amove dst bytes s.mem ∧
      altexecMatch p rand (s.withMem m) = .ok (r.1.withMem (amove dst bytes m), r.2) ∧
      ∀ q z, altreceiver p rand s = some q → s.alt? q = some z → dst = z.v := by
  have hexec := hr
  rw [altexecMatch_eq h.branch] at hr
  obtain ⟨s₁, hcopy, hcommit⟩ := bind_ok hr
  rw [altcommit_mem hcommit]
  have hwith : ∀ {dst : Option ℕ} {bytes : List UInt8},
      altcopy (some p) (altpartner p rand s) (s.withMem m) =
        .ok (s₁.withMem (amove dst bytes m)) →
      altexecMatch p rand (s.withMem m) = .ok (r.1.withMem (amove dst bytes m), r.2) := by
    intro dst bytes hok
    refine Libtask.altexecMatch_withMem h.branch (fun s₂ hs₂ => ?_) hexec
    cases hcopy.symm.trans hs₂
    exact hok
  have hreceiver : altreceiver p rand s =
      if x.op = .CHANRCV then some p else altpartner p rand s := by
    simp [altreceiver, h.branch]
  cases hpartner : altpartner p rand s with
  | none =>
    rw [hpartner] at hcopy hwith
    rcases h.queued with ho | ho
    · obtain ⟨hmem, hok⟩ := altcopy_send_withMem hm h.branch ho (hsend ho) hcopy
      refine ⟨none, _, length_amoveSource s.mem x.v _, hmem, hwith hok, ?_⟩
      intro q z hq
      rw [hreceiver, hpartner, ho] at hq
      cases hq
    · obtain ⟨hmem, hok⟩ := altcopy_recv_withMem m h.branch ho hcopy
      refine ⟨x.v, _, length_readBytes _ _ _, hmem, hwith hok, ?_⟩
      intro q z hq hz
      rw [hreceiver, if_pos ho] at hq
      cases hq
      cases h.branch.symm.trans hz
      rfl
  | some q =>
    rw [hpartner] at hcopy hwith
    have hmemq := mem_of_altpartner h.branch hpartner
    obtain ⟨y, hy, hyc, hyo⟩ := h.others q hmemq
    rcases h.queued with ho | ho
    · rw [ho] at hyo
      obtain ⟨bytes, hlen, hmem, hok⟩ := altcopy_pair_withMem hm h.branch hy ho hyo rfl hyc
        (.inl ⟨rfl, rfl⟩) (hsend ho) hcopy
      refine ⟨y.v, bytes, hlen, hmem, hwith hok, ?_⟩
      intro q' z hq hz
      rw [hreceiver, hpartner, ho] at hq
      cases hq
      cases hy.symm.trans hz
      rfl
    · rw [ho] at hyo hmemq
      have hsrc := hsent q hmemq y hy
      rw [hyc] at hsrc
      obtain ⟨bytes, hlen, hmem, hok⟩ := altcopy_pair_withMem hm hy h.branch hyo ho hyc rfl
        (.inr ⟨rfl, rfl⟩) hsrc hcopy
      refine ⟨x.v, bytes, hlen, hmem, hwith hok, ?_⟩
      intro q' z hq hz
      rw [hreceiver, if_pos ho] at hq
      cases hq
      cases h.branch.symm.trans hz
      rfl

/-- An alt of an array that no part of the transfer is for stays in its queue. -/
theorem altexecMatch_keeps (hx : s.alt? p = some x) {r : Sys σ × Option TaskPtr}
    (h : altexecMatch p rand s = .ok r) {c : ℕ} {op : Op} (hq : q ∈ (s.chan c).arr op)
    (hne : ∀ o y, altpartner p rand s = some o → s.alt? o = some y → y.xalt.base ≠ q.base) :
    q ∈ (r.1.chan c).arr op ∧ r.1.alts q.base = s.alts q.base := by
  rw [altexecMatch_eq hx] at h
  obtain ⟨s₁, hcopy, hcommit⟩ := bind_ok h
  have halts := altcopy_alts hcopy
  have hshape := (altcopy_cases hcopy).shape c
  have hq₁ : q ∈ (s₁.chan c).arr op := by
    cases op with
    | CHANSND =>
      show q ∈ (s₁.chan c).shape.2.1
      rw [hshape]
      exact hq
    | CHANRCV =>
      show q ∈ (s₁.chan c).shape.2.2
      rw [hshape]
      exact hq
    | CHANEND | CHANNOP | CHANNOBLK => cases hq
  cases hpartner : altpartner p rand s with
  | none =>
    rw [hpartner] at hcommit
    cases hcommit
    exact ⟨hq₁, by rw [halts]⟩
  | some o =>
    rw [hpartner] at hcommit
    obtain ⟨y, hy, hcommit⟩ := bind_ok hcommit
    obtain ⟨s₂, hdeq, hcommit⟩ := bind_ok hcommit
    cases hcommit
    have hyo : s.alt? o = some y := by
      rw [Sys.deref, Sys.alt?, halts, ← Sys.alt?] at hy
      split at hy
      · rename_i hy'
        cases hy
        exact hy'
      · cases hy
    have hbase := hne o y hpartner hyo
    refine ⟨altalldequeueFrom_keeps hdeq hq₁ (Ne.symm hbase), ?_⟩
    refine (update_of_ne (Ne.symm hbase) _ _).trans ?_
    rw [(altalldequeueFrom_onlyQueues hdeq).eq, halts]

theorem altexecMatch_elemsize (hx : s.alt? p = some x) {r : Sys σ × Option TaskPtr}
    (h : altexecMatch p rand s = .ok r) (c : ℕ) :
    (r.1.chan c).elemsize = (s.chan c).elemsize := by
  rw [altexecMatch_eq hx] at h
  obtain ⟨s₁, hcopy, hcommit⟩ := bind_ok h
  have hsize : (s₁.chan c).elemsize = (s.chan c).elemsize :=
    congrArg Prod.fst ((altcopy_cases hcopy).shape c)
  cases hpartner : altpartner p rand s with
  | none =>
    rw [hpartner] at hcommit
    cases hcommit
    exact hsize
  | some o =>
    rw [hpartner] at hcommit
    obtain ⟨y, _, hcommit⟩ := bind_ok hcommit
    obtain ⟨s₂, hdeq, hcommit⟩ := bind_ok hcommit
    cases hcommit
    exact (elemsize_of_ring ((altalldequeueFrom_onlyQueues hdeq).ring c)).trans hsize

end Exec
end Libtask
