import Libtask.ChannelTransfer

/-! The block that `malloc` returned for a channel: to which slots of the buffer `altcopy` goes,
whether they lie inside the block, and that while they do the buffer keeps its elements. -/
namespace Libtask
open Function Runs

/-- The offset of slot `i` from `buf`, as `altcopy` computes it. -/
def Channel.slotOffset (x : Channel) (i : ℕ) : ℕ := u32 (i * x.elemsize)

/-- The slot the next element is taken from, and the slot the next one is put into. -/
def Channel.recvSlot (x : Channel) : ℕ := x.off

def Channel.sendSlot (x : Channel) : ℕ := u32 (x.off + x.nbuf) % x.bufsize

/-- The block of slot `i` lies inside what `malloc` returned; `buf` follows the `Channel`. -/
def Channel.Inside (x : Channel) (i : ℕ) : Prop :=
  sizeofChannel + x.slotOffset i + x.elemsize ≤ chancreateSize x.elemsize x.bufsize

/-- The slots that `altcopy` goes to when it logs `evs`, the latest first. -/
def Channel.slots (x : Channel) : List ChanEvent → List ℕ
  | [.sent _ _] => [x.sendSlot]
  | [.rcvd _ _] => [x.recvSlot]
  | [.sent _ _, .rcvd _ _] => [x.recvSlot, x.taken.sendSlot]
  -- an element that goes straight from its sender to a receiver is in no slot
  | _ => []

section Accesses
variable {σ : Type} {s s' : Sys σ} {c : ℕ} {p : AltPtr} {x : Alt}

/-- A receiver is served from this block. -/
theorem altcopyRecv_reads : (altcopyRecv c p x s).log = .chan c (.rcvd p
    (readBytes (s.chan c).buf ((s.chan c).slotOffset (s.chan c).recvSlot) (s.chan c).elemsize)) ::
      s.log := rfl

/-- A sender's element goes to this block. -/
theorem altcopySend_writes (h : altcopySend c p x s = .ok s') : (s'.chan c).buf =
    writeBytes (s.chan c).buf ((s.chan c).slotOffset (s.chan c).sendSlot)
      (amoveSource s.mem x.v (s.chan c).elemsize) := by
  unfold altcopySend at h
  simp only at h
  split at h
  · cases h
  · cases h
    simp only [Sys.emit, Sys.setChan, update_self]
    rfl

/-- An element that is put inside the block changes nothing behind it. -/
theorem altcopySend_stays (h : altcopySend c p x s = .ok s')
    (hin : (s.chan c).Inside (s.chan c).sendSlot) {z : ℕ}
    (hz : chancreateSize (s.chan c).elemsize (s.chan c).bufsize ≤ sizeofChannel + z) :
    (s'.chan c).buf z = (s.chan c).buf z := by
  have hlen := length_amoveSource s.mem x.v (s.chan c).elemsize
  unfold Channel.Inside at hin
  rw [altcopySend_writes h]
  exact writeBytes_out (.inr (by omega))

end Accesses

/-- What `altcopy` makes of a channel when it logs `evs`. -/
inductive Channel.Serves (x : Channel) : List ChanEvent → Channel → Prop
  | direct {p q : AltPtr} {bytes : List UInt8} (hn : x.nbuf = 0) :
      Serves x [.rcvd q bytes, .sent p bytes] x
  | recv {q : AltPtr} (hn : 0 < x.nbuf) : Serves x [.rcvd q x.front] x.taken
  | send {p : AltPtr} {bytes : List UInt8} (hn : x.nbuf < x.bufsize)
      (hlen : bytes.length = x.elemsize) : Serves x [.sent p bytes] (x.filled bytes)
  | refill {p q : AltPtr} {bytes : List UInt8} (hn : 0 < x.nbuf)
      (hlen : bytes.length = x.elemsize) :
      Serves x [.sent p bytes, .rcvd q x.front] (x.taken.filled bytes)

/-- What was sent is what was received and then what the buffer holds; and the size of the channel
does not wrap, or that of its part in use, of which no slot has been used again. -/
structure Kept (x : Channel) (log : List ChanEvent) : Prop where
  fifo : hist ChanEvent.sentBytes log = hist ChanEvent.rcvdBytes log ++ x.held
  near : 48 + x.bufsize * x.elemsize < 2 ^ 32 ∨ 48 + (x.off + x.nbuf) * x.elemsize < 2 ^ 32

section Fits
variable {x : Channel} {log : List ChanEvent} {i : ℕ}

theorem chancreateSize_eq {elemsize bufsize : ℕ} (h : 48 + bufsize * elemsize < 2 ^ 32) :
    chancreateSize elemsize bufsize = 48 + bufsize * elemsize := by
  unfold chancreateSize sizeofChannel
  rw [u32_eq (by omega : bufsize * elemsize < 2 ^ 32), u32_eq h]

theorem slot_le (hi : i < x.bufsize) : i * x.elemsize + x.elemsize ≤ x.bufsize * x.elemsize := by
  have h := Nat.mul_le_mul_right x.elemsize (Nat.succ_le_of_lt hi)
  rwa [Nat.succ_mul] at h

theorem slotOffset_eq (h : 48 + x.bufsize * x.elemsize < 2 ^ 32) (hi : i < x.bufsize) :
    x.slotOffset i = i * x.elemsize := u32_eq (slot_bound hi (by omega))

theorem sendSlot_lt (h : 0 < x.bufsize) : x.sendSlot < x.bufsize := by
  unfold Channel.sendSlot
  exact Nat.mod_lt _ h

theorem inside_of_fits (h : 48 + x.bufsize * x.elemsize < 2 ^ 32) (hi : i < x.bufsize) :
    x.Inside i ∧ i * x.elemsize < 2 ^ 32 := by
  have hle := slot_le hi
  unfold Channel.Inside sizeofChannel
  rw [chancreateSize_eq h, slotOffset_eq h hi]
  omega

/-- In a channel that its block is large enough for `altcopy` goes only to slots inside. -/
theorem RingInv.slots_inside (hr : RingInv x log) (h0 : 0 < x.bufsize)
    (h : 48 + x.bufsize * x.elemsize < 2 ^ 32) (evs : List ChanEvent) :
    ∀ i ∈ x.slots evs, x.Inside i := by
  have hrecv := (inside_of_fits h (hr.off_lt h0)).1
  have hsend := (inside_of_fits h (sendSlot_lt h0)).1
  have hrefill : x.Inside x.taken.sendSlot := by
    have hslot := sendSlot_lt (x := x.taken) (by rwa [taken_bufsize])
    rw [taken_bufsize] at hslot
    exact (inside_of_fits h hslot).1
  unfold Channel.slots
  split <;> simp [Channel.recvSlot, hrecv, hsend, hrefill]

end Fits

section Kept
variable {x y : Channel} {log evs : List ChanEvent} {p q : AltPtr} {bytes : List UInt8}

theorem Kept.congr (h : Kept x log) (hxy : y.ring = x.ring) : Kept y log := by
  obtain ⟨bufsize, elemsize, buf, nbuf, off, asend, arecv⟩ := x
  obtain ⟨bufsize', elemsize', buf', nbuf', off', asend', arecv'⟩ := y
  simp only [Channel.ring, Channel.mk.injEq] at hxy
  obtain ⟨rfl, rfl, rfl, rfl, rfl, _⟩ := hxy
  exact ⟨h.1, h.2⟩

theorem RingInv.sendSlot_eq (h : RingInv x log) (h0 : 0 < x.bufsize) :
    x.sendSlot = (x.off + x.nbuf) % x.bufsize := by
  have hsz := h.bufsize_lt
  have hle := h.nbuf_le
  have hoff := h.off_lt h0
  rw [Channel.sendSlot, u32_eq (by omega)]

/-- In a channel that its block is too small for, the part in use ends before the last slot. -/
theorem Kept.lt_bufsize (h : Kept x log) (hbig : ¬48 + x.bufsize * x.elemsize < 2 ^ 32) :
    48 + (x.off + x.nbuf) * x.elemsize < 2 ^ 32 ∧ x.off + x.nbuf < x.bufsize := by
  have hnear := h.near.resolve_left hbig
  refine ⟨hnear, ?_⟩
  by_contra hge
  have hmul := Nat.mul_le_mul_right x.elemsize (Nat.le_of_not_lt hge)
  omega

/-- The address of the element that is taken next does not wrap. -/
theorem Kept.recv_bound (h : Kept x log) (hr : RingInv x log) (hn : 0 < x.nbuf) :
    x.off * x.elemsize < 2 ^ 32 := by
  have hle := hr.nbuf_le
  by_cases hfit : 48 + x.bufsize * x.elemsize < 2 ^ 32
  · exact slot_bound (hr.off_lt (by omega)) (by omega)
  · have hnear := (h.lt_bufsize hfit).1
    have hmul := Nat.mul_le_mul_right x.elemsize (Nat.le_add_right x.off x.nbuf)
    omega

/-- The address where the next element is put does not wrap. -/
theorem Kept.send_bound (h : Kept x log) (hn : x.nbuf < x.bufsize) :
    (x.off + x.nbuf) % x.bufsize * x.elemsize < 2 ^ 32 := by
  by_cases hfit : 48 + x.bufsize * x.elemsize < 2 ^ 32
  · exact slot_bound (Nat.mod_lt _ (by omega)) (by omega)
  · obtain ⟨hnear, hlt⟩ := h.lt_bufsize hfit
    rw [Nat.mod_eq_of_lt hlt]
    omega

theorem Kept.direct (h : Kept x log) (hn : x.nbuf = 0) :
    Kept x (.rcvd q bytes :: .sent p bytes :: log) where
  near := h.near
  fifo := by
    have hheld : x.held = [] := by simp [Channel.held, hn]
    have hf := h.fifo
    rw [hheld, List.append_nil] at hf
    simp [ChanEvent.sentBytes, ChanEvent.rcvdBytes, hheld, hf]

theorem Kept.recv (h : Kept x log) (hr : RingInv x log) (hn : 0 < x.nbuf) :
    Kept x.taken (.rcvd q x.front :: log) where
  fifo := by
    simp only [hist_cons, ChanEvent.sentBytes, ChanEvent.rcvdBytes, Option.toList_none,
      Option.toList_some, List.append_nil]
    rw [h.fifo, hr.held_taken hn (h.recv_bound hr hn), List.append_assoc, List.singleton_append]
  near := by
    rw [taken_bufsize, taken_elemsize]
    by_cases hfit : 48 + x.bufsize * x.elemsize < 2 ^ 32
    · exact .inl hfit
    · obtain ⟨hnear, hlt⟩ := h.lt_bufsize hfit
      have hsum : x.taken.off + x.taken.nbuf = x.off + x.nbuf := by
        rw [hr.taken_off hn, hr.taken_nbuf hn, if_neg (by omega)]
        omega
      rw [hsum]
      exact .inr hnear

theorem Kept.send (h : Kept x log) (hr : RingInv x log) (hn : x.nbuf < x.bufsize)
    (hlen : bytes.length = x.elemsize) (hin : x.Inside x.sendSlot) :
    Kept (x.filled bytes) (.sent p bytes :: log) where
  fifo := by
    simp only [hist_cons, ChanEvent.sentBytes, ChanEvent.rcvdBytes, Option.toList_none,
      Option.toList_some, List.append_nil]
    rw [h.fifo, hr.held_filled hn hlen (h.send_bound hn), List.append_assoc]
  near := by
    by_cases hfit : 48 + x.bufsize * x.elemsize < 2 ^ 32
    · exact .inl hfit
    · obtain ⟨hnear, hlt⟩ := h.lt_bufsize hfit
      have hsz := hr.bufsize_lt
      -- the size given to malloc is below 2 ^ 32, so the end of this slot is
      rw [hr.sendSlot_eq (by omega), Nat.mod_eq_of_lt hlt, Channel.Inside,
        Channel.slotOffset, u32_eq (by omega)] at hin
      have hsize : chancreateSize x.elemsize x.bufsize < 2 ^ 32 := Nat.mod_lt _ (by decide)
      have hnbuf : u32 (x.nbuf + 1) = x.nbuf + 1 := u32_eq (by omega)
      refine .inr ?_
      simp only [Channel.filled, hnbuf, ← Nat.add_assoc, Nat.succ_mul]
      unfold sizeofChannel at hin
      omega

theorem taken_inside {i : ℕ} : x.taken.Inside i ↔ x.Inside i := by
  simp only [Channel.Inside, Channel.slotOffset, taken_elemsize, taken_bufsize]

/-- What `altcopy` does inside the block keeps the elements. -/
theorem Kept.serves (h : Kept x log) (hr : RingInv x log) (hs : x.Serves evs y)
    (hin : ∀ i ∈ x.slots evs, x.Inside i) : Kept y (evs ++ log) := by
  cases hs with
  | direct hn => exact h.direct hn
  | recv hn => exact h.recv hr hn
  | send hn hlen => exact h.send hr hn hlen (hin _ (by simp [Channel.slots]))
  | refill hn hlen =>
    have hle := hr.nbuf_le
    have hroom : x.taken.nbuf < x.taken.bufsize := by
      rw [hr.taken_nbuf hn, taken_bufsize]
      omega
    have hslot := taken_inside.mpr (hin x.taken.sendSlot (by simp [Channel.slots]))
    exact (h.recv hr hn).send (hr.recv hn) hroom (hlen.trans (taken_elemsize x).symm) hslot

/-- The first element in the buffer is the first one that was sent and not received. -/
theorem Kept.front (h : Kept x log) (hr : RingInv x log) (hn : 0 < x.nbuf) :
    ∃ rest, hist ChanEvent.sentBytes log = hist ChanEvent.rcvdBytes log ++ x.front :: rest ∧
      rest.length < x.nbuf := by
  refine ⟨x.taken.held, ?_, ?_⟩
  · rw [h.fifo, hr.held_taken hn (h.recv_bound hr hn)]
  · rw [Channel.held, Ring.length_contents, hr.taken_nbuf hn]
    omega

end Kept

section Copy
variable {σ : Type} {s s' : Sys σ} {c : ℕ} {p q b r : AltPtr} {x y z : Alt} {evs : List ChanEvent}

/-- From `s` to `s'` `altcopy` did to channel `c` what it logged as `evs`. -/
def Served (c : ℕ) (evs : List ChanEvent) (s s' : Sys σ) : Prop :=
  ∃ y, s'.chan = update s.chan c y ∧ (s.chan c).Serves evs y

theorem altcopy_send_served (hx : s.alt? p = some x) (ho : x.op = .CHANSND)
    (hn : (s.chan x.c).nbuf < (s.chan x.c).bufsize) (h : altcopy (some p) none s = .ok s') :
    Served x.c [.sent p (amoveSource s.mem x.v (s.chan x.c).elemsize)] s s' := by
  rw [altcopy_send hx ho, altcopySend_eq (by omega)] at h
  cases h
  exact ⟨_, rfl, .send hn (length_amoveSource _ _ _)⟩

theorem altcopy_recv_served (hx : s.alt? p = some x) (ho : x.op = .CHANRCV)
    (hn : 0 < (s.chan x.c).nbuf) (h : altcopy (some p) none s = .ok s') :
    Served x.c [.rcvd p (s.chan x.c).front] s s' := by
  obtain rfl : altcopyRecv x.c p x s = s' := Except.ok.inj ((altcopy_recv hx ho).symm.trans h)
  exact ⟨(s.chan x.c).taken, rfl, .recv hn⟩

theorem altcopy_pair_served (hb : s.alt? b = some y) (hr : s.alt? r = some z)
    (hy : y.op = .CHANSND) (hz : z.op = .CHANRCV) (hyc : y.c = c) (hzc : z.c = c)
    (hpq : p = b ∧ q = r ∨ p = r ∧ q = b)
    (happ : ClearOf (bytesAt z.v (s.chan c).elemsize) y.v (s.chan c).elemsize)
    (h : altcopy (some p) (some q) s = .ok s') :
    Served c (if (s.chan c).nbuf = 0 then
        [.rcvd r (amoveSource s.mem y.v (s.chan c).elemsize),
          .sent b (amoveSource s.mem y.v (s.chan c).elemsize)]
      else [.sent b (amoveSource s.mem y.v (s.chan c).elemsize), .rcvd r (s.chan c).front])
      s s' := by
  rw [altcopy_pair hb hr hy hz hyc hzc hpq] at h
  by_cases h0 : (s.chan c).nbuf = 0
  · rw [if_pos h0] at h ⊢
    cases h
    exact ⟨s.chan c, (update_eq_self c s.chan).symm, .direct h0⟩
  · rw [if_neg h0] at h ⊢
    have hsize : ((altcopyRecv c r z s).chan c).bufsize ≠ 0 := by
      intro hzero
      rw [altcopySend, if_pos hzero] at h
      cases h
    have hkeep : amoveSource (altcopyRecv c r z s).mem y.v (s.chan c).elemsize =
        amoveSource s.mem y.v (s.chan c).elemsize :=
      amoveSource_congr fun a ha => altcopyRecv_transfer.mem a (happ a ha)
    rw [altcopySend_eq hsize, altcopyRecv_taken, taken_elemsize, hkeep] at h
    cases h
    refine ⟨(s.chan c).taken.filled (amoveSource s.mem y.v (s.chan c).elemsize), ?_,
      .refill (Nat.pos_of_ne_zero h0) (length_amoveSource _ _ _)⟩
    exact update_idem _ _ _

end Copy
end Libtask
