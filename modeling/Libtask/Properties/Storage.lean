import Libtask.ChannelBlock
import Libtask.Properties.Channels
import Mathlib.Order.Interval.Set.Defs

/-! The storage of a channel: for which sizes all its elements lie in the block from `malloc`, in
slots that do not overlap. -/
namespace Libtask
open Function

/-- The bytes of slot `i`, counted from `buf`. -/
def Channel.block (x : Channel) (i : ℕ) : Set ℕ :=
  Set.Ico (x.slotOffset i) (x.slotOffset i + x.elemsize)

/-- Every block that `altcopy` reads or writes next is inside what was allocated, nothing on the way
to its address wraps, and no two slots share a byte. -/
structure Channel.InBounds (x : Channel) : Prop where
  recv : 0 < x.nbuf → x.Inside x.recvSlot ∧ x.recvSlot * x.elemsize < 2 ^ 32
  send : x.nbuf < x.bufsize → x.Inside x.sendSlot ∧ x.sendSlot * x.elemsize < 2 ^ 32
  -- a full buffer serves a receiver and takes the element of a waiting sender
  refill : 0 < x.nbuf → x.Inside x.taken.sendSlot ∧ x.taken.sendSlot * x.elemsize < 2 ^ 32
  index : x.off + x.nbuf < 2 ^ 32
  disjoint : ∀ i < x.bufsize, ∀ j < x.bufsize, i ≠ j → ∀ z ∈ x.block i, z ∉ x.block j

section Fits
variable {x : Channel} {log : List ChanEvent} {i j : ℕ}

theorem disjoint_of_fits (h : 48 + x.bufsize * x.elemsize < 2 ^ 32) (hi : i < x.bufsize)
    (hj : j < x.bufsize) (hij : i ≠ j) {z : ℕ} (hz : z ∈ x.block i) : z ∉ x.block j := by
  unfold Channel.block at hz ⊢
  rw [slotOffset_eq h hi, Set.mem_Ico] at hz
  rw [slotOffset_eq h hj, Set.mem_Ico]
  rcases lt_or_gt_of_ne hij with hlt | hlt
  · have hm := Nat.mul_le_mul_right x.elemsize (Nat.succ_le_of_lt hlt)
    rw [Nat.succ_mul] at hm
    omega
  · have hm := Nat.mul_le_mul_right x.elemsize (Nat.succ_le_of_lt hlt)
    rw [Nat.succ_mul] at hm
    omega

/-- Where the size given to `malloc` is the true one, the ring stays inside. -/
theorem RingInv.inBounds (hr : RingInv x log) (h : 48 + x.bufsize * x.elemsize < 2 ^ 32) :
    x.InBounds := by
  have hsize := hr.bufsize_lt
  have hnbuf := hr.nbuf_le
  have hoff := hr.off_lt
  have hzero := hr.off_zero
  constructor
  case recv => exact fun hn => inside_of_fits h (hoff (by omega))
  case send => exact fun hn => inside_of_fits h (sendSlot_lt (by omega))
  case refill =>
    intro hn
    have hslot := sendSlot_lt (x := x.taken) (by rw [taken_bufsize]; omega)
    rw [taken_bufsize] at hslot
    exact inside_of_fits h hslot
  case index => omega
  case disjoint => exact fun i hi j hj hij z hz => disjoint_of_fits h hi hj hij hz

end Fits

section Wraps
variable {x : Channel}

/-- Two slots of a buffer that reaches around the address space share a byte. -/
theorem not_disjoint_of_wraps (he : x.elemsize < 2 ^ 31)
    (h : 2 ^ 32 ≤ (x.bufsize - 1) * x.elemsize) :
    ∃ i < x.bufsize, i ≠ 0 ∧ ∃ z ∈ x.block 0, z ∈ x.block i := by
  have hpos : 0 < x.elemsize := by
    by_contra h0
    rw [Nat.eq_zero_of_not_pos h0] at h
    omega
  -- the first slot whose product passes 2 ^ 32
  set i := (2 ^ 32 + x.elemsize - 1) / x.elemsize with hi
  have hle : 2 ^ 32 ≤ i * x.elemsize := by
    have hdiv := Nat.div_add_mod (2 ^ 32 + x.elemsize - 1) x.elemsize
    have hmod := Nat.mod_lt (2 ^ 32 + x.elemsize - 1) hpos
    rw [← hi, Nat.mul_comm] at hdiv
    omega
  have hlt : i * x.elemsize < 2 ^ 32 + x.elemsize := by
    have hdiv := Nat.div_mul_le_self (2 ^ 32 + x.elemsize - 1) x.elemsize
    rw [← hi] at hdiv
    omega
  have hib : i < x.bufsize := by
    by_contra hge
    have hprev : (x.bufsize - 1) * x.elemsize ≤ (i - 1) * x.elemsize :=
      Nat.mul_le_mul_right _ (by omega)
    have hsub : (i - 1) * x.elemsize = i * x.elemsize - x.elemsize := Nat.sub_one_mul i _
    omega
  have hoff : x.slotOffset i = i * x.elemsize - 2 ^ 32 := by
    unfold Channel.slotOffset u32
    omega
  have h0 : x.slotOffset 0 = 0 := by
    unfold Channel.slotOffset u32
    omega
  refine ⟨i, hib, ?_, ?_⟩
  · intro hzero
    rw [hzero] at hle
    omega
  · refine ⟨x.slotOffset i, ?_, ?_⟩
    · unfold Channel.block
      rw [hoff, h0, Set.mem_Ico]
      omega
    · unfold Channel.block
      rw [Set.mem_Ico]
      omega

/-- Where the size given to `malloc` wraps, the first element sent goes beyond the block, or two
slots overlap. -/
theorem fits_of_inBounds (hb : x.bufsize < 2 ^ 31) (he : x.elemsize < 2 ^ 31) (hn : x.nbuf = 0)
    (ho : x.off = 0) (h : x.InBounds) : 48 + x.bufsize * x.elemsize < 2 ^ 32 := by
  by_contra hge
  have hpos : 0 < x.bufsize := by
    by_contra h0
    rw [Nat.eq_zero_of_not_pos h0] at hge
    omega
  have hprev : (x.bufsize - 1) * x.elemsize < 2 ^ 32 := by
    by_contra hwrap
    obtain ⟨i, hi, hi0, z, hz, hzi⟩ := not_disjoint_of_wraps he (by omega)
    exact h.disjoint 0 hpos i hi hi0.symm z hz hzi
  have hsub : (x.bufsize - 1) * x.elemsize = x.bufsize * x.elemsize - x.elemsize :=
    Nat.sub_one_mul _ _
  have hfirst := (h.send (by omega)).1
  have hslot : x.sendSlot = 0 := by
    unfold Channel.sendSlot u32
    rw [hn, ho]
    exact Nat.zero_mod _
  unfold Channel.Inside Channel.slotOffset chancreateSize sizeofChannel u32 at hfirst
  rw [hslot, Nat.zero_mul] at hfirst
  omega

end Wraps

/-- Every channel of these sizes stays inside its storage in every run. -/
def StorageBounded (elemsize bufsize : ℕ) : Prop :=
  ∀ s, Reachable s → ∀ c, (s.chan c).elemsize = elemsize → (s.chan c).bufsize = bufsize →
    (s.chan c).InBounds

/-- A program all of whose channels have these sizes. -/
def Program.uniform (elemsize bufsize : ℕ) (he : elemsize < 2 ^ 31) (hb : bufsize < 2 ^ 31) :
    Program :=
  { Program.small with
    elemsize := fun _ => elemsize
    bufsize := fun _ => bufsize
    elemsize_lt := fun _ => he
    bufsize_lt := fun _ => hb }

theorem Program.boot_chan (P : Program) (c : ℕ) :
    P.boot.chan c = chancreate (P.elemsize c) (P.bufsize c) (P.chanbuf c) := by
  obtain ⟨q, _, hq⟩ := sim_boot P
  have hchan : P.start.chan = P.boot.chan := by rw [hq]; rfl
  rw [← hchan]
  rfl

section Sizes
variable {elemsize bufsize : ℕ}

theorem StorageBounded.fits (h : StorageBounded elemsize bufsize) (he : elemsize < 2 ^ 31)
    (hb : bufsize < 2 ^ 31) : 48 + bufsize * elemsize < 2 ^ 32 := by
  have hboot := (Program.uniform elemsize bufsize he hb).boot_chan 0
  have hx := h (Program.uniform elemsize bufsize he hb).boot (.of_init ⟨_, rfl⟩) 0
    (by rw [hboot]; rfl) (by rw [hboot]; rfl)
  rw [hboot] at hx
  exact fits_of_inBounds hb he rfl rfl hx

/-- For 65536 elements of 65536 bytes `chancreate` asks for 48 bytes, the `Channel` alone. -/
theorem storage_not_bounded :
    chancreateSize 65536 65536 = 48 ∧ ¬StorageBounded 65536 65536 := by
  constructor
  · decide
  · intro h
    have hfits := h.fits (by decide) (by decide)
    omega

/-- A channel stays inside its storage if and only if the size that `chancreate` computes for it
does not wrap. -/
theorem storage_bounded_iff (he : elemsize < 2 ^ 31) (hb : bufsize < 2 ^ 31) :
    StorageBounded elemsize bufsize ↔ 48 + bufsize * elemsize < 2 ^ 32 := by
  constructor
  · exact fun h => h.fits he hb
  · intro h s hs c hse hsb
    obtain ⟨_, pl, _, hI, q, _, rfl⟩ := hs.sim
    apply (hI.ring c).inBounds
    rw [← hse, ← hsb] at h
    exact h

theorem storage_bounded_iff_small : StorageBounded 4 100 ↔ 48 + 100 * 4 < 2 ^ 32 :=
  storage_bounded_iff (by decide) (by decide)

end Sizes
end Libtask
