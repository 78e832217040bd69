import Libtask.Context

/-! What a context stands for: the registers that a machine goes on with. -/
namespace Libtask.Ucontext

open I386 ByteMemory

structure Snapshot where
  reg : Reg → BitVec 32
  seg : Seg → BitVec 16
  eip : BitVec 32

/-- The field of a register. -/
def Mc.ofReg : Reg → Mc
  | .eax => .mc_eax
  | .ecx => .mc_ecx
  | .edx => .mc_edx
  | .ebx => .mc_ebx
  | .esp => .mc_esp
  | .ebp => .mc_ebp
  | .esi => .mc_esi
  | .edi => .mc_edi

def Mc.ofSeg : Seg → Mc
  | .es => .mc_es
  | .ss => .mc_ss
  | .ds => .mc_ds
  | .fs => .mc_fs

/-- The bytes of the fields at `p` that a switch uses; a selector has two of its four. -/
def Saved (p x : BitVec 32) : Prop :=
  (∃ r, Within (p + .ofNat 32 (Mc.ofReg r).offset) 4 x) ∨
    (∃ r, Within (p + .ofNat 32 (Mc.ofSeg r).offset) 2 x) ∨
    Within (p + .ofNat 32 Mc.mc_eip.offset) 4 x

/-- The fields at `p` have the values of a snapshot. -/
structure Holds (m : BitVec 32 → BitVec 8) (p : BitVec 32) (c : Snapshot) : Prop where
  reg : ∀ r, long m (p + .ofNat 32 (Mc.ofReg r).offset) = c.reg r
  seg : ∀ r, word m (p + .ofNat 32 (Mc.ofSeg r).offset) = c.seg r
  eip : long m (p + .ofNat 32 Mc.mc_eip.offset) = c.eip

variable {m m' : BitVec 32 → BitVec 8} {p x : BitVec 32} {c : Snapshot}

theorem Holds.congr (h : Holds m p c) (heq : ∀ x, Saved p x → m' x = m x) : Holds m' p c where
  reg r := (long_congr fun x hx => heq x (.inl ⟨r, hx⟩)).trans (h.reg r)
  seg r := (word_congr fun x hx => heq x (.inr (.inl ⟨r, hx⟩))).trans (h.seg r)
  eip := (long_congr fun x hx => heq x (.inr (.inr hx))).trans h.eip

/-- All of them are among the first 80 bytes. -/
theorem Saved.within (h : Saved p x) : Within p 80 x := by
  rcases h with ⟨r, hr⟩ | ⟨r, hr⟩ | hr
  · exact hr.of_add (by cases r <;> decide)
  · exact hr.of_add (by cases r <;> decide)
  · exact hr.of_add (by decide)

/-- The memory with a snapshot at `p`. -/
def storeSnapshot (m : BitVec 32 → BitVec 8) (p : BitVec 32) (c : Snapshot) :
    BitVec 32 → BitVec 8 :=
  let m := setWord m (p + 8#32) (c.seg .fs)
  let m := setWord m (p + 12#32) (c.seg .es)
  let m := setWord m (p + 16#32) (c.seg .ds)
  let m := setWord m (p + 76#32) (c.seg .ss)
  let m := setLong m (p + 20#32) (c.reg .edi)
  let m := setLong m (p + 24#32) (c.reg .esi)
  let m := setLong m (p + 28#32) (c.reg .ebp)
  let m := setLong m (p + 36#32) (c.reg .ebx)
  let m := setLong m (p + 40#32) (c.reg .edx)
  let m := setLong m (p + 44#32) (c.reg .ecx)
  let m := setLong m (p + 48#32) (c.reg .eax)
  let m := setLong m (p + 60#32) c.eip
  setLong m (p + 72#32) (c.reg .esp)

theorem holds_storeSnapshot (m : BitVec 32 → BitVec 8) (p : BitVec 32) (c : Snapshot) :
    Holds (storeSnapshot m p c) p c := by
  unfold storeSnapshot
  constructor
  case reg =>
    intro r
    cases r <;> simp (disch := decide) only [Mc.ofReg, Mc.offset, Mc.ctorIdx, long_setLong_self,
      long_setLong_add]
  case seg =>
    intro r
    cases r <;> simp (disch := decide) only [Mc.ofSeg, Mc.offset, Mc.ctorIdx, word_setWord_self,
      word_setLong_add, word_setWord_add]
  case eip =>
    simp (disch := decide) only [Mc.offset, Mc.ctorIdx, long_setLong_self, long_setLong_add]

theorem storeSnapshot_of_not_within (h : ¬ Within p 80 x) : storeSnapshot m p c x = m x := by
  have hlong : ∀ i, i + 4 ≤ 80 → ∀ m v, setLong m (p + .ofNat 32 i) v x = m x := by
    intro i hi m v
    exact setLong_of_not_within fun hx => h (hx.of_add hi)
  have hword : ∀ i, i + 2 ≤ 80 → ∀ m v, setWord m (p + .ofNat 32 i) v x = m x := by
    intro i hi m v
    exact setWord_of_not_within fun hx => h (hx.of_add hi)
  unfold storeSnapshot
  simp (disch := decide) only [hlong, hword]

end Libtask.Ucontext
