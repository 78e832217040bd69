import Libtask.Base.ByteMemory

/-! Straight-line code for the i386: moves, the stack and the return from a call. Segments are flat,
so that a selector has no part in an address. -/
namespace I386

inductive Reg
  | eax | ecx | edx | ebx | esp | ebp | esi | edi
  deriving DecidableEq

inductive Seg
  | es | ss | ds | fs
  deriving DecidableEq

structure Machine where
  reg : Reg → BitVec 32
  seg : Seg → BitVec 16
  eip : BitVec 32
  mem : BitVec 32 → BitVec 8

/-- The four bytes at `a`. -/
def long (m : BitVec 32 → BitVec 8) (a : BitVec 32) : BitVec 32 := ByteMemory.load m 4 a

/-- The two bytes at `a`. -/
def word (m : BitVec 32 → BitVec 8) (a : BitVec 32) : BitVec 16 := ByteMemory.load m 2 a

def setLong (m : BitVec 32 → BitVec 8) (a v : BitVec 32) : BitVec 32 → BitVec 8 :=
  ByteMemory.store m 4 a v

def setWord (m : BitVec 32 → BitVec 8) (a : BitVec 32) (v : BitVec 16) : BitVec 32 → BitVec 8 :=
  ByteMemory.store m 2 a v

def setLongs (m : BitVec 32 → BitVec 8) (a : BitVec 32) : List (BitVec 32) → BitVec 32 → BitVec 8
  | [] => m
  | v :: vs => setLongs (setLong m a v) (a + 4) vs

section Memory

open ByteMemory

variable {m m' : BitVec 32 → BitVec 8} {a b v x : BitVec 32} {u : BitVec 16}

theorem long_congr (h : ∀ x, Within a 4 x → m x = m' x) : long m a = long m' a := load_congr h

theorem word_congr (h : ∀ x, Within a 2 x → m x = m' x) : word m a = word m' a := load_congr h

theorem setLong_of_not_within (h : ¬ Within a 4 x) : setLong m a v x = m x :=
  store_of_not_within h

theorem setWord_of_not_within (h : ¬ Within a 2 x) : setWord m a u x = m x :=
  store_of_not_within h

theorem long_setLong_self : long (setLong m a v) a = v := load_store_self (by decide) _

theorem word_setWord_self : word (setWord m a u) a = u := load_store_self (by decide) _

theorem long_setLong (h : Apart a 4 b 4) : long (setLong m b v) a = long m a :=
  load_store_of_apart h

theorem long_setWord (h : Apart a 4 b 2) : long (setWord m b u) a = long m a :=
  load_store_of_apart h

theorem long_fill {k : ℕ} {f : ℕ → BitVec 8} (h : Apart a 4 b k) :
    long (fill m b k f) a = long m a :=
  long_congr fun x hx => fill_of_not_within (h x hx)

theorem word_setLong (h : Apart a 2 b 4) : word (setLong m b v) a = word m a :=
  load_store_of_apart h

theorem word_setWord (h : Apart a 2 b 2) : word (setWord m b u) a = word m a :=
  load_store_of_apart h

theorem apart_push {n : ℕ} (h : n + 4 ≤ 2 ^ 32) : Apart a n (a - 4) 4 := by
  intro x hx hpush
  unfold Within at hx hpush
  bv_omega

theorem within_push {n : ℕ} (h : n + 4 ≤ 2 ^ 32) (hx : Within a n x) :
    Within (a - 4) (n + 4) x := by
  unfold Within at hx ⊢
  bv_omega

/-! Words at fixed distances from a base. -/

variable {i j : ℕ} (p : BitVec 32)

theorem long_setLong_add (h : i + 4 ≤ j ∧ j + 4 ≤ 2 ^ 32 ∨ j + 4 ≤ i ∧ i + 4 ≤ 2 ^ 32) :
    long (setLong m (p + .ofNat 32 j) v) (p + .ofNat 32 i) = long m (p + .ofNat 32 i) :=
  long_setLong (apart_add p h)

theorem word_setLong_add (h : i + 2 ≤ j ∧ j + 4 ≤ 2 ^ 32 ∨ j + 4 ≤ i ∧ i + 2 ≤ 2 ^ 32) :
    word (setLong m (p + .ofNat 32 j) v) (p + .ofNat 32 i) = word m (p + .ofNat 32 i) :=
  word_setLong (apart_add p h)

theorem word_setWord_add (h : i + 2 ≤ j ∧ j + 2 ≤ 2 ^ 32 ∨ j + 2 ≤ i ∧ i + 2 ≤ 2 ^ 32) :
    word (setWord m (p + .ofNat 32 j) u) (p + .ofNat 32 i) = word m (p + .ofNat 32 i) :=
  word_setWord (apart_add p h)

end Memory

/-- The operand `disp(base)`. -/
structure Operand where
  disp : ℕ
  base : Reg

/-- Instructions, their operands in the order of the AT&T syntax. -/
inductive Instr
  /-- `movl disp(base), %dst` -/
  | load (src : Operand) (dst : Reg)
  /-- `movl %src, disp(base)` -/
  | store (src : Reg) (dst : Operand)
  /-- `movl $v, %dst` -/
  | loadImm (v : BitVec 32) (dst : Reg)
  /-- `movl $v, disp(base)` -/
  | storeImm (v : BitVec 32) (dst : Operand)
  /-- `movw disp(base), %dst` -/
  | loadSeg (src : Operand) (dst : Seg)
  /-- `movw %src, disp(base)` -/
  | storeSeg (src : Seg) (dst : Operand)
  /-- `leal disp(base), %dst` -/
  | leal (src : Operand) (dst : Reg)
  /-- `pushl disp(base)` -/
  | pushl (src : Operand)
  | ret

namespace Machine

def setReg (m : Machine) (r : Reg) (v : BitVec 32) : Machine :=
  { m with reg := Function.update m.reg r v }

def setSeg (m : Machine) (r : Seg) (v : BitVec 16) : Machine :=
  { m with seg := Function.update m.seg r v }

def addr (m : Machine) (o : Operand) : BitVec 32 := m.reg o.base + BitVec.ofNat 32 o.disp

def push (m : Machine) (v : BitVec 32) : Machine :=
  let esp := m.reg .esp - 4
  { m.setReg .esp esp with mem := setLong m.mem esp v }

/-- `call`: the address behind it goes onto the stack. -/
def call (m : Machine) (next : BitVec 32) : Machine := m.push next

def step (m : Machine) : Instr → Machine
  | .load src dst => m.setReg dst (long m.mem (m.addr src))
  | .store src dst => { m with mem := setLong m.mem (m.addr dst) (m.reg src) }
  | .loadImm v dst => m.setReg dst v
  | .storeImm v dst => { m with mem := setLong m.mem (m.addr dst) v }
  | .loadSeg src dst => m.setSeg dst (word m.mem (m.addr src))
  | .storeSeg src dst => { m with mem := setWord m.mem (m.addr dst) (m.seg src) }
  | .leal src dst => m.setReg dst (m.addr src)
  | .pushl src => m.push (long m.mem (m.addr src))
  | .ret => { m.setReg .esp (m.reg .esp + 4) with eip := long m.mem (m.reg .esp) }

def run (m : Machine) (code : List Instr) : Machine := code.foldl step m

end Machine

end I386
