import Libtask.Abstract.Snapshot

/-! `getxmcontext` stores a snapshot and `setxmcontext` goes on with one. -/
namespace Libtask.Ucontext

open I386 ByteMemory

variable {e : Machine} {p : BitVec 32} {c : Snapshot}

/-- The argument of a function at whose first instruction `e` is. -/
def arg (e : Machine) : BitVec 32 := long e.mem (e.reg .esp + 4#32)

theorem arg_call (s : Machine) (next : BitVec 32) :
    arg (s.call next) = long s.mem (s.reg .esp) := by
  have hesp : s.reg .esp - 4 + 4#32 = s.reg .esp := BitVec.sub_add_cancel _ _
  have harg : arg (s.call next) = long (setLong s.mem (s.reg .esp - 4) next)
      (s.reg .esp - 4 + 4#32) := rfl
  rw [harg, hesp, long_setLong (apart_push (by decide))]

theorem arg_push_call (s : Machine) (v next : BitVec 32) : arg ((s.push v).call next) = v :=
  (arg_call _ _).trans long_setLong_self

/-- The registers behind the call of a function at whose first instruction `e` is, with `eax` as its
result. -/
def returned (e : Machine) (eax : BitVec 32) : Snapshot where
  reg := Function.update (Function.update e.reg .eax eax) .esp (e.reg .esp + 4)
  seg := e.seg
  eip := long e.mem (e.reg .esp)

def Snapshot.machine (c : Snapshot) (m : BitVec 32 → BitVec 8) : Machine := ⟨c.reg, c.seg, c.eip, m⟩

/-- If the context does not cover the return address, the registers at the return are stored with
`eax = 1`, and the function returns 0. -/
theorem run_getxmcontext (h : Apart (e.reg .esp) 4 (arg e) 80) :
    e.run getxmcontext =
      (returned e 0).machine (storeSnapshot e.mem (arg e) (returned e 1)) := by
  simp only [Machine.run, getxmcontext, List.foldl, Machine.step, Machine.setReg, Machine.addr,
    Function.update_self, Function.update_of_ne, ne_eq, reduceCtorEq, not_false_eq_true]
  change Apart _ 4 (long e.mem (e.reg .esp + 4#32)) 80 at h
  unfold arg
  generalize long e.mem (e.reg .esp + 4#32) = p at h ⊢
  have hlong : ∀ i, i + 4 ≤ 80 → ∀ m v,
      long (setLong m (p + .ofNat 32 i) v) (e.reg .esp) = long m (e.reg .esp) := by
    intro i hi m v
    exact long_setLong (h.add hi)
  have hword : ∀ i, i + 2 ≤ 80 → ∀ m v,
      long (setWord m (p + .ofNat 32 i) v) (e.reg .esp) = long m (e.reg .esp) := by
    intro i hi m v
    exact long_setWord (h.add hi)
  simp (disch := decide) only [hlong, hword, BitVec.add_zero, long_setLong_self, long_setLong_add]
  unfold Snapshot.machine
  congr 1
  funext r
  cases r <;> rfl

/-- The stack of a context is gone on with, and one word below it is written. -/
theorem setxmcontext_stack (e : Machine) :
    let u := e.run setxmcontext
    u.reg .esp = long e.mem (arg e + .ofNat 32 Mc.mc_esp.offset) ∧
      u.eip = long e.mem (arg e + .ofNat 32 Mc.mc_eip.offset) ∧
      u.mem = setLong e.mem (u.reg .esp - 4) u.eip := by
  simp only [Machine.run, setxmcontext, List.foldl, Machine.step, Machine.push, Machine.setReg,
    Machine.setSeg, Machine.addr, Function.update_self, Function.update_of_ne, ne_eq,
    reduceCtorEq, not_false_eq_true, long_setLong_self, BitVec.sub_add_cancel]
  exact ⟨rfl, rfl, trivial⟩

/-- The snapshot of a context is what the machine goes on with; its `eip` passes through the word
below its stack. -/
theorem run_setxmcontext (h : Holds e.mem (arg e) c)
    (hap : Apart (arg e + .ofNat 32 Mc.mc_eax.offset) 4 (c.reg .esp - 4) 4) :
    e.run setxmcontext = c.machine (setLong e.mem (c.reg .esp - 4) c.eip) := by
  simp only [Machine.run, setxmcontext, List.foldl, Machine.step, Machine.push, Machine.setReg,
    Machine.setSeg, Machine.addr, Function.update_self, Function.update_of_ne, ne_eq,
    reduceCtorEq, not_false_eq_true]
  change Holds e.mem (long e.mem (e.reg .esp + 4#32)) c at h
  change Apart (long e.mem (e.reg .esp + 4#32) + _) 4 _ 4 at hap
  generalize long e.mem (e.reg .esp + 4#32) = p at h hap ⊢
  have hesp : long e.mem (p + 72#32) = c.reg .esp := h.reg .esp
  have heip : long e.mem (p + 60#32) = c.eip := h.eip
  have heax : long (setLong e.mem (c.reg .esp - 4) c.eip) (p + 48#32) = c.reg .eax :=
    (long_setLong hap).trans (h.reg .eax)
  rw [hesp, heip, long_setLong_self, BitVec.sub_add_cancel, heax]
  unfold Snapshot.machine
  congr 1
  · funext r
    cases r
    case eax => rfl
    case esp => rfl
    case ecx => exact h.reg .ecx
    case edx => exact h.reg .edx
    case ebx => exact h.reg .ebx
    case ebp => exact h.reg .ebp
    case esi => exact h.reg .esi
    case edi => exact h.reg .edi
  · funext r
    cases r
    case es => exact h.seg .es
    case ss => exact h.seg .ss
    case ds => exact h.seg .ds
    case fs => exact h.seg .fs

end Libtask.Ucontext
