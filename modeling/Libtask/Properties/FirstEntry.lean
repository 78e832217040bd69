import Libtask.Refine.Context

/-! The first switch to a new task. -/
namespace Libtask.Ucontext

open I386 ByteMemory

variable {abi : Abi} {s : Machine} {t stack x : BitVec 32}

/-- `malloc` has given the block at `t` to a task: it ends within the memory and is apart from the
words that the call of `getcontext` pushes. -/
structure Allocated (abi : Abi) (s : Machine) (t stack : BitVec 32) : Prop where
  fits : t.toNat + (abi.sizeofTask + stack.toNat) ≤ 2 ^ 32
  apart : Apart (s.reg .esp - 8) 8 t (abi.sizeofTask + stack.toNat)

/-- The pushes of a call of `getcontext`. -/
theorem mem_push_call_push (s : Machine) (v next : BitVec 32)
    (h : ¬ Within (s.reg .esp - 8) 8 x) : ((s.push v).call next).mem x = s.mem x := by
  have hcall : ¬ Within (s.reg .esp - 4 - 4) 4 x := by
    unfold Within at h ⊢
    bv_omega
  have hpush : ¬ Within (s.reg .esp - 4) 4 x := by
    unfold Within at h ⊢
    bv_omega
  exact (setLong_of_not_within hcall).trans (setLong_of_not_within hpush)

/-- `getcontext` returns 0 and changes nothing but the fields it is called for and the two words
that its call pushes. -/
theorem getcontext_spec {u : BitVec 32} (next : BitVec 32)
    (h : Apart (s.reg .esp - 8) 8 (u + .ofNat 32 abi.uc_xmcontext) 80) :
    (getcontext abi s u next).reg .eax = 0 ∧
      ∀ x, ¬ Within (s.reg .esp - 8) 8 x → ¬ Within (u + .ofNat 32 abi.uc_xmcontext) 80 x →
        (getcontext abi s u next).mem x = s.mem x := by
  set ctx := u + .ofNat 32 abi.uc_xmcontext with hctx
  have harg := arg_push_call s ctx next
  have hesp : ((s.push ctx).call next).reg .esp = s.reg .esp - 8 + 0#32 := by
    change s.reg .esp - 4 - 4 = _
    bv_omega
  have hap : Apart (((s.push ctx).call next).reg .esp) 4 (arg ((s.push ctx).call next)) 80 := by
    rw [hesp, harg]
    exact (h.symm.add (by decide)).symm
  unfold getcontext
  rw [← hctx, run_getxmcontext hap, harg]
  constructor
  · rfl
  · intro x hstack hfields
    exact (storeSnapshot_of_not_within hfields).trans (mem_push_call_push s ctx next hstack)

/-- The pointer goes through the two halves unchanged. -/
theorem taskstart_split (t : BitVec 32) : taskstart t (t >>> 16 >>> 16) = t := by
  have hzero : t >>> 16 >>> 16 = 0#32 := by
    apply BitVec.eq_of_toNat_eq
    rw [BitVec.toNat_ushiftRight, BitVec.toNat_ushiftRight, Nat.shiftRight_eq_div_pow,
      Nat.shiftRight_eq_div_pow, BitVec.toNat_zero]
    omega
  rw [hzero]
  simp [taskstart]

theorem Allocated.size_le (h : Allocated abi s t stack) : abi.sizeofTask ≤ 2 ^ 32 := by
  have hfits := h.fits
  omega

theorem taskFields_stack (hsize : abi.sizeofTask ≤ 2 ^ 32) (m : BitVec 32 → BitVec 8)
    (t fn arg stack id : BitVec 32) (mask : ℕ → BitVec 8) :
    let m := taskFields abi m t fn arg stack id mask
    long m (t + .ofNat 32 abi.stk) = t + .ofNat 32 abi.sizeofTask ∧
      long m (t + .ofNat 32 abi.stksize) = stack := by
  obtain ⟨hstk, hstksize, hstartfn, hstartarg, hend⟩ := abi.fields_eq
  have hsigset := abi.sigset_lt
  have hid : abi.id = Abi.context + abi.sizeofXucontext + 8 := rfl
  unfold taskFields
  constructor
  · rw [long_fill (apart_add t (by omega)), long_fill (apart_add t (by omega)),
      long_setLong_add t (by omega), long_setLong_add t (by omega),
      long_setLong_add t (by omega), long_setLong_add t (by omega), long_setLong_self]
  · rw [long_fill (apart_add t (by omega)), long_fill (apart_add t (by omega)),
      long_setLong_add t (by omega), long_setLong_add t (by omega),
      long_setLong_add t (by omega), long_setLong_self]

/-- The stack of the new context is the one of the task without eight bytes at its low end and 56 at
its high end. -/
theorem taskallocInit_spec (h : Allocated abi s t stack) (next fn arg id : BitVec 32)
    (mask : ℕ → BitVec 8) :
    ∃ m, taskallocInit abi s next t fn arg stack id mask = some m ∧
      long m (t + .ofNat 32 (Abi.context + (abi.uc_stack + abi.ss_sp))) =
        t + .ofNat 32 abi.sizeofTask + 8 ∧
      long m (t + .ofNat 32 (Abi.context + (abi.uc_stack + abi.ss_size))) = stack - 64 := by
  obtain ⟨hstk, hstksize, -, -, hend⟩ := abi.fields_eq
  have hsize := h.size_le
  have hsp := abi.ss_sp_lt
  have hss := abi.ss_size_lt
  have hss_apart := abi.ss_apart
  have hctx : Abi.context + abi.uc_xmcontext + 80 ≤ abi.id := by
    unfold Abi.id Abi.sizeofXucontext Abi.uc_stack sizeofXmcontext
    omega
  set m := taskFields abi s.mem t fn arg stack id mask with hm
  have hfields := taskFields_stack hsize s.mem t fn arg stack id mask
  have hap : Apart (s.reg .esp - 8) 8
      (t + .ofNat 32 Abi.context + .ofNat 32 abi.uc_xmcontext) 80 := by
    rw [add_ofNat_add]
    exact h.apart.add (by omega)
  obtain ⟨heax, hmem⟩ := getcontext_spec (s := { s with mem := m }) next hap
  set g := getcontext abi { s with mem := m } (t + .ofNat 32 Abi.context) next with hg
  -- The fields behind the context are as before the call.
  have hkeep : ∀ i, abi.id ≤ i → i + 4 ≤ abi.sizeofTask →
      long g.mem (t + .ofNat 32 i) = long m (t + .ofNat 32 i) := by
    intro i hi hi'
    apply long_congr
    intro x hx
    have hstack : Apart (t + .ofNat 32 i) 4 (s.reg .esp - 8) 8 := (h.apart.add (by omega)).symm
    have hctx : Apart (t + .ofNat 32 i) 4 (t + .ofNat 32 (Abi.context + abi.uc_xmcontext)) 80 :=
      apart_add t (by omega)
    rw [add_ofNat_add] at hmem
    exact hmem x (hstack x hx) (hctx x hx)
  have hstk' := (hkeep abi.stk (by omega) (by omega)).trans hfields.1
  have hstksize' := (hkeep abi.stksize (by omega) (by omega)).trans hfields.2
  unfold taskallocInit
  rw [← hm]
  simp only [← hg, heax, add_ofNat_add, hstk']
  rw [if_neg (by decide)]
  refine ⟨_, rfl, ?_, ?_⟩
  · rw [long_setLong_add t (by omega), long_setLong_self]
  · rw [long_setLong_self, long_setLong_add t (by omega), hstksize']

/-- Where `makecontext` puts two arguments on the stack of `size` bytes at `stk`. -/
def argsAt (stk size : BitVec 32) : BitVec 32 :=
  let sp := stk + 8 + 4 * ((size - 64) / 4) - 4 * 2
  sp - sp % 16

theorem argsAt_bounds {stk size : BitVec 32} (hsize : 128 ≤ size.toNat)
    (hfits : stk.toNat + size.toNat ≤ 2 ^ 32) :
    stk.toNat + 49 ≤ (argsAt stk size).toNat ∧
      (argsAt stk size).toNat + 64 ≤ stk.toNat + size.toNat ∧ (argsAt stk size).toNat % 16 = 0 := by
  have hsub : (size - 64).toNat = size.toNat - 64 := by bv_omega
  have hdiv : ((size - 64) / 4).toNat = (size.toNat - 64) / 4 := by
    rw [BitVec.toNat_udiv, hsub]
    rfl
  have hsp : (stk + 8 + 4 * ((size - 64) / 4) - 4 * 2).toNat =
      stk.toNat + 4 * ((size.toNat - 64) / 4) := by
    bv_omega
  have hargs : (argsAt stk size).toNat = stk.toNat + 4 * ((size.toNat - 64) / 4) -
      (stk.toNat + 4 * ((size.toNat - 64) / 4)) % 16 := by
    have hle : ∀ v : BitVec 32, (v % 16).toNat ≤ v.toNat := by
      intro v
      rw [BitVec.toNat_umod]
      exact Nat.mod_le _ _
    change (_ - _ % 16 : BitVec 32).toNat = _
    rw [BitVec.toNat_sub_of_le (BitVec.le_def.mpr (hle _)), BitVec.toNat_umod, hsp]
    rfl
  omega

/-- The stack pointer of a new context: the return address is below the arguments. -/
def firstSp (stk size : BitVec 32) : BitVec 32 := argsAt stk size - 4

/-- The words from the one that `setxmcontext` pushes to the last argument. -/
theorem within_of_firstSp {stk size : BitVec 32} (hsize : 128 ≤ size.toNat)
    (hfits : stk.toNat + size.toNat ≤ 2 ^ 32) (h : Within (firstSp stk size - 4) 16 x) :
    Within stk size.toNat x := by
  obtain ⟨hlow, hhigh, -⟩ := argsAt_bounds hsize hfits
  unfold firstSp at h
  unfold Within at h ⊢
  bv_omega

/-- The context at `ctx` enters `start` with the stack at `sp`, where the return address 0 and the
arguments `y` and `x` are. -/
structure Prepared (m : BitVec 32 → BitVec 8) (ctx start sp y x : BitVec 32) : Prop where
  eip : long m (ctx + .ofNat 32 Mc.mc_eip.offset) = start
  esp : long m (ctx + .ofNat 32 Mc.mc_esp.offset) = sp
  zero : long m sp = 0
  fst : long m (sp + 4) = y
  snd : long m (sp + 8) = x

/-- The context that `makecontext` leaves for two arguments, and the words that it writes. -/
theorem makecontext_spec {m : BitVec 32 → BitVec 8} {ucp stk size : BitVec 32}
    (hsp : long m (ucp + .ofNat 32 (abi.uc_stack + abi.ss_sp)) = stk + 8)
    (hss : long m (ucp + .ofNat 32 (abi.uc_stack + abi.ss_size)) = size - 64)
    (hsize : 128 ≤ size.toNat) (hfits : stk.toNat + size.toNat ≤ 2 ^ 32)
    (hap : Apart (ucp + .ofNat 32 abi.uc_xmcontext) 80 stk size.toNat) (func y x : BitVec 32) :
    let ctx := ucp + .ofNat 32 abi.uc_xmcontext
    let m' := makecontext abi m ucp func 2 [y, x]
    Prepared m' ctx func (firstSp stk size) y x ∧
      ∀ a, ¬ Within (firstSp stk size) 12 a → ¬ Within (ctx + .ofNat 32 Mc.mc_eip.offset) 4 a →
        ¬ Within (ctx + .ofNat 32 Mc.mc_esp.offset) 4 a → m' a = m a := by
  intro ctx m'
  set sp := firstSp stk size with hfirst
  have hargs : argsAt stk size = sp + .ofNat 32 4 := (BitVec.sub_add_cancel _ _).symm
  have heq : m' = setLong (setLong (setLong (setLong (setLong m (sp + .ofNat 32 4) y)
      (sp + .ofNat 32 8) x) (sp + .ofNat 32 0) 0) (ctx + .ofNat 32 Mc.mc_eip.offset) func)
      (ctx + .ofNat 32 Mc.mc_esp.offset) sp := by
    have hnext : sp + .ofNat 32 8 = argsAt stk size + 4 := by
      rw [hargs]
      exact (add_ofNat_add sp 4 4).symm
    have hlast : sp + .ofNat 32 0 = sp := BitVec.add_zero sp
    rw [hnext, ← hargs, hlast]
    change makecontext abi m ucp func 2 [y, x] = _
    unfold makecontext
    rw [hsp, hss, ← add_ofNat_add, ← add_ofNat_add]
    rfl
  -- The words on the stack are not those in the context.
  have hap' : ∀ i j, i + 4 ≤ 12 → j + 4 ≤ 80 →
      Apart (sp + .ofNat 32 i) 4 (ctx + .ofNat 32 j) 4 := by
    intro i j hi hj a ha ha'
    have hin : Within (sp - 4) 16 a := within_push (by decide) (ha.of_add hi)
    exact hap a (ha'.of_add hj) (within_of_firstSp hsize hfits hin)
  have hword : ∀ i, i + 4 ≤ 12 → long m' (sp + .ofNat 32 i) =
      long (setLong (setLong (setLong m (sp + .ofNat 32 4) y) (sp + .ofNat 32 8) x)
        (sp + .ofNat 32 0) 0) (sp + .ofNat 32 i) := by
    intro i hi
    rw [heq, long_setLong (hap' i _ hi (by decide)), long_setLong (hap' i _ hi (by decide))]
  have hzero := hword 0 (by decide)
  have hfst := hword 4 (by decide)
  have hsnd := hword 8 (by decide)
  rw [long_setLong_self, BitVec.add_zero] at hzero
  rw [long_setLong_add sp (by decide), long_setLong_add sp (by decide), long_setLong_self] at hfst
  rw [long_setLong_add sp (by decide), long_setLong_self] at hsnd
  constructor
  · constructor
    case eip => rw [heq, long_setLong_add ctx (by decide), long_setLong_self]
    case esp => rw [heq, long_setLong_self]
    case zero => exact hzero
    case fst => exact hfst
    case snd => exact hsnd
  · intro a hsp' heip hesp
    have hnot : ∀ i, i + 4 ≤ 12 → ¬ Within (sp + .ofNat 32 i) 4 a :=
      fun i hi ha => hsp' (ha.of_add hi)
    rw [heq, setLong_of_not_within hesp, setLong_of_not_within heip,
      setLong_of_not_within (hnot 0 (by decide)), setLong_of_not_within (hnot 8 (by decide)),
      setLong_of_not_within (hnot 4 (by decide))]

/-- `setxmcontext` on the unchanged context writes the word below the stack and goes on with it. -/
theorem Prepared.enter {m : BitVec 32 → BitVec 8} {ctx start sp y x : BitVec 32} {e : Machine}
    (h : Prepared m ctx start sp y x) (harg : arg e = ctx)
    (hsaved : ∀ a, Saved ctx a → e.mem a = m a) (hstack : ∀ a, Within sp 12 a → e.mem a = m a) :
    let u := e.run setxmcontext
    u.reg .esp = sp ∧ u.eip = start ∧ long u.mem sp = 0 ∧ long u.mem (sp + 4) = y ∧
      long u.mem (sp + 8) = x ∧ ∀ a, ¬ Within (sp - 4) 4 a → u.mem a = e.mem a := by
  intro u
  obtain ⟨hesp, heip, hmem⟩ := setxmcontext_stack e
  have hesp' : u.reg .esp = sp := by
    rw [hesp, harg, ← h.esp]
    exact long_congr fun a ha => hsaved a (.inl ⟨.esp, ha⟩)
  have heip' : u.eip = start := by
    rw [heip, harg, ← h.eip]
    exact long_congr fun a ha => hsaved a (.inr (.inr ha))
  have hmem' : u.mem = setLong e.mem (sp - 4) start := by
    rw [← hesp', ← heip']
    exact hmem
  have hword : ∀ i, i + 4 ≤ 12 → long u.mem (sp + .ofNat 32 i) = long m (sp + .ofNat 32 i) := by
    intro i hi
    apply long_congr
    intro a ha
    have hsp : Within sp 12 a := ha.of_add hi
    rw [hmem', setLong_of_not_within (apart_push (by decide) a hsp)]
    exact hstack a hsp
  have hzero := hword 0 (by decide)
  rw [BitVec.add_zero] at hzero
  refine ⟨hesp', heip', hzero.trans h.zero, (hword 4 (by decide)).trans h.fst,
    (hword 8 (by decide)).trans h.snd, ?_⟩
  intro a ha
  rw [hmem']
  exact setLong_of_not_within ha

theorem Allocated.toNat_stk (h : Allocated abi s t stack) (hstack : 0 < stack.toNat) :
    (t + .ofNat 32 abi.sizeofTask).toNat = t.toNat + abi.sizeofTask := by
  have hfits := h.fits
  have hlt : t.toNat + abi.sizeofTask < 2 ^ 32 := by omega
  rw [BitVec.toNat_add, BitVec.toNat_ofNat, Nat.add_mod_mod, Nat.mod_eq_of_lt hlt]

/-- The context is not on the stack of the task. -/
theorem Allocated.context_apart (h : Allocated abi s t stack) :
    Apart (t + .ofNat 32 Abi.context + .ofNat 32 abi.uc_xmcontext) 80
      (t + .ofNat 32 abi.sizeofTask) stack.toNat := by
  have hfits := h.fits
  have hctx : Abi.context + abi.uc_xmcontext + 80 ≤ abi.sizeofTask := by
    obtain ⟨-, -, -, -, hsize⟩ := abi.fields_eq
    unfold Abi.id Abi.sizeofXucontext Abi.uc_stack sizeofXmcontext at hsize
    omega
  have hroom : Abi.context + abi.uc_xmcontext + 80 ≤ abi.sizeofTask ∧
      abi.sizeofTask + stack.toNat ≤ 2 ^ 32 := ⟨hctx, by omega⟩
  rw [add_ofNat_add]
  exact apart_add t (.inl hroom)

/-- The first `setxmcontext` on the context of a new task enters `taskstart` with the return address
0 and two arguments that make up the address of the task; the arguments are aligned. On the stack
`makecontext` writes the return address and the arguments, and `setxmcontext` the word below them,
all of them inside of the stack; besides, `makecontext` writes two fields of the context. -/
theorem first_entry (h : Allocated abi s t stack) (hstack : 128 ≤ stack.toNat)
    (next fn startarg id start : BitVec 32) (mask : ℕ → BitVec 8) :
    let stk := t + .ofNat 32 abi.sizeofTask
    let ctx := t + .ofNat 32 Abi.context + .ofNat 32 abi.uc_xmcontext
    ∃ m₀ m, taskallocInit abi s next t fn startarg stack id mask = some m₀ ∧
      taskalloc abi s next t fn startarg stack id start mask = some m ∧
      (∀ x, ¬ Within stk stack.toNat x → ¬ Within (ctx + .ofNat 32 Mc.mc_eip.offset) 4 x →
        ¬ Within (ctx + .ofNat 32 Mc.mc_esp.offset) 4 x → m x = m₀ x) ∧
      ∀ e : Machine, arg e = ctx → (∀ x, Saved ctx x → e.mem x = m x) →
        (∀ x, Within stk stack.toNat x → e.mem x = m x) →
        let u := e.run setxmcontext
        let sp := u.reg .esp
        u.eip = start ∧ long u.mem sp = 0 ∧
          taskstart (long u.mem (sp + 4)) (long u.mem (sp + 8)) = t ∧ (sp + 4).toNat % 16 = 0 ∧
          (∀ x, Within (sp - 4) 16 x → Within stk stack.toNat x) ∧
          ∀ x, ¬ Within (sp - 4) 4 x → u.mem x = e.mem x := by
  intro stk ctx
  have hfits := h.fits
  have hend : stk.toNat + stack.toNat ≤ 2 ^ 32 := by
    rw [h.toNat_stk (by omega)]
    omega
  obtain ⟨m₀, hinit, hsp, hss⟩ := taskallocInit_spec h next fn startarg id mask
  rw [← add_ofNat_add] at hsp hss
  obtain ⟨hprepared, hmem⟩ :=
    makecontext_spec hsp hss hstack hend h.context_apart start t (t >>> 16 >>> 16)
  set m := makecontext abi m₀ (t + .ofNat 32 Abi.context) start 2 [t, t >>> 16 >>> 16]
  set sp := firstSp stk stack
  have hin : ∀ x, Within (sp - 4) 16 x → Within stk stack.toNat x :=
    fun x hx => within_of_firstSp hstack hend hx
  have hin' : ∀ x, Within sp 12 x → Within stk stack.toNat x :=
    fun x hx => hin x (within_push (by decide) hx)
  refine ⟨m₀, m, hinit, ?_, ?_, ?_⟩
  · unfold taskalloc
    rw [hinit]
    rfl
  · intro x hx heip hesp
    exact hmem x (fun hsp => hx (hin' x hsp)) heip hesp
  · intro e harg hsaved hkeep u sp'
    obtain ⟨hesp, heip, hzero, hfst, hsnd, hpush⟩ :=
      hprepared.enter harg hsaved fun x hx => hkeep x (hin' x hx)
    have halign : (sp + 4).toNat % 16 = 0 := by
      have hargs : sp + 4 = argsAt stk stack := BitVec.sub_add_cancel _ _
      rw [hargs]
      exact (argsAt_bounds hstack hend).2.2
    rw [show sp' = sp from hesp]
    refine ⟨heip, hzero, ?_, halign, hin, hpush⟩
    rw [hfst, hsnd]
    exact taskstart_split t

/-- The layout of the structures under Linux. -/
def linux : Abi where
  sigset := 128
  stack := 12
  ss_sp := 0
  ss_size := 8
  sigset_words := by decide
  stack_words := by decide
  ss_sp_le := by decide
  ss_size_le := by decide
  ss_apart := by decide

/-- The smallest stack, entered from the scheduler. -/
theorem first_entry_smallest :
    let s : Machine := ⟨fun _ => 0xbfff0000, fun _ => 0x2b, 0, fun _ => 0⟩
    let t : BitVec 32 := 0x8050001
    let ctx := t + .ofNat 32 Abi.context + .ofNat 32 linux.uc_xmcontext
    ∃ m, taskalloc linux s 0x8048000 t 0x8049000 0 128 1 0x804a010 (fun _ => 0) = some m ∧
      let u := (({ s with mem := m }.push ctx).call 0x8048100).run setxmcontext
      u.eip = 0x804a010 ∧ long u.mem (u.reg .esp) = 0 ∧
        taskstart (long u.mem (u.reg .esp + 4)) (long u.mem (u.reg .esp + 8)) = t := by
  intro s t ctx
  have hsize : linux.sizeofTask + (128 : BitVec 32).toNat = 1140 := by decide
  have hap : Apart (s.reg .esp - 8) 8 t (linux.sizeofTask + (128 : BitVec 32).toNat) := by
    rw [hsize]
    intro x hx hx'
    change Within (0xbfff0000 - 8) 8 x at hx
    change Within 0x8050001 1140 x at hx'
    unfold Within at hx hx'
    bv_omega
  obtain ⟨m₀, m, -, halloc, -, hentry⟩ := first_entry ⟨by decide, hap⟩ (by decide) 0x8048000
    0x8049000 0 1 0x804a010 (fun _ => 0)
  refine ⟨m, halloc, ?_⟩
  have hkeep : ∀ i n, i + n ≤ 1140 → ∀ x, Within (t + .ofNat 32 i) n x →
      (({ s with mem := m }.push ctx).call 0x8048100).mem x = m x := by
    intro i n hi x hx
    have hblock : Within t (linux.sizeofTask + (128 : BitVec 32).toNat) x := by
      rw [hsize]
      exact hx.of_add hi
    exact mem_push_call_push { s with mem := m } ctx _ (hap.symm x hblock)
  have hctx : ctx = t + .ofNat 32 (Abi.context + linux.uc_xmcontext) := add_ofNat_add _ _ _
  have hsaved : ∀ x, Saved ctx x → (({ s with mem := m }.push ctx).call 0x8048100).mem x = m x := by
    intro x hx
    have hin := hx.within
    rw [hctx] at hin
    exact hkeep _ 80 (by decide) x hin
  have hu := hentry _ (arg_push_call { s with mem := m } ctx 0x8048100) hsaved
    (hkeep linux.sizeofTask 128 (by decide))
  exact ⟨hu.1, hu.2.1, hu.2.2.1⟩

/-- The word of the context where `makecontext` puts the entry point is not on the stack. -/
theorem makecontext_writes_context :
    let s : Machine := ⟨fun _ => 0xbfff0000, fun _ => 0x2b, 0, fun _ => 0⟩
    let t : BitVec 32 := 0x8050000
    let x := t + .ofNat 32 Abi.context + .ofNat 32 linux.uc_xmcontext + .ofNat 32 Mc.mc_eip.offset
    Allocated linux s t 256 ∧ ¬ Within (t + .ofNat 32 linux.sizeofTask) 256 x ∧
      (taskalloc linux s 0x8048000 t 0x8049000 0 256 1 0x804a010 fun _ => 0).map (fun m => m x) ≠
        (taskallocInit linux s 0x8048000 t 0x8049000 0 256 1 fun _ => 0).map (fun m => m x) := by
  intro s t x
  constructor
  · constructor
    case fits => decide
    case apart =>
      intro a ha ha'
      change Within (0xbfff0000 - 8) 8 a at ha
      change Within 0x8050000 1268 a at ha'
      unfold Within at ha ha'
      bv_omega
  · decide +kernel

end Libtask.Ucontext
