import Libtask.Refine.Context

/-! A switch away from a context and back to it. -/
namespace Libtask.Ucontext

open I386 ByteMemory

variable {s : Machine} {p next : BitVec 32} {n : ℕ}

/-- In the state `s` the code calls `getxmcontext` for the fields at `p`: the argument is on top of
the stack, and the fields do not cover the word below, where the return address goes. -/
structure CallsGet (s : Machine) (p : BitVec 32) : Prop where
  arg : long s.mem (s.reg .esp) = p
  apart : Apart (s.reg .esp - 4) 4 p 80

/-- `t` is at the first instruction of `setxmcontext` for the fields at `p`, and neither they nor
the `n` bytes from the stack pointer on have changed since the return in the state `r`. -/
structure Resumes (p : BitVec 32) (n : ℕ) (r t : Machine) : Prop where
  arg : arg t = p
  saved : ∀ x, Saved p x → t.mem x = r.mem x
  stack : ∀ x, Within (r.reg .esp) n x → t.mem x = r.mem x

/-- The call has no other effect on the registers than its result. -/
theorem returned_call (s : Machine) (next eax : BitVec 32) :
    returned (s.call next) eax = ⟨Function.update s.reg .eax eax, s.seg, next⟩ := by
  unfold returned
  congr 1
  · funext r
    cases r
    case esp => exact BitVec.sub_add_cancel _ _
    all_goals rfl
  · exact long_setLong_self

/-- The first return of `getxmcontext`. -/
theorem run_call_getxmcontext (h : CallsGet s p) (next : BitVec 32) :
    (s.call next).run getxmcontext =
      ⟨Function.update s.reg .eax 0, s.seg, next, storeSnapshot (s.call next).mem p
        ⟨Function.update s.reg .eax 1, s.seg, next⟩⟩ := by
  have harg : arg (s.call next) = p := (arg_call s next).trans h.arg
  have hap : Apart ((s.call next).reg .esp) 4 (arg (s.call next)) 80 := by
    rw [harg]
    exact h.apart
  rw [run_getxmcontext hap, harg, returned_call, returned_call]
  rfl

/-- The return of `setxmcontext` from the same call. -/
theorem run_setxmcontext_of_resumes (h : CallsGet s p) {t : Machine}
    (ht : Resumes p n ((s.call next).run getxmcontext) t) :
    t.run setxmcontext = ⟨Function.update s.reg .eax 1, s.seg, next,
      setLong t.mem (s.reg .esp - 4) next⟩ := by
  have hsaved := ht.saved
  rw [run_call_getxmcontext h] at hsaved
  have hholds : Holds t.mem (arg t) ⟨Function.update s.reg .eax 1, s.seg, next⟩ := by
    rw [ht.arg]
    exact (holds_storeSnapshot _ _ _).congr hsaved
  have hap := (h.apart.add (show 48 + 4 ≤ 80 by decide)).symm
  rw [← ht.arg] at hap
  exact run_setxmcontext hholds hap

/-- `getxmcontext` returns 0 with the other registers intact; each `setxmcontext` on an unchanged
context returns 1 from the same call with the same registers, and writes nothing but the word below
the stack pointer. So `swapcontext` goes on to `setcontext` first, and then returns 0 to its caller
once for each resumption. -/
theorem switch_round_trip (h : CallsGet s p) (next : BitVec 32) (hn : n + 4 ≤ 2 ^ 32) :
    let r := (s.call next).run getxmcontext
    (r.eip = next ∧ r.reg = Function.update s.reg .eax 0 ∧ r.seg = s.seg) ∧
    (∀ t, Resumes p n r t →
      let u := t.run setxmcontext
      u.eip = next ∧ u.reg = Function.update s.reg .eax 1 ∧ u.seg = s.seg ∧
      (∀ x, ¬ Within (s.reg .esp - 4) 4 x → u.mem x = t.mem x) ∧
      ∀ x, Within (s.reg .esp) n x → u.mem x = r.mem x) ∧
    ∀ ts : List Machine, (∀ t ∈ ts, Resumes p n r t) →
      (r :: ts.map fun t => t.run setxmcontext).map (fun u => swapcontext (u.reg .eax)) =
        .setcontext :: List.replicate ts.length (.returns 0) := by
  intro r
  have hr : r = _ := run_call_getxmcontext h next
  have hesp : r.reg .esp = s.reg .esp := by
    rw [hr]
    rfl
  have hresume : ∀ t, Resumes p n r t → t.run setxmcontext = _ :=
    fun t ht => run_setxmcontext_of_resumes h ht
  refine ⟨?_, ?_, ?_⟩
  · rw [hr]
    exact ⟨rfl, rfl, rfl⟩
  · intro t ht
    rw [hresume t ht]
    refine ⟨rfl, rfl, rfl, ?_, ?_⟩
    · intro x hx
      exact setLong_of_not_within hx
    · intro x hx
      have hstack : t.mem x = r.mem x := by
        apply ht.stack
        rw [hesp]
        exact hx
      exact (setLong_of_not_within (apart_push hn x hx)).trans hstack
  · intro ts hts
    have hfirst : swapcontext (r.reg .eax) = .setcontext := by
      rw [hr]
      rfl
    have hlater : ∀ t ∈ ts, swapcontext ((t.run setxmcontext).reg .eax) = .returns 0 := by
      intro t ht
      rw [hresume t (hts t ht)]
      rfl
    rw [List.map_cons, hfirst, List.map_map]
    congr 1
    apply List.eq_replicate_iff.mpr
    constructor
    · exact List.length_map _
    · intro v hv
      obtain ⟨t, ht, hvt⟩ := List.mem_map.mp hv
      exact hvt.symm.trans (hlater t ht)

/-- A call with the stack at `0x1000` for fields at `0x2000`, resumed from a stack at `0x3000`. -/
theorem switch_round_trip_other_stack :
    let s : Machine := ⟨fun _ => 0x1000, fun _ => 0x2b, 0, setLong (fun _ => 0) 0x1000 0x2000⟩
    let r := (s.call 0x8048000).run getxmcontext
    let t := ((r.setReg .esp 0x3000).push 0x2000).call 0x8049000
    let u := t.run setxmcontext
    u.eip = 0x8048000 ∧ u.reg = Function.update s.reg .eax 1 ∧ u.seg = s.seg := by
  intro s r t u
  have hs : CallsGet s 0x2000 := by
    constructor
    case arg => exact long_setLong_self
    case apart =>
      intro x hret hfields
      change Within (0x1000 - 4) 4 x at hret
      unfold Within at hret hfields
      bv_omega
  have hother : ∀ x, (x - 0x2000).toNat < 80 ∨ (x - 0x1000).toNat < 64 → t.mem x = r.mem x := by
    intro x hx
    have hcall : ¬ Within (0x3000 - 4 - 4) 4 x := by
      unfold Within
      bv_omega
    have hpush : ¬ Within (0x3000 - 4) 4 x := by
      unfold Within
      bv_omega
    exact (setLong_of_not_within hcall).trans (setLong_of_not_within hpush)
  have hesp : r.reg .esp = 0x1000 := by
    rw [show r = _ from run_call_getxmcontext hs 0x8048000]
    rfl
  have ht : Resumes 0x2000 64 r t := by
    constructor
    case arg => exact arg_push_call _ _ _
    case saved =>
      intro x hx
      exact hother x (.inl hx.within)
    case stack =>
      intro x hx
      rw [hesp] at hx
      exact hother x (.inr hx)
  have hu := (switch_round_trip hs 0x8048000 (by decide)).2.1 t ht
  exact ⟨hu.1, hu.2.1, hu.2.2.1⟩

end Libtask.Ucontext
