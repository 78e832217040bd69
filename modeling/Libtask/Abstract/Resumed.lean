import Libtask.Abstract.Aside

/-! What the task on the CPU does while it goes on inside the library call it was switched out
of. Its context says which of the moves are open to it. -/
namespace Libtask
open Function

/-- A move by the task `t`, which has the CPU and is not in user code. -/
inductive Resumed (lab : Option Call) (t : TaskPtr) (a : Sys Queues) : Sys Queues → Prop
  | note (e : Event) (he : e.neutral = true) : Resumed lab t a (a.emit e)
  | halt (v : Halt) : Resumed lab t a (a.halt v)
  | back (hx : (a.task t).context.returns (a.task t).startfn) :
      Resumed lab t a { a with control := .user }
  | altback {base : ℕ} (i : ℤ) (hx : (a.task t).context = .chanalt base) :
      Resumed lab t a { a.emit (.altret t base i) with control := .user }
  | queuing {b : Sys Queues} (hx : (a.task t).context.onObj) (m : QMove lab a b) :
      Resumed lab t a b
  | rw {b : Sys Queues} (hx : (a.task t).context.onObj) (m : RWMove lab a b) : Resumed lab t a b
  | system (hx : (a.task t).context = .taskstart) (hfn : (a.task t).startfn = .fdtask) :
      Resumed lab t a (tasksystem t a)
  | fd {b : Sys Queues} (hx : (a.task t).context = .taskstart ∧ (a.task t).startfn = .fdtask ∨
      ∃ n, (a.task t).context = .fdtask n) (m : FdMove lab a b) : Resumed lab t a b

section
variable {lab : Option Call} {a b : Sys Queues} {pl : Placement} {t u : TaskPtr} {x : Context}

theorem Sys.Resuming.eq (h : a.Resuming u x) (ht : a.taskrunning = some t) :
    u = t ∧ (a.task t).context = x := by
  obtain rfl : u = t := Option.some.inj (h.1.symm.trans ht)
  exact ⟨rfl, h.2.2⟩

theorem QMove.resumed (m : QMove lab a b) (ht : a.taskrunning = some t) (hu : a.control ≠ .user) :
    Resumed lab t a b := by
  refine .queuing ?_ m
  cases m with
  | qacquire h | qunlock h | tasksleep h | wakeup h => exact absurd h.2 hu
  | qback h | sleepback h | awake h | reacquire h =>
    rw [(h.eq ht).2]
    trivial
  | qblock h =>
    rcases h with ⟨h, _⟩ | ⟨r, h, _⟩
    · exact absurd h.2 hu
    · rw [(h.eq ht).2]
      trivial

theorem RWMove.resumed (m : RWMove lab a b) (ht : a.taskrunning = some t)
    (hu : a.control ≠ .user) : Resumed lab t a b := by
  refine .rw ?_ m
  cases m with
  | racquire h | rblock h | runlock h | wacquire h | wblock h | wunlock h => exact absurd h.2 hu
  | rback h | wback h =>
    rw [(h.eq ht).2]
    trivial

theorem FdMove.resumed (m : FdMove lab a b) (ht : a.taskrunning = some t)
    (hu : a.control ≠ .user) : Resumed lab t a b := by
  refine .fd ?_ m
  cases m with
  | fdcall h | taskdelay _ _ h | fdwait _ _ h => exact absurd h.2 hu
  | fdyield h =>
    rcases h with ⟨h, hfn⟩ | ⟨n, h⟩
    · obtain ⟨rfl, hx⟩ := h.eq ht
      exact .inl ⟨hx, hfn⟩
    · exact .inr ⟨n, (h.eq ht).2⟩
  | poll _ h | revents _ h | pollwake h | timerwake _ h => exact .inr ⟨_, (h.eq ht).2⟩

/-- Such a task does nothing but come to the end of its call. -/
theorem Move.resumed (hI : Inv a pl) (m : Move lab a b) (ht : a.taskrunning = some t)
    (hu : a.control ≠ .user) : Resumed lab t a b := by
  have hsched : a.control ≠ .scheduler := by
    intro hs
    rw [hI.onCpu.scheduler hs] at ht
    cases ht
  cases m with
  | exit hs | stall hs | dispatch hs => exact absurd hs hsched
  | exitall | nomem | toomany | unowned | oops | unwritten | hasreaders => exact .halt _
  | note e he => exact .note e he
  | taskyield h | altrun h | altfail h | altblock h | write _ h => exact absurd h.2 hu
  | life m =>
    cases m with
    | create _ h | startfd h | taskexit _ h => exact absurd h.2 hu
  | queuing m => exact m.resumed ht hu
  | rw m => exact m.resumed ht hu
  | fd m => exact m.resumed ht hu
  | back h hret =>
    obtain ⟨rfl, hx⟩ := h.eq ht
    apply Resumed.back
    rw [hx]
    exact hret
  | altback h _ _ =>
    obtain ⟨rfl, hx⟩ := h.eq ht
    exact .altback _ hx
  | tasksystem h =>
    rcases h with h | ⟨h, hfn⟩
    · exact absurd h.2 hu
    · obtain ⟨rfl, hx⟩ := h.eq ht
      exact .system hx hfn

end
end Libtask
