import Libtask.Properties.Channels
import Libtask.Properties.Poller
import Libtask.Properties.QLocks
import Libtask.Properties.RWLocks

/-! How a program ends whose tasks release only the locks they hold: by `exit`, or because
there is no memory or no room in the poll table, and by nothing that the library itself runs
into. -/
namespace Libtask
open Function Runs ReadWriteLock

/-- Why a step of the program ends the process, where its tasks have the stack that `needstack`
asks for and `taskcreate` gets the memory for `alltask`. -/
inductive Ends (s : Sys Links) (e : Env) : Action → Halt → Prop
  | done (h0 : s.taskcount = 0) : Ends s e .schedule (.exit s.taskexitval)
  | stall (h0 : s.taskcount ≠ 0) (hq : head .taskrunqueue s = none) :
      Ends s e .schedule (.exit 1)
  | exitall (v : ℤ) : Ends s e (.call (.taskexitall v)) (.exit v)
  | poll {t : TaskPtr} {n : BitVec 32} (h : s.Resuming t (.fdtask n)) (hp : e.poll = .fail) :
      Ends s e .resume (.exit 0)
  | nomem (fn : Startfn) (h0 : e.malloc = 0) :
      Ends s e (.call (.taskcreate fn)) (.abort .taskallocMalloc)
  | nopoller {c : Call} (h0 : e.malloc = 0) (hs : s.startedfdtask = false)
      (hc : (∃ ms, c = .taskdelay ms) ∨ ∃ fd rw, c = .fdwait fd rw) :
      Ends s e (.call c) (.abort .taskallocMalloc)
  | toomany (fd : ℤ) (rw : Char) (hn : MAXFD ≤ s.npollfd) :
      Ends s e (.call (.fdwait fd rw)) (.abort .tooManyPollfds)

/-- All errors of a result satisfy `E`. -/
def FailsOnly {α : Type} (E : Halt → Prop) (r : Except Halt α) : Prop := ∀ v, r = .error v → E v

section Fails
variable {α β σ : Type} {E E' : Halt → Prop} {s : Sys σ} {p : AltPtr} {c : ℕ}

theorem FailsOnly.ok (x : α) : FailsOnly E (.ok x) := by
  intro v h
  cases h

theorem FailsOnly.error {v : Halt} (h : E v) : FailsOnly E (.error v : Except Halt α) := by
  intro w hw
  cases hw
  exact h

theorem FailsOnly.bind {r : Except Halt α} {f : α → Except Halt β} (h : FailsOnly E r)
    (hf : ∀ x, FailsOnly E (f x)) : FailsOnly E (r >>= f) := by
  intro v hv
  cases r with
  | error w =>
    cases hv
    exact h v rfl
  | ok x => exact hf x v hv

theorem FailsOnly.mono {r : Except Halt α} (h : FailsOnly E r) (hE : ∀ v, E v → E' v) :
    FailsOnly E' r :=
  fun v hv => hE v (h v hv)

theorem FailsOnly.foreign {v : Halt} (h : ¬v.own) :
    FailsOnly (fun v => ¬v.own) (.error v : Except Halt α) := .error h

theorem deref_foreign : FailsOnly (fun v => ¬v.own) (s.deref p) := by
  unfold Sys.deref
  split
  · exact .ok _
  · exact .foreign id

theorem altcopySend_foreign (snd : Alt) : FailsOnly (fun v => ¬v.own) (altcopySend c p snd s) := by
  unfold altcopySend
  dsimp only
  split
  · exact .foreign id
  · exact .ok _

theorem altcopy_foreign (a b : Option AltPtr) : FailsOnly (fun v => ¬v.own) (altcopy a b s) := by
  have hassert : ¬(Halt.abort .assertFailed).own := by simp [Halt.own]
  unfold altcopy
  split
  · exact .ok _
  · exact .foreign hassert
  · apply FailsOnly.bind deref_foreign
    intro x
    dsimp only
    split
    · apply FailsOnly.bind deref_foreign
      intro y
      apply FailsOnly.bind deref_foreign
      intro z
      split
      · exact .foreign hassert
      · split
        · exact .ok _
        · exact altcopySend_foreign y
    · apply FailsOnly.bind deref_foreign
      intro z
      split
      · exact .foreign hassert
      · exact .ok _
    · apply FailsOnly.bind deref_foreign
      intro y
      split
      · exact .foreign hassert
      · exact altcopySend_foreign y
    · exact .ok _

theorem altqueue_foreign : FailsOnly (fun v => ¬v.own) (altqueue p s) := by
  unfold altqueue
  apply FailsOnly.bind deref_foreign
  intro a
  split
  · exact .ok _
  · exact .foreign id

theorem altdequeue_foreign : FailsOnly (fun v => ¬v.own) (altdequeue p s) := by
  unfold altdequeue
  apply FailsOnly.bind deref_foreign
  intro a
  split
  · exact .foreign (by simp [Halt.own])
  · split
    · exact .ok _
    · exact .foreign (by simp [Halt.own])

theorem altalldequeueFrom_foreign (as : List Alt) (p : AltPtr) (s : Sys σ) :
    FailsOnly (fun v => ¬v.own) (altalldequeueFrom p as s) := by
  induction as generalizing p s with
  | nil => exact .foreign id
  | cons a as ih =>
    unfold altalldequeueFrom
    split
    · exact .ok _
    · dsimp only
      split
      · exact .bind altdequeue_foreign fun s => ih _ s
      · exact ih _ s

theorem altexecMatch_foreign (rand : ℕ) : FailsOnly (fun v => ¬v.own) (altexecMatch p rand s) := by
  unfold altexecMatch
  apply FailsOnly.bind deref_foreign
  intro a
  split
  · apply FailsOnly.bind (altcopy_foreign _ _)
    intro s
    apply FailsOnly.bind deref_foreign
    intro x
    apply FailsOnly.bind (altalldequeueFrom_foreign _ _ s)
    exact fun s => .ok _
  · exact .bind (altcopy_foreign _ _) fun s => .ok _

theorem altqueueAll_foreign (base : ℕ) (is : List ℕ) (s : Sys σ) :
    FailsOnly (fun v => ¬v.own) (altqueueAll base is s) := by
  induction is generalizing s with
  | nil => exact .ok s
  | cons i is ih =>
    unfold altqueueAll
    apply FailsOnly.bind deref_foreign
    intro a
    dsimp only
    split
    · exact .bind altqueue_foreign fun s => ih s
    · exact ih s

end Fails

section Calls
variable {s : Sys Links} {t : TaskPtr} {e : Env} {E : Halt → Prop}

theorem chanalt_foreign (base rand₁ rand₂ : ℕ) :
    FailsOnly (fun v => ¬v.own) (chanalt base rand₁ rand₂ t s) := by
  unfold chanalt
  dsimp only
  split
  · apply FailsOnly.bind
    · unfold altexec
      apply FailsOnly.bind (altexecMatch_foreign rand₂)
      intro r
      split <;> exact .ok _
    · exact fun s => .ok _
  · split
    · exact .ok _
    · exact .bind (altqueueAll_foreign _ _ _) fun s => .ok _

theorem qunlock_foreign (l : ℕ) : FailsOnly (fun v => ¬v.own) (qunlock l t s) := by
  unfold qunlock
  split
  · exact .foreign (by simp [Halt.own])
  · dsimp only
    split <;> exact .ok _

theorem wunlockReaders_foreign (l fuel : ℕ) (s : Sys Links) :
    FailsOnly (fun v => ¬v.own) (wunlockReaders l fuel s) := by
  induction fuel generalizing s with
  | zero => exact .foreign id
  | succ fuel ih =>
    unfold wunlockReaders
    split
    · exact .ok s
    · exact ih _

theorem wunlock_foreign (l : ℕ) : FailsOnly (fun v => ¬v.own) (wunlock l t s) := by
  unfold wunlock
  split
  · exact .foreign (by simp [Halt.own])
  · dsimp only
    split
    · exact .foreign (by simp [Halt.own])
    · exact .bind (wunlockReaders_foreign _ _ _) fun s => .ok _

theorem taskwakeupWith_foreign (r : ℕ) (all : Bool) (fuel i : ℕ) (s : Sys Links) :
    FailsOnly (fun v => ¬v.own) (taskwakeupWith r all fuel i s) := by
  induction fuel generalizing i s with
  | zero => exact .foreign id
  | succ fuel ih =>
    unfold taskwakeupWith
    split
    · exact .ok _
    · split
      · exact .ok _
      · exact ih _ _

theorem timerWake_foreign (now : UInt64) (fuel : ℕ) (s : Sys Links) :
    FailsOnly (fun v => ¬v.own) (timerWake now fuel s) := by
  induction fuel generalizing s with
  | zero => exact .foreign id
  | succ fuel ih =>
    unfold timerWake
    split
    · exact .ok s
    · split
      · exact ih _
      · exact .ok s

theorem tasksleep_foreign (r : ℕ) : FailsOnly (fun v => ¬v.own) (tasksleep r t s) := by
  unfold tasksleep
  dsimp only
  split
  · exact .bind (qunlock_foreign _) fun s => .ok _
  · exact .ok _

theorem startfdtask_fails : FailsOnly (fun v => v = .abort .taskallocMalloc ∧ e.malloc = 0 ∧
    s.startedfdtask = false) (startfdtask e s) := by
  unfold startfdtask
  split
  · exact .ok s
  · rename_i hs
    unfold taskcreate taskalloc
    split
    · rename_i h0
      exact .error ⟨rfl, h0, by simpa using hs⟩
    · exact .ok _

/-- What is set up for the poller leaves the poll table alone. -/
theorem startfdtask_npollfd {s' : Sys Links} (h : startfdtask e s = .ok s') :
    s'.npollfd = s.npollfd := by
  unfold startfdtask at h
  split at h
  · cases h
    rfl
  · unfold taskcreate taskalloc at h
    split at h
    · cases h
    · simp only [bind, Except.bind, pure, Except.pure, Except.ok.injEq] at h
      rw [← h]
      simp only [taskready, addtask, Sys.emit, Sys.setTask]
      split <;> rfl

theorem call_ends (c : Call) :
    FailsOnly (fun v => v.own → Ends s e (.call c) v) (call e c t s) := by
  have hforeign : ∀ v : Halt, ¬v.own → v.own → Ends s e (.call c) v := fun v h h' => absurd h' h
  cases c with
  | taskcreate fn =>
    refine .bind ?_ fun s => .ok _
    unfold taskcreate taskalloc
    split
    · rename_i h0
      exact .error fun _ => .nomem fn h0
    · exact .ok _
  | taskexitall v => exact .error fun _ => .exitall v
  | qunlock => exact .bind ((qunlock_foreign _).mono hforeign) fun s => .ok _
  | wunlock => exact .bind ((wunlock_foreign _).mono hforeign) fun s => .ok _
  | tasksleep => exact (tasksleep_foreign _).mono hforeign
  | taskwakeup => exact .bind ((taskwakeupWith_foreign _ _ _ _ _).mono hforeign) fun s => .ok _
  | taskwakeupall => exact .bind ((taskwakeupWith_foreign _ _ _ _ _).mono hforeign) fun s => .ok _
  | chanalt => exact (chanalt_foreign _ _ _).mono hforeign
  | taskdelay ms =>
    intro v hv _
    unfold call taskdelay at hv
    cases hs : startfdtask e s with
    | error w =>
      rw [hs] at hv
      cases hv
      obtain ⟨rfl, h0, hst⟩ := startfdtask_fails _ hs
      exact .nopoller h0 hst (.inl ⟨ms, rfl⟩)
    | ok s' =>
      rw [hs] at hv
      simp only [bind, Except.bind] at hv
      split at hv
      · cases hv
        contradiction
      · cases hv
  | fdwait fd rw =>
    intro v hv _
    unfold call fdwait at hv
    cases hs : startfdtask e s with
    | error w =>
      rw [hs] at hv
      cases hv
      obtain ⟨rfl, h0, hst⟩ := startfdtask_fails _ hs
      exact .nopoller h0 hst (.inr ⟨fd, rw, rfl⟩)
    | ok s' =>
      rw [hs] at hv
      simp only [bind, Except.bind] at hv
      split at hv
      · rename_i hn
        cases hv
        exact .toomany fd rw (startfdtask_npollfd hs ▸ hn)
      · cases hv
  | _ => exact .ok _

theorem resume_ends (ht : s.taskrunning = some t) (hc : s.control = .resume) :
    FailsOnly (fun v => v.own → Ends s e .resume v) (resume e t s) := by
  have hforeign : ∀ v : Halt, ¬v.own → v.own → Ends s e .resume v := fun v h h' => absurd h' h
  have hback : ∀ l, FailsOnly (fun v => v.own → Ends s e .resume v) (qlockBack l t s) := by
    intro l
    unfold qlockBack
    split
    · exact .error (hforeign _ (by simp [Halt.own]))
    · exact .ok _
  unfold resume
  split
  · split <;> exact .ok _
  · exact .ok _
  · rename_i n hx
    unfold fdtaskBack
    split
    · exact .ok _
    · unfold fdtaskPass
      dsimp only
      split
      · exact .ok _
      · rename_i hp
        exact .error fun _ => .poll ⟨ht, hc, hx⟩ hp
      · exact .bind ((timerWake_foreign _ _ _).mono hforeign) fun s => .ok _
  · exact hback _
  · exact .bind (hback _) fun s => .ok _
  · exact .ok _
  · exact .ok _
  · exact .ok _
  · unfold chanaltBack
    apply FailsOnly.bind (deref_foreign.mono hforeign)
    intro x
    split
    · exact .error (hforeign _ id)
    · exact .ok _
  · exact .ok _
  · exact .ok _
  · exact .error (hforeign _ id)

/-- What comes back from a call and ends the process is an error. -/
theorem halted_finish {r : Except Halt (Sys Links × Return)} {v : Halt} (h : Switches r)
    (hv : (finish t s r).control = .halted v) : r = .error v := by
  unfold finish at hv
  split at hv
  · cases hv
    rfl
  · rename_i s'
    rw [h s' rfl] at hv
    cases hv
  · cases hv
  · cases hv

end Calls

/-- Every end that is not the library's own doing has one of these reasons. -/
theorem step_ends {s s' : Sys Links} {e : Env} {act : Action} {v : Halt}
    (hs : step (e, act) s = some s')
    (hv : s'.control = .halted v) (hown : v.own) : Ends s e act v := by
  rcases step_cases hs with ⟨rfl, hc, rfl⟩ | ⟨t, rfl, ht, hc, rfl⟩ | ⟨c, t, rfl, ht, hc, _, rfl⟩
  · unfold taskscheduler at hv
    split at hv
    · rename_i h0
      cases hv
      exact .done h0
    · rename_i h0
      split at hv
      · rename_i hq
        cases hv
        exact .stall h0 hq
      · cases hv
  · exact resume_ends ht hc v (halted_finish switches_resume hv) hown
  · exact call_ends c v (halted_finish (switches_call c) hv) hown

/-- A call releases only what its caller holds. -/
def Careful {σ : Type} (s : Sys σ) : Call → Prop
  | .qunlock l => (s.qlock l).owner = s.taskrunning
  | .tasksleep r => (s.rendez r).l.all fun l => (s.qlock l).owner = s.taskrunning
  | .runlock l => s.taskrunning.all (· ∈ readHolders (s.rwlog l))
  | .wunlock l => s.taskrunning.all (· ∈ writeHolders (s.rwlog l))
  | _ => True

instance {σ : Type} (s : Sys σ) (c : Call) : Decidable (Careful s c) :=
  match c with
  | .qunlock l => inferInstanceAs (Decidable ((s.qlock l).owner = s.taskrunning))
  | .tasksleep r =>
    inferInstanceAs (Decidable ((s.rendez r).l.all fun l => (s.qlock l).owner = s.taskrunning))
  | .runlock l => inferInstanceAs (Decidable (s.taskrunning.all (· ∈ readHolders (s.rwlog l))))
  | .wunlock l => inferInstanceAs (Decidable (s.taskrunning.all (· ∈ writeHolders (s.rwlog l))))
  | .taskcreate _ | .tasksystem | .taskyield | .taskexit _ | .taskexitall _ | .anyready
  | .qlock _ | .canqlock _ | .rlock _ | .canrlock _ | .wlock _ | .canwlock _ | .taskwakeup _
  | .taskwakeupall _ | .chanalt _ _ | .taskdelay _ | .fdwait _ _ | .fdtask | .write _ =>
    .isTrue trivial

section Careful
variable {σ : Type} {s : Sys σ} {c : Call} {lab : Option Call} {a b : Sys Queues} {pl : Placement}

theorem Careful.qClient (h : Careful s c) (l : ℕ) : QClient l s c := by
  cases c with
  | qunlock l' =>
    intro hl
    rw [← hl]
    exact h
  | tasksleep r =>
    intro hl
    have hall : (s.rendez r).l.all fun l => (s.qlock l).owner = s.taskrunning := h
    simpa [hl] using hall
  | _ => trivial

theorem Careful.rwClient (h : Careful s c) (l : ℕ) : RWClient l s c := by
  cases c with
  | runlock l' | wunlock l' =>
    intro hl
    rw [← hl]
    exact h
  | _ => trivial

theorem ReachedBy.mono {ok ok' : Sys Queues → Call → Prop} (h : ReachedBy ok a)
    (hok : ∀ a c, ok a c → ok' a c) : ReachedBy ok' a := by
  apply Reach.mono _ h
  intro a b hm
  obtain ⟨l, m, hl⟩ := hm
  exact ⟨l, m, fun c hc => hok a c (hl c hc)⟩

/-- Who comes back from waiting for a lock owns it. -/
theorem QState.owner_of_resuming {l : ℕ} {t : TaskPtr} {x : Context} (h : QState l a)
    (hI : Inv a pl) (hr : a.Resuming t x) (hx : x.inQlock l) : (a.qlock l).owner = some t := by
  have hg : (a.task t).context.granted a t := hI.fits t _ (hI.resuming hr)
  rw [hr.2.2] at hg
  rcases hx with rfl | ⟨r, rfl⟩
  · exact h.lock.handed t hg
  · exact h.lock.handed t hg.1

/-- Among those who release only what they hold no move ends the process by an abort for that,
or by any other one than for want of memory or of room. -/
theorem Move.ends (hI : Inv a pl) (hq : ∀ l, QState l a) (hrw : ∀ l, RWState l a)
    (m : Move lab a b) (hlab : ∀ c, lab = some c → Careful a c) {v : Halt}
    (hv : b.control = .halted v) : a.control = .halted v ∨ v.own := by
  refine (m.halts hI hv).imp_right fun hend => hend.resolve_right fun hbad => ?_
  clear hend
  cases hbad with
  | unowned h ho hc =>
    rcases hc with rfl | ⟨r, rfl, hr⟩
    · have hown := hlab _ rfl
      simp [Careful, h.1, ho] at hown
    · have hown := hlab _ rfl
      simp [Careful, h.1, hr, ho] at hown
  | oops h hc ho => exact absurd ((hq _).owner_of_resuming hI h hc) ho
  | @unwritten _ l h hw =>
    have hold : a.taskrunning.all (· ∈ writeHolders (a.rwlog l)) := hlab _ rfl
    rw [h.1, Option.all_some, decide_eq_true_eq] at hold
    have hwriter := (hrw l).exclusive.holder hold
    exact absurd (hw.symm.trans hwriter) (by simp)
  | @hasreaders _ l h hw hr => exact hr ((hrw l).exclusive.excl hw)

theorem ReachedBy.ends {v : Halt} (h : ReachedBy Careful a) (hv : a.control = .halted v) :
    v.own := by
  induction h using Reach.induct with
  | init h =>
    obtain ⟨P, rfl⟩ := h
    cases hv
  | step h hs ih =>
    have hreach : ReachedBy Careful _ := h
    obtain ⟨pl, hI⟩ := hreach.inv
    obtain ⟨_, m, hlab⟩ := hs
    have hq := fun l => ReachedBy.qState (hreach.mono fun a c hc => hc.qClient l)
    have hrw := fun l => ReachedBy.rwState (hreach.mono fun a c hc => hc.rwClient l)
    exact (m.ends hI hq hrw hlab hv).elim ih id

end Careful

/-- As long as locks are released only by those who hold them, the library aborts for nothing
but want of memory or of room for descriptors, and a step that ends the process has one of the
reasons for which a program may end. -/
theorem careful_program_ends {s s' : Sys Links} {e : Env} {act : Action} {v : Halt}
    (h : ReachableBy Careful s) (hok : Keeps Careful s (e, act)) (hs : step (e, act) s = some s')
    (hv : s'.control = .halted v) : Ends s e act v := by
  have hclient : ∀ (s : Sys Links) (a : Sys Queues) c, Sim s a → Careful s c → Careful a c := by
    intro s a c hsim hc
    obtain ⟨q, hq, rfl⟩ := hsim
    exact hc
  obtain ⟨a, ha, hsim⟩ := ReachableBy.sim hclient (Reach.snoc h ⟨(e, act), hok, hs⟩)
  have hctl : a.control = .halted v := by
    obtain ⟨q, hq, rfl⟩ := hsim
    exact hv
  exact step_ends hs hv (ha.ends hctl)

/-- The only task takes a lock, releases it and ends. -/
def quietRun : List (Env × Action) :=
  [(.still 0, .schedule), (.still 0, .resume), (.still 0, .call (.qlock 0)),
    (.still 0, .call (.qunlock 0)), (.still 0, .call (.taskexit 7))]

theorem careful_program_ends_small :
    ∃ s s', Program.small.after Careful quietRun = some s ∧
      step (.still 0, .schedule) s = some s' ∧ s'.control = .halted (.exit 7) ∧
      Ends s (.still 0) .schedule (.exit 7) := by
  have hrun : ((Program.small.after Careful quietRun).bind
      (step (.still 0, .schedule))).map Sys.control = some (.halted (.exit 7)) := by decide
  obtain ⟨s', hs', hv⟩ := Option.map_eq_some_iff.mp hrun
  obtain ⟨s, hs, hs'⟩ := Option.bind_eq_some_iff.mp hs'
  exact ⟨s, s', hs, hs', hv, careful_program_ends (Program.reachableBy_after hs) trivial hs' hv⟩

end Libtask
