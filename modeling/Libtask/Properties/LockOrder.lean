import Libtask.Base.LockOrder
import Libtask.Properties.QLocks

/-! Tasks that take their `QLock`s in a fixed order never wait for each other in a circle. -/
namespace Libtask
open Function Relation Runs

/-- The lock an event is about, and the event. -/
def lockEvent : Event → Option (ℕ × QEvent TaskPtr)
  | .q l e => some (l, e)
  | _ => none

/-- All the `QLock`s with `q` as their waiting lists. -/
def Sys.locks {σ : Type} (q : ℕ → List TaskPtr) (a : Sys σ) : LockOrder.Locks ℕ TaskPtr where
  owner l := (a.qlock l).owner
  line := q
  log := a.log.filterMap lockEvent

abbrev Sys.locksView (a : Sys Queues) : LockOrder.Locks ℕ TaskPtr :=
  a.locks fun l => a.links (.qwaiting l)

section
variable {lab : Option Call} {a b : Sys Queues} {pl : Placement} {t u : TaskPtr} {l : ℕ}
  {k : TasklistRef}

theorem locksView_congr (hq : b.qlock = a.qlock)
    (hl : ∀ l, b.links (.qwaiting l) = a.links (.qwaiting l))
    (hlog : b.log.filterMap lockEvent = a.log.filterMap lockEvent) : b.locksView = a.locksView := by
  simp only [Sys.locksView, Sys.locks, hq, hl, hlog]

theorem locksView_log {P : Event → Prop} (h : LogExt P a b) (hP : ∀ e, P e → lockEvent e = none) :
    b.log.filterMap lockEvent = a.log.filterMap lockEvent := by
  obtain ⟨new, hl, hn⟩ := h
  rw [hl, List.filterMap_append, List.filterMap_eq_nil_iff.mpr fun e he => hP e (hn e he),
    List.nil_append]

theorem Plain.locksView (h : Plain a b) : b.locksView = a.locksView := by
  apply locksView_congr h.qlock fun l => h.links _ _ rfl
  apply locksView_log h.log
  intro e he
  cases e with
  | q => cases he
  | _ => rfl

theorem locksView_setOwner (l : ℕ) (o : Option TaskPtr) (a : Sys Queues) :
    (a.setOwner l o).locksView =
      { a.locksView with owner := update a.locksView.owner l o } := by
  simp only [Sys.locksView, Sys.locks, Sys.setOwner, LockOrder.Locks.mk.injEq, and_true]
  funext l'
  by_cases hl : l' = l
  · simp [hl]
  · simp [hl]

theorem locksView_emit (l : ℕ) (e : QEvent TaskPtr) (a : Sys Queues) :
    (a.emit (.q l e)).locksView = { a.locksView with log := (l, e) :: a.locksView.log } := rfl

theorem locksView_switch (c : Context) (t : TaskPtr) (a : Sys Queues) :
    (a.switch c t).locksView = a.locksView := rfl

theorem locksView_enq (l : ℕ) (t : TaskPtr) (a : Sys Queues) :
    (a.enq (.qwaiting l) t).locksView = { a.locksView with
      line := update a.locksView.line l (a.locksView.line l ++ [t]) } := by
  simp only [Sys.locksView, Sys.locks, Sys.enq, LockOrder.Locks.mk.injEq, and_true, true_and]
  funext l'
  by_cases hl : l' = l
  · simp [hl]
  · simp [hl]

theorem locksView_wake (l : ℕ) (u : TaskPtr) (a : Sys Queues) :
    (a.wake (.qwaiting l) u).locksView = { a.locksView with
      line := update a.locksView.line l (a.locksView.line l).tail } := by
  rw [Sys.wake, (Plain.ready _ u).locksView]
  simp only [Sys.locksView, Sys.locks, Sys.deq, LockOrder.Locks.mk.injEq, and_true, true_and]
  funext l'
  by_cases hl : l' = l
  · simp [hl]
  · simp [hl]

/-- What is done to another object leaves the locks alone. -/
theorem LockOp.locksView {o : Obj} (h : LockOp o a b) (ho : ∀ l, o ≠ .qlock l) :
    b.locksView = a.locksView := by
  have hlist : ∀ (k : TasklistRef), k.obj = some o → ∀ l, TasklistRef.qwaiting l ≠ k := by
    rintro k hk l rfl
    exact ho l (Option.some.inj hk).symm
  cases h with
  | emit e he =>
    refine locksView_congr rfl (fun _ => rfl) ?_
    cases e with
    | q l d => exact absurd (Option.some.inj he).symm (ho l)
    | _ => rfl
  | setOwner l t hl => exact absurd hl (ho l)
  | setReaders | setWriter => rfl
  | enq k t hk => exact locksView_congr rfl (fun l => update_of_ne (hlist k hk l) _ _) rfl
  | @wake k u us hk hq =>
    rw [Sys.wake, (Plain.ready _ u).locksView]
    exact locksView_congr rfl (fun l => update_of_ne (hlist k hk l) _ _) rfl

theorem LockOps.locksView {o : Obj} (h : LockOps o a b) (ho : ∀ l, o ≠ .qlock l) :
    b.locksView = a.locksView :=
  h.lift (R := fun a b => b.locksView = a.locksView) (fun _ => rfl)
    (fun _ _ _ h₁ h₂ => h₂.trans h₁) fun _ _ hop => hop.locksView ho

theorem RWMove.locksView (m : RWMove lab a b) : b.locksView = a.locksView := by
  have hops : ∀ {c d : Sys Queues} {l' : ℕ}, LockOps (.rwlock l') c d →
      d.locksView = c.locksView := fun h => h.locksView (by simp)
  cases m with
  | rback | wback | racquire | wacquire => rfl
  | rblock | wblock =>
    rw [locksView_switch]
    exact hops (.tail (.single (.emit _ rfl)) (.enq _ _ rfl))
  | runlock => exact hops (lockOps_readUnlock _ _ _)
  | wunlock => exact hops (lockOps_writeUnlock _ _ _)

/-- Whoever unlocks, the lock is released and handed to the first in line. -/
theorem locks_unlock (a : Sys Queues) (l : ℕ) (t : TaskPtr) :
    LockOrder.Step a.locksView (a.unlock l t).locksView := by
  cases hq : a.links (.qwaiting l) with
  | nil =>
    rw [Sys.unlock_nil hq, locksView_setOwner, locksView_emit]
    exact .release l t hq
  | cons u us =>
    have hline : (a.locksView.line l).tail = us := congrArg List.tail hq
    rw [Sys.unlock_cons hq, locksView_wake, locksView_emit, locksView_setOwner, locksView_emit]
    simp only [hline]
    exact .handoff l t u us hq

/-- A task that gets hold of a free lock, or in line for one, was in no line. -/
theorem locks_acquire (hI : Inv a pl) (ht : a.taskrunning = some t)
    (ho : (a.qlock l).owner = none) :
    LockOrder.Step a.locksView ((a.setOwner l (some t)).emit (.q l (.acquire t))).locksView := by
  rw [locksView_emit, locksView_setOwner]
  exact .acquire l t ho fun l' hm => (hI.in_line hm).2.2 ht

theorem locks_block (hI : Inv a pl) (ht : a.taskrunning = some t)
    (ho : (a.qlock l).owner ≠ none) :
    LockOrder.Step a.locksView ((a.emit (.q l (.block t))).enq (.qwaiting l) t).locksView := by
  rw [locksView_enq, locksView_emit]
  exact .block l t ho fun l' hm => (hI.in_line hm).2.2 ht

theorem QMove.locks (hI : Inv a pl) (m : QMove lab a b) :
    b.locksView = a.locksView ∨ LockOrder.Step a.locksView b.locksView := by
  cases m with
  | @qback _ t l | @sleepback _ t r l => exact .inr (.back l t)
  | awake => exact .inl rfl
  | reacquire h _ ho | qacquire h ho => exact .inr (locks_acquire hI h.1 ho)
  | @qblock _ t l x h ho =>
    have hrun : a.taskrunning = some t := h.elim (fun h => h.1.1) fun ⟨_, h, _⟩ => h.1
    exact .inr (locks_block hI hrun ho)
  | qunlock => exact .inr (locks_unlock _ _ _)
  | @tasksleep _ t r =>
    obtain ⟨a', ha, _, hs | ⟨l, _, hs⟩⟩ := lockOps_sleep a r t
    · left
      rw [hs]
      exact ha.locksView (by simp)
    · right
      rw [hs, ← ha.locksView (by simp)]
      exact locks_unlock a' l t
  | @wakeup _ t u r us h hq =>
    left
    have hops : LockOps (.rendez r) a ((a.emit (.rendez r (.woken u))).wake (.rendez r) u) :=
      .tail (.single (.emit (.rendez r _) rfl)) (.wake rfl hq)
    exact hops.locksView (by simp)

theorem Move.locks (hI : Inv a pl) (m : Move lab a b) :
    b.locksView = a.locksView ∨ LockOrder.Step a.locksView b.locksView := by
  rcases m.plain_or hI with hp | hq | hrw
  · exact .inl hp.locksView
  · exact hq.locks hI
  · exact .inl hrw.locksView

theorem ReachedBy.locks {ι : Type*} [Preorder ι] (rank : ℕ → ι) {ok : Sys Queues → Call → Prop}
    (h : ReachedBy ok a) : LockOrder.Inv rank a.locksView := by
  induction h using Reach.induct with
  | init h =>
    obtain ⟨P, rfl⟩ := h
    exact LockOrder.inv_init
  | step h hs ih =>
    obtain ⟨pl, hI⟩ := ReachedBy.inv h
    obtain ⟨_, m, _⟩ := hs
    rcases m.locks hI with hv | hstep
    · rwa [hv]
    · exact hstep.inv ih

end

/-- The tasks in the lines `q` of the locks wait for each other without a circle. Each waits in
the end for a task that is in no line; and when nothing can run, that one has ended, or waits
for something else than a lock. -/
structure NoLockCycle (s : Sys Links) (q : ℕ → List TaskPtr) : Prop where
  linked : ∀ l, WellLinked s.links (.qwaiting l) (q l)
  acyclic : ∀ t, ¬TransGen (LockOrder.WaitsFor (s.locks q)) t t
  leads : ∀ l, ∀ t ∈ q l, ∃ u, TransGen (LockOrder.WaitsFor (s.locks q)) t u ∧ (∀ l, u ∉ q l) ∧
    (s.taskrunning = none → head .taskrunqueue s = none → u ∈ s.live →
      ∃ loc, (s.task u).context.home = some loc ∧ ∀ l, loc ≠ .list (.qwaiting l))

/-- As long as no task gets in line for a lock that does not rank above all the locks it owns
by then, the locks alone never stop the program. -/
theorem lock_order_no_deadlock {ι : Type*} [Preorder ι] {rank : ℕ → ι} {s : Sys Links}
    (h : Reachable s) (ho : Always (LockOrder.InOrder rank) (s.log.filterMap lockEvent)) :
    ∃ q, NoLockCycle s q := by
  obtain ⟨a, pl, ha, hI, hsim⟩ := h.sim
  have hL := ha.locks rank
  have hempty : head .taskrunqueue s = none → a.links .taskrunqueue = [] := by
    intro hq
    rw [hsim.head] at hq
    exact List.head?_eq_none_iff.mp hq
  obtain ⟨q, hq, rfl⟩ := hsim
  have hord : LockOrder.Ordered rank (s.withLinks q).locksView := hL.ordered ho
  refine ⟨fun l => q (.qwaiting l), fun l => wellLinked_of_isList (hq.isList _), hord.acyclic, ?_⟩
  intro l t ht
  obtain ⟨u, htu, hu⟩ := hord.leads (W := s.live) s.live.finite_toSet
    (fun k t hm => (hI.in_line hm).1) (fun k t hm hn => by
      have hnil := hL.free k hn
      rw [hnil] at hm
      exact absurd hm List.not_mem_nil) ht
  refine ⟨u, htu, hu, fun hrun hrq hlive => ?_⟩
  obtain ⟨loc, hloc⟩ := Option.ne_none_iff_exists'.mp (mt (hI.live u).mp (not_not.mpr hlive))
  have hfits := hI.fits u loc hloc
  have hidle : ¬loc.cpu := by
    intro hcpu
    have hr := (hI.onCpu.running u).mpr ⟨loc, hloc, hcpu⟩
    exact absurd (hrun.symm.trans hr) (by simp)
  cases loc with
  | user | resuming => exact absurd (by simp [Loc.cpu]) hidle
  | poll | alt => exact ⟨_, hfits.1, by simp⟩
  | list k =>
    have hmem : u ∈ q k := hI.placed.mem_list.mpr hloc
    cases k with
    | taskrunqueue =>
      have hnil : q .taskrunqueue = [] := hempty hrq
      simp [hnil] at hmem
    | qwaiting l' => exact absurd hmem (hu l')
    | sleeping | rwaiting | wwaiting | rendez => exact ⟨_, hfits.1, by simp⟩

/-- The first task takes the lock 0 and gets in line for the lock 1, which the task it created
has taken. -/
def inOrderRun : List (Env × Action) :=
  [(.still 0, .schedule), (.still 0, .resume), (.still 8192, .call (.taskcreate .user)),
    (.still 0, .call (.qlock 0)), (.still 0, .call .taskyield), (.still 0, .schedule),
    (.still 0, .resume), (.still 0, .call (.qlock 1)), (.still 0, .call .taskyield),
    (.still 0, .schedule), (.still 0, .resume), (.still 0, .call (.qlock 1))]

theorem lock_order_no_deadlock_small : ∃ s, Program.small.after (fun _ _ => True) inOrderRun =
    some s ∧ (s.qlock 0).owner = some 4096 ∧ head (.qwaiting 1) s = some 4096 ∧
      ∃ q, NoLockCycle s q := by
  have hrun : (Program.small.after (fun _ _ => True) inOrderRun).map (fun s =>
      ((s.qlock 0).owner, head (.qwaiting 1) s, s.log.filterMap lockEvent)) =
      some (some 4096, some 4096, [(1, .block 4096), (1, .acquire 8192), (0, .acquire 4096)]) := by
    decide
  obtain ⟨s, hs, hstate⟩ := Option.map_eq_some_iff.mp hrun
  simp only [Prod.mk.injEq] at hstate
  obtain ⟨howner, hline, hlog⟩ := hstate
  have hreach : Reachable s := (Program.reachableBy_after hs).reachable
  refine ⟨s, hs, howner, hline, @lock_order_no_deadlock _ _ id _ hreach ?_⟩
  have hacquire : ∀ (l : ℕ) (t : TaskPtr) older, LockOrder.InOrder id (l, .acquire t) older := by
    intro l t older u hu
    cases hu
  rw [hlog]
  apply always_cons
  · intro t ht k hk
    cases ht
    simp only [LockOrder.ownerOf_cons] at hk
    split at hk
    · simp at hk
    · split at hk
      · rename_i h0
        exact h0 ▸ Nat.zero_lt_one
      · simp [LockOrder.ownerOf] at hk
  · exact always_cons (hacquire _ _ _) (always_cons (hacquire _ _ _) (always_nil _))

end Libtask
