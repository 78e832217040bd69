import Libtask.Abstract.Resumed
import Libtask.Abstract.Schedule
import Libtask.Base.Sweep
import Libtask.Properties.TaskTable

/-! The poll table: the wakeup loop of `fdtask` takes out the entries that are ready and no
others, and the table holds what the tasks blocked in `fdwait` wait for. -/
namespace Libtask
open Function Runs

/-- The two arrays `polltask` and `pollfd` as one table. -/
def Sys.pollTable {σ : Type} (s : Sys σ) : Sweep.Table (TaskPtr × Pollfd) where
  arr i := (s.polltask i, s.pollfd i)
  count := s.npollfd

def Sys.withPollTable {σ : Type} (T : Sweep.Table (TaskPtr × Pollfd)) (s : Sys σ) : Sys σ :=
  { s with
    polltask := fun i => (T.arr i).1
    pollfd := fun i => (T.arr i).2
    npollfd := T.count }

section Table
variable {σ : Type}

theorem pollTable_remove (s : Sys σ) (i : ℕ) :
    (s.pollRemove i).pollTable = s.pollTable.remove i := by
  have harr : ∀ j, (update s.polltask i (s.polltask (s.npollfd - 1)) j,
      update s.pollfd i (s.pollfd (s.npollfd - 1)) j) =
        update (fun k => (s.polltask k, s.pollfd k)) i
          (s.polltask (s.npollfd - 1), s.pollfd (s.npollfd - 1)) j := by
    intro j
    by_cases hj : j = i <;> simp [hj]
  exact congrArg (fun arr => Sweep.Table.mk arr (s.npollfd - 1)) (funext harr)

theorem pollTable_push (s : Sys σ) (t : TaskPtr) (x : Pollfd) :
    ({ s with
      polltask := update s.polltask s.npollfd t
      pollfd := update s.pollfd s.npollfd x
      npollfd := s.npollfd + 1 } : Sys σ).pollTable = s.pollTable.push (t, x) := by
  have harr : ∀ j, (update s.polltask s.npollfd t j, update s.pollfd s.npollfd x j) =
      update (fun k => (s.polltask k, s.pollfd k)) s.npollfd (t, x) j := by
    intro j
    by_cases hj : j = s.npollfd <;> simp [hj]
  exact congrArg (fun arr => Sweep.Table.mk arr (s.npollfd + 1)) (funext harr)

end Table

/-- `poll` reported something for the entry. -/
def fired (x : TaskPtr × Pollfd) : Bool := decide (x.2.revents ≠ 0)

/-- `taskready` for each of the tasks, in this order. -/
def readyAll (ts : List TaskPtr) (s : Sys Links) : Sys Links :=
  ts.foldl (fun s t => taskready t s) s

/-- One entry of the wakeup loop handled: its task is made ready and the last entry moves. -/
def pollWakeEntry (i : ℕ) (s : Sys Links) : Sys Links := (taskready (s.polltask i) s).pollRemove i

section Loop
variable {s : Sys Links} {i N fuel : ℕ}

theorem pollTable_pollWakeEntry (i : ℕ) (s : Sys Links) :
    (pollWakeEntry i s).pollTable = s.pollTable.remove i := pollTable_remove (taskready _ s) i

theorem pollWakeEntry_eq (i : ℕ) (s : Sys Links) : pollWakeEntry i s =
    taskready (s.polltask i) (s.withPollTable (s.pollTable.remove i)) := by
  have htab := pollTable_pollWakeEntry i s
  have hback : (pollWakeEntry i s).withPollTable (pollWakeEntry i s).pollTable =
      pollWakeEntry i s := rfl
  rw [← hback, htab]
  rfl

theorem pollWakeSlot_pos (h : i < s.npollfd ∧ (s.pollfd i).revents ≠ 0) :
    pollWakeSlot i (fuel + 1) s = pollWakeSlot i fuel (pollWakeEntry i s) := by
  rw [pollWakeSlot, if_pos h]
  rfl

theorem pollWakeSlot_neg (h : ¬(i < s.npollfd ∧ (s.pollfd i).revents ≠ 0)) :
    pollWakeSlot i fuel s = s := by
  cases fuel with
  | zero => rfl
  | succ fuel => rw [pollWakeSlot, if_neg h]

/-- The inner loop sweeps one index of the table and makes the tasks it takes out ready. -/
theorem pollWakeSlot_eq (i fuel : ℕ) (s : Sys Links) : pollWakeSlot i fuel s =
    readyAll ((Sweep.slot fired i fuel s.pollTable).1.map Prod.fst)
      (s.withPollTable (Sweep.slot fired i fuel s.pollTable).2) := by
  induction fuel generalizing s with
  | zero => rfl
  | succ fuel ih =>
    by_cases h : i < s.npollfd ∧ (s.pollfd i).revents ≠ 0
    · have hf : i < s.pollTable.count ∧ fired (s.pollTable.arr i) := ⟨h.1, decide_eq_true h.2⟩
      rw [pollWakeSlot_pos h, ih, Sweep.slot_pos hf, pollTable_pollWakeEntry, pollWakeEntry_eq]
      rfl
    · have hf : ¬(i < s.pollTable.count ∧ fired (s.pollTable.arr i)) :=
        fun hf => h ⟨hf.1, of_decide_eq_true hf.2⟩
      rw [pollWakeSlot_neg h, Sweep.slot_neg hf]
      rfl

theorem pollTable_readyAll (ts : List TaskPtr) (s : Sys Links) :
    (readyAll ts s).pollTable = s.pollTable := by
  induction ts generalizing s with
  | nil => rfl
  | cons t ts ih => exact (ih (taskready t s)).trans rfl

theorem readyAll_append (ts us : List TaskPtr) (s : Sys Links) :
    readyAll (ts ++ us) s = readyAll us (readyAll ts s) := List.foldl_append

theorem readyAll_withPollTable (ts : List TaskPtr) (T : Sweep.Table (TaskPtr × Pollfd))
    (s : Sys Links) : (readyAll ts s).withPollTable T = readyAll ts (s.withPollTable T) := by
  induction ts generalizing s with
  | nil => rfl
  | cons t ts ih => exact ih (taskready t s)

/-- The wakeup loop sweeps the table and makes the tasks it takes out ready. -/
theorem pollWake_eq (fuel i : ℕ) (s : Sys Links) : pollWake fuel i s =
    readyAll ((Sweep.sweep fired fuel i s.pollTable).1.map Prod.fst)
      (s.withPollTable (Sweep.sweep fired fuel i s.pollTable).2) := by
  induction fuel generalizing i s with
  | zero => rfl
  | succ fuel ih =>
    by_cases h : i < s.npollfd
    · have hslot := pollWakeSlot_eq i s.npollfd s
      have htab : (pollWakeSlot i s.npollfd s).pollTable =
          (Sweep.slot fired i s.npollfd s.pollTable).2 := by
        rw [hslot, pollTable_readyAll]
        rfl
      rw [pollWake, if_pos h, ih, htab, Sweep.sweep_pos h, hslot, readyAll_withPollTable,
        List.map_append, readyAll_append]
      rfl
    · rw [pollWake, if_neg h, Sweep.sweep_neg (not_lt.mp h)]
      rfl

theorem readyAll_log (ts : List TaskPtr) (s : Sys Links) :
    (readyAll ts s).log = (ts.map Event.ready).reverse ++ s.log := by
  induction ts generalizing s with
  | nil => rfl
  | cons t ts ih =>
    have hlog : (taskready t s).log = .ready t :: s.log := rfl
    rw [List.map_cons, List.reverse_cons, List.append_assoc, ← List.singleton_append.symm]
    exact (ih (taskready t s)).trans (by rw [hlog])

end Loop

/-- The inner loop with its accesses to the two arrays checked: it fails at an index outside the
first `N` slots, and when its turns run out. -/
def pollWakeSlotIn (N i : ℕ) : (fuel : ℕ) → Sys Links → Option (Sys Links)
  | 0, _ => none
  | fuel + 1, s =>
    if i < s.npollfd then
      if i < N then
        if (s.pollfd i).revents ≠ 0 then
          if s.npollfd - 1 < N then pollWakeSlotIn N i fuel (pollWakeEntry i s) else none
        else some s
      else none
    else some s

/-- The wakeup loop with these checks. -/
def pollWakeIn (N : ℕ) : (fuel : ℕ) → (i : ℕ) → Sys Links → Option (Sys Links)
  | 0, _, _ => none
  | fuel + 1, i, s =>
    if i < s.npollfd then (pollWakeSlotIn N i (s.npollfd + 1) s).bind (pollWakeIn N fuel (i + 1))
    else some s

section Bounds
variable {s : Sys Links} {i N fuel : ℕ}

theorem pollWakeSlotIn_eq (hN : s.npollfd ≤ N) (hf : s.npollfd ≤ fuel) :
    pollWakeSlotIn N i (fuel + 1) s = some (pollWakeSlot i fuel s) := by
  induction fuel generalizing s with
  | zero =>
    unfold pollWakeSlotIn
    rw [if_neg (by omega), pollWakeSlot_neg (by omega)]
  | succ fuel ih =>
    unfold pollWakeSlotIn
    by_cases hi : i < s.npollfd
    · rw [if_pos hi, if_pos (by omega)]
      by_cases hr : (s.pollfd i).revents ≠ 0
      · have hless : (pollWakeEntry i s).npollfd = s.npollfd - 1 := rfl
        rw [if_pos hr, if_pos (by omega), ih (by omega) (by omega), pollWakeSlot_pos ⟨hi, hr⟩]
      · rw [if_neg hr, pollWakeSlot_neg (by simp [hr])]
    · rw [if_neg hi, pollWakeSlot_neg (by simp [hi])]

theorem npollfd_pollWakeSlot_le (i fuel : ℕ) (s : Sys Links) :
    (pollWakeSlot i fuel s).npollfd ≤ s.npollfd := by
  induction fuel generalizing s with
  | zero => exact le_refl _
  | succ fuel ih =>
    by_cases h : i < s.npollfd ∧ (s.pollfd i).revents ≠ 0
    · rw [pollWakeSlot_pos h]
      exact (ih _).trans (Nat.sub_le _ _)
    · rw [pollWakeSlot_neg h]

/-- The loop ends, and accesses no index outside the table. -/
theorem pollWakeIn_eq (hN : s.npollfd ≤ N) (hf : s.npollfd ≤ fuel + i) :
    pollWakeIn N (fuel + 1) i s = some (pollWake fuel i s) := by
  induction fuel generalizing i s with
  | zero =>
    unfold pollWakeIn pollWake
    rw [if_neg (by omega)]
  | succ fuel ih =>
    unfold pollWakeIn pollWake
    by_cases hi : i < s.npollfd
    · have hle := npollfd_pollWakeSlot_le i s.npollfd s
      rw [if_pos hi, if_pos hi, pollWakeSlotIn_eq hN (le_refl _)]
      exact ih (by omega) (by omega)
    · rw [if_neg hi, if_neg hi]

end Bounds

/-- What the wakeup loop does in the state `s`, `woken` being the entries it takes out. -/
structure Compacts (s s' : Sys Links) (woken : List (TaskPtr × Pollfd)) : Prop where
  result : s' = readyAll (woken.map Prod.fst) (s.withPollTable s'.pollTable)
  taken : woken.Perm (s.pollTable.entries.filter fired)
  left : s'.pollTable.entries.Perm (s.pollTable.entries.filter fun x => !fired x)
  count : s'.npollfd = (s.pollTable.entries.filter fun x => !fired x).length
  outside : ∀ j, s.npollfd ≤ j → s'.polltask j = s.polltask j ∧ s'.pollfd j = s.pollfd j
  log : s'.log = (woken.map fun x => Event.ready x.1).reverse ++ s.log
  distinct : s.polls.Nodup → (woken.map Prod.fst).Nodup ∧ ∀ x ∈ woken, x.1 ∉ s'.polls

theorem polls_eq {σ : Type} (s : Sys σ) : s.polls = s.pollTable.entries.map Prod.fst := by
  simp [Sys.polls, Sweep.Table.entries, Sys.pollTable]

theorem pollWake_compacts (s : Sys Links) :
    ∃ woken, Compacts s (pollWake s.npollfd 0 s) woken := by
  have hswept := Sweep.sweep_swept fired s.npollfd 0 s.pollTable
  have hdone : ∀ x ∈ (Sweep.sweep fired s.npollfd 0 s.pollTable).2.entries, ¬fired x :=
    Sweep.sweep_done (le_refl _) fun j hj => absurd hj (Nat.not_lt_zero j)
  obtain ⟨hwoken, hleft⟩ := hswept.perm_filter hdone
  have heq := pollWake_eq s.npollfd 0 s
  have htab : (pollWake s.npollfd 0 s).pollTable =
      (Sweep.sweep fired s.npollfd 0 s.pollTable).2 := by
    rw [heq, pollTable_readyAll]
    rfl
  refine ⟨(Sweep.sweep fired s.npollfd 0 s.pollTable).1, ?_⟩
  constructor
  case result =>
    rw [htab]
    exact heq
  case taken => exact hwoken
  case left =>
    rw [htab]
    exact hleft
  case count =>
    have hlen := Sweep.Table.length_entries (pollWake s.npollfd 0 s).pollTable
    rw [htab, hleft.length_eq, ← htab] at hlen
    exact hlen.symm
  case outside =>
    intro j hj
    have hout := hswept.outside j hj
    rw [← htab] at hout
    exact Prod.mk.inj hout
  case log =>
    rw [heq, readyAll_log, List.map_map]
    rfl
  case distinct =>
    intro hnd
    have hperm := hswept.perm.map Prod.fst
    rw [← polls_eq, List.map_append] at hperm
    have hnd' := List.nodup_append.mp (hperm.nodup_iff.mpr hnd)
    refine ⟨hnd'.1, fun x hx hmem => ?_⟩
    rw [polls_eq, htab] at hmem
    exact hnd'.2.2 x.1 (List.mem_map_of_mem hx) x.1 hmem rfl

/-- The table has an entry for `t` with this descriptor and these events. -/
def Sys.Waits {σ : Type} (s : Sys σ) (t : TaskPtr) (fd : ℤ) (events : ℕ) : Prop :=
  ∃ x ∈ s.pollTable.entries, x.1 = t ∧ x.2.fd = fd ∧ x.2.events = events

/-- The table has the entries of the calls of `fdwait` that have not been answered. -/
def PollLog (a : Sys Queues) : Prop := ∀ t fd events,
  Pending (.fdwait t fd events) (.ready t) a.log ↔ a.Waits t fd events

section
variable {lab : Option Call} {a b : Sys Queues} {pl pl' : Placement} {t : TaskPtr} {i : ℕ}

/-- Two tables with the same descriptors in the same order. -/
theorem waits_of_same {σ τ : Type} {s : Sys σ} {s' : Sys τ} (hn : s'.npollfd = s.npollfd)
    (ht : s'.polltask = s.polltask)
    (hp : ∀ i, (s'.pollfd i).fd = (s.pollfd i).fd ∧ (s'.pollfd i).events = (s.pollfd i).events)
    (t : TaskPtr) (fd : ℤ) (events : ℕ) : s'.Waits t fd events ↔ s.Waits t fd events := by
  simp [Sys.Waits, Sys.pollTable, Sweep.Table.entries, hn, ht, hp]

theorem waits_congr (hn : b.npollfd = a.npollfd) (ht : b.polltask = a.polltask)
    (hp : b.pollfd = a.pollfd) (t : TaskPtr) (fd : ℤ) (events : ℕ) :
    b.Waits t fd events ↔ a.Waits t fd events :=
  waits_of_same hn ht (fun i => by rw [hp]; exact ⟨rfl, rfl⟩) t fd events

theorem Sys.Waits.mem_polls {σ : Type} {s : Sys σ} {fd : ℤ} {events : ℕ} (h : s.Waits t fd events) :
    t ∈ s.polls := by
  obtain ⟨x, hx, rfl, _⟩ := h
  rw [polls_eq]
  exact List.mem_map_of_mem hx

/-- No call of `fdwait` was made. -/
def NoFdwait (e : Event) : Prop := ∀ t fd events, e ≠ .fdwait t fd events

theorem noFdwait_of_not_inFd {e : Event} (he : ¬e.inFd) : NoFdwait e := by
  intro t fd events h
  rw [h] at he
  exact he trivial

/-- A task in the table is not made ready but by the poller, which takes its entry out. -/
theorem PollLog.quiet (hI : Inv a pl) (hI' : Inv b pl') (m : Move lab a b) (h : PollLog a)
    (hno : LogExt NoFdwait a b)
    (hsame : ∀ t fd events, b.Waits t fd events ↔ a.Waits t fd events) : PollLog b := by
  intro t fd events
  obtain ⟨new, hlog, hnew⟩ := hno
  obtain ⟨new', hlog', hready⟩ := m.readied hI
  obtain rfl : new' = new := List.append_cancel_right (hlog'.symm.trans hlog)
  have hstart : Event.fdwait t fd events ∉ new' := fun hmem => hnew _ hmem t fd events rfl
  rw [hsame, ← h]
  constructor
  · intro hb
    rw [hlog] at hb
    exact (hb.of_append new' hstart).1
  · intro ha
    rw [hlog]
    apply ha.append new' hstart
    intro hmem
    have hpoll := hI'.placed.mem_poll.mp
      (((hsame t fd events).mpr ((h t fd events).mp ha)).mem_polls)
    rw [hI'.placed.mem_list.mp (hready t hmem)] at hpoll
    cases hpoll

theorem LifeMove.pollTable (m : LifeMove lab a b) :
    b.pollTable = a.pollTable ∧ LogExt NoFdwait a b := by
  cases m with
  | create fn | startfd => exact ⟨rfl, .emit (fun _ _ _ => by simp) rfl⟩
  | @taskexit _ t v =>
    rw [taskexit_eq]
    exact ⟨rfl, .emit (e := .free t) (fun _ _ _ => by simp) rfl⟩

theorem PollLog.fdwait (h : PollLog a) (t : TaskPtr) (fd : ℤ) (events : ℕ)
    (hlog : b.log = .fdwait t fd events :: a.log)
    (htab : b.pollTable = a.pollTable.push (t, { fd, events, revents := 0 })) : PollLog b := by
  have hwaits : ∀ u fd' events', b.Waits u fd' events' ↔
      a.Waits u fd' events' ∨ t = u ∧ fd = fd' ∧ events = events' := by
    intro u fd' events'
    simp only [Sys.Waits, htab, Sweep.Table.entries_push, List.mem_append, List.mem_singleton,
      or_and_right, exists_or, exists_eq_left]
  intro u fd' events'
  rw [hwaits, hlog]
  by_cases hnew : Event.fdwait u fd' events' = .fdwait t fd events
  · rw [hnew]
    simp only [Event.fdwait.injEq] at hnew
    obtain ⟨rfl, rfl, rfl⟩ := hnew
    exact ⟨fun _ => .inr ⟨rfl, rfl, rfl⟩, fun _ => .begin _ _ _⟩
  · have hstart : Event.fdwait u fd' events' ∉ [Event.fdwait t fd events] := by
      simpa using hnew
    have hne : ¬(t = u ∧ fd = fd' ∧ events = events') := by
      intro ⟨h₁, h₂, h₃⟩
      exact hnew (by rw [h₁, h₂, h₃])
    constructor
    · intro hp
      exact .inl ((h u fd' events').mp (Pending.of_append [_] hp hstart).1)
    · intro hw
      have hp := (h u fd' events').mpr (hw.resolve_right hne)
      exact hp.append [_] hstart (by simp)

theorem PollLog.pollwake {i : ℕ} (hnd : a.polls.Nodup) (h : PollLog a) (hi : i < a.npollfd)
    (hlog : b.log = .ready (a.polltask i) :: a.log)
    (htab : b.pollTable = a.pollTable.remove i) : PollLog b := by
  have hperm : ((a.pollTable.arr i) :: b.pollTable.entries).Perm a.pollTable.entries := by
    rw [htab]
    exact (Sweep.Swept.remove (p := fun _ => true) hi rfl).perm
  have hgone : a.polltask i ∉ b.polls := by
    have hmap := hperm.map Prod.fst
    rw [← polls_eq] at hmap
    have hcons := hmap.nodup_iff.mpr hnd
    rw [polls_eq]
    exact (List.nodup_cons.mp hcons).1
  intro u fd events
  have hstart : Event.fdwait u fd events ∉ [Event.ready (a.polltask i)] := by simp
  rw [hlog]
  by_cases hu : u = a.polltask i
  · subst hu
    constructor
    · intro hp
      have hstop := (Pending.of_append [_] hp hstart).2
      simp at hstop
    · intro hw
      exact absurd hw.mem_polls hgone
  · have hwaits : b.Waits u fd events ↔ a.Waits u fd events := by
      unfold Sys.Waits
      constructor
      · intro ⟨x, hx, hxu⟩
        exact ⟨x, hperm.subset (List.mem_cons_of_mem _ hx), hxu⟩
      · intro ⟨x, hx, hxu⟩
        refine ⟨x, ?_, hxu⟩
        have hmem := hperm.symm.subset hx
        rcases List.mem_cons.mp hmem with heq | hmem
        · rw [heq] at hxu
          exact absurd hxu.1.symm hu
        · exact hmem
    rw [hwaits, ← h]
    constructor
    · intro hp
      exact (Pending.of_append [_] hp hstart).1
    · intro hp
      exact hp.append [_] hstart (by simpa using hu)

theorem PollLog.move (hI : Inv a pl) (h : PollLog a) (m : Move lab a b) : PollLog b := by
  obtain ⟨pl', hI'⟩ := m.inv hI
  rcases m.aside_or hI with hs | m' | m'
  · apply h.quiet hI hI' m (hs.log.mono fun _ => noFdwait_of_not_inFd)
    exact waits_congr hs.npollfd hs.polltask hs.pollfd
  · obtain ⟨htab, hlog⟩ := m'.pollTable
    apply h.quiet hI hI' m hlog
    simp [Sys.Waits, htab]
  · cases m' with
    | fdwait fd events => exact h.fdwait _ fd events rfl (pollTable_push a _ _)
    | @pollwake _ _ _ i _ hi => exact h.pollwake hI.placed.nodup_polls hi rfl (pollTable_remove a i)
    | @fdcall _ t =>
      have hs := (Aside.tasksystem a t).trans (.ready _ t)
      apply h.quiet hI hI' m (hs.log.mono fun _ => noFdwait_of_not_inFd)
      exact waits_congr hs.npollfd hs.polltask hs.pollfd
    | fdyield | taskdelay | poll | timerwake =>
      exact h.quiet hI hI' m (.emit (fun _ _ _ => by simp) rfl) (waits_congr rfl rfl rfl)
    | revents =>
      apply h.quiet hI hI' m (.same rfl)
      refine waits_of_same (s := a) rfl rfl fun i => ?_
      dsimp only
      split <;> exact ⟨rfl, rfl⟩

theorem ReachedBy.pollLog {ok : Sys Queues → Call → Prop} (h : ReachedBy ok a) : PollLog a := by
  induction h using Reach.induct with
  | init h =>
    obtain ⟨P, rfl⟩ := h
    intro t fd events
    constructor
    · intro hp
      have hmem := hp.mem
      simp [P.start_log] at hmem
    · intro hw
      have hmem := hw.mem_polls
      exact absurd hmem (by simp [Sys.polls, Program.start, Sys.create,
        Sys.ready, Sys.enq, Sys.emit,
        Sys.setTask, Program.empty, Program.globals, Sys.withLinks])
  | step h hs ih =>
    obtain ⟨pl, hI⟩ := ReachedBy.inv h
    obtain ⟨_, m, _⟩ := hs
    exact ih.move hI m

end

/-- `t` is inside `fdwait` and has not been made ready. -/
def FdBlocked {σ : Type} (s : Sys σ) (t : TaskPtr) : Prop :=
  t ∈ s.live ∧ s.taskrunning ≠ some t ∧ (s.task t).context = .fdwait ∧ (s.task t).ready = false

/-- The table has one entry for each task blocked in `fdwait`, with what its call asked for. -/
structure PollTable (s : Sys Links) : Prop where
  blocked : ∀ t, FdBlocked s t ↔ ∃ i < s.npollfd, s.polltask i = t
  once : ∀ i < s.npollfd, ∀ j < s.npollfd, s.polltask i = s.polltask j → i = j
  entry : ∀ i < s.npollfd, ∀ fd events,
    Pending (.fdwait (s.polltask i) fd events) (.ready (s.polltask i)) s.log ↔
      (s.pollfd i).fd = fd ∧ (s.pollfd i).events = events

theorem Inv.fdBlocked_iff {a : Sys Queues} {pl : Placement} {t : TaskPtr} (h : Inv a pl) :
    FdBlocked a t ↔ t ∈ a.polls := by
  rw [h.placed.mem_poll]
  have hout := h.switched_out t .poll
  have hctx : (a.task t).context.home = some .poll ↔ (a.task t).context = .fdwait := by
    constructor
    · intro hx
      cases hc : (a.task t).context <;> rw [hc] at hx <;> cases hx
    · intro hx
      rw [hx]
      rfl
  rw [hctx] at hout
  unfold FdBlocked
  constructor
  · intro ⟨hl, hr, hx, hq⟩
    exact (hout.mp ⟨⟨hl, hr, hq⟩, hx⟩).1
  · intro hpl
    obtain ⟨⟨hl, hr, hq⟩, hx⟩ := hout.mpr ⟨hpl, by simp [Loc.cpu], by simp⟩
    exact ⟨hl, hr, hx, hq⟩

theorem Reachable.pollTable {s : Sys Links} (h : Reachable s) : PollTable s := by
  obtain ⟨a, pl, ha, hI, hsim⟩ := h.sim
  have hlog := ha.pollLog
  have hnd : s.polls.Nodup ∧ (∀ t, FdBlocked s t ↔ t ∈ s.polls) ∧ ∀ t fd events,
      Pending (.fdwait t fd events) (.ready t) s.log ↔ s.Waits t fd events := by
    obtain ⟨q, _, rfl⟩ := hsim
    exact ⟨hI.placed.nodup_polls, fun t => hI.fdBlocked_iff, hlog⟩
  obtain ⟨hnd, hblocked, hlog⟩ := hnd
  have honce : ∀ i < s.npollfd, ∀ j < s.npollfd, s.polltask i = s.polltask j → i = j := by
    intro i hi j hj hij
    exact List.inj_on_of_nodup_map hnd (List.mem_range.mpr hi) (List.mem_range.mpr hj) hij
  constructor
  case blocked =>
    intro t
    rw [hblocked]
    simp [Sys.polls]
  case once => exact honce
  case entry =>
    intro i hi fd events
    rw [hlog]
    unfold Sys.Waits
    constructor
    · intro hw
      obtain ⟨x, hx, hxi, hfd⟩ := hw
      obtain ⟨j, hj, rfl⟩ := List.mem_map.mp hx
      obtain rfl := honce j (List.mem_range.mp hj) i hi hxi
      exact hfd
    · intro hfd
      exact ⟨_, List.mem_map.mpr ⟨i, List.mem_range.mpr hi, rfl⟩, rfl, hfd⟩

/-- The wakeup loop ends and takes out of any table the entries that are ready and no others; in
every run the table has the tasks blocked in `fdwait`. -/
theorem poll_wakeup :
    (∀ s : Sys Links, pollWakeIn s.npollfd (s.npollfd + 1) 0 s = some (pollWake s.npollfd 0 s) ∧
      ∃ taken, Compacts s (pollWake s.npollfd 0 s) taken) ∧
    ∀ s, Reachable s → PollTable s :=
  ⟨fun s => ⟨pollWakeIn_eq (le_refl _) (Nat.le_add_right _ _), pollWake_compacts s⟩,
    fun _ => Reachable.pollTable⟩

/-- The first task waits for a descriptor, and the poller finds nothing to do. -/
def fdwaitRun : List (Env × Action) :=
  [(.still 0, .schedule), (.still 0, .resume), (.still 8192, .call (.fdwait 3 'r')),
    (.still 0, .schedule)]

/-- A poll table of three entries, of which the last two are ready. -/
def readyTail : Sys Links :=
  { Program.small.boot with
    npollfd := 3
    polltask := fun i => [4096, 8192, 12288].getD i 0
    pollfd := fun i => { fd := i, events := POLLIN, revents := if i = 0 then 0 else POLLIN } }

theorem poll_wakeup_small :
    ((pollWake 3 0 readyTail).npollfd = 1 ∧
      pollWakeIn 3 4 0 readyTail = some (pollWake 3 0 readyTail) ∧
      ∃ taken, Compacts readyTail (pollWake 3 0 readyTail) taken) ∧
    ∃ s, Program.small.after (fun _ _ => True) fdwaitRun = some s ∧
      s.npollfd = 1 ∧ s.polltask 0 = 4096 ∧ (s.pollfd 0).fd = 3 ∧ PollTable s := by
  refine ⟨⟨by decide, poll_wakeup.1 readyTail⟩, ?_⟩
  have hrun : (Program.small.after (fun _ _ => True) fdwaitRun).map (fun s =>
      (s.npollfd, s.polltask 0, (s.pollfd 0).fd)) = some (1, 4096, 3) := by decide
  obtain ⟨s, hs, hstate⟩ := Option.map_eq_some_iff.mp hrun
  simp only [Prod.mk.injEq] at hstate
  obtain ⟨hn, ht, hfd⟩ := hstate
  exact ⟨s, hs, hn, ht, hfd, poll_wakeup.2 s (Program.reachableBy_after hs)⟩

end Libtask
