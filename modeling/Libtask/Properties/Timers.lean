import Libtask.Abstract.Resumed
import Libtask.Abstract.Schedule
import Libtask.Base.Deadlines
import Libtask.Properties.PollTable

/-! Timers: the sleepers are in the order of their alarm times, a pass of `fdtask` wakes those
that are due and no others, and nobody comes back from `taskdelay` early. -/
namespace Libtask
open Function Runs Deadlines

def Sys.alarm {σ : Type} (s : Sys σ) (t : TaskPtr) : ℕ := (s.task t).alarmtime.toNat

/-- What happened since `t` called `taskdelay` last: no other call by `t`, and if its timer has
fired, a reading of the clock that is not before its deadline. -/
def Slept (a : Sys Queues) (t : TaskPtr) (mid : List Event) : Prop :=
  (∀ now ms, .delay t now ms ∉ mid) ∧ (t ∈ a.links .sleeping → .ready t ∉ mid) ∧
    (t ∉ a.links .sleeping → ∃ now, .pollout now ∈ mid ∧ (a.task t).alarmtime ≤ now)

structure TimerState (a : Sys Queues) : Prop where
  sorted : Ordered a.alarm (a.links .sleeping)
  pending : ∀ t now ms, Pending (.delay t now ms) (.ready t) a.log →
    t ∈ a.links .sleeping ∧ (a.task t).context = .taskdelay now ∧
      (a.task t).alarmtime = now + ms.toUInt64 * 1000000
  delayed : ∀ t now, (a.task t).context = .taskdelay now → ∃ ms,
    (a.task t).alarmtime = now + ms.toUInt64 * 1000000 ∧
      SinceLast (.delay t now ms) (fun mid _ => Slept a t mid) a.log

/-- No timer was set and none has fired. -/
structure Untimed (a b : Sys Queues) : Prop where
  sleeping : b.links .sleeping = a.links .sleeping
  context : ∀ t now, (b.task t).context = .taskdelay now →
    (a.task t).context = .taskdelay now ∧ (b.task t).alarmtime = (a.task t).alarmtime
  log : LogExt (fun e => ∀ t now ms, e ≠ .delay t now ms) a b

section
variable {lab : Option Call} {a b : Sys Queues} {pl pl' : Placement} {t u : TaskPtr}
  {us : List TaskPtr}

/-- A task on the list of sleepers is inside `taskdelay`. -/
theorem Inv.asleep (hI : Inv a pl) (ht : t ∈ a.links .sleeping) :
    ∃ now, (a.task t).context = .taskdelay now := by
  have hfit := (hI.fits t _ (hI.placed.mem_list.mp ht)).1
  cases hx : (a.task t).context with
  | taskdelay now => exact ⟨now, rfl⟩
  | _ => simp [hx, Context.home] at hfit

/-- A sleeper is not made ready but by the poller, which takes it off the list. -/
theorem Inv.sleeper_not_readied (hI : Inv a pl) (hI' : Inv b pl') (m : Move lab a b)
    {new : List Event} (hlog : b.log = new ++ a.log) (ht : t ∈ b.links .sleeping) :
    .ready t ∉ new := by
  obtain ⟨new', hlog', hready⟩ := m.readied hI
  obtain rfl : new' = new := List.append_cancel_right (hlog'.symm.trans hlog)
  intro hmem
  have hpl := hI'.placed.mem_list.mp ht
  rw [hI'.placed.mem_list.mp (hready t hmem)] at hpl
  cases hpl

theorem TimerState.untimed (hI : Inv a pl) (hI' : Inv b pl') (m : Move lab a b) (h : TimerState a)
    (hu : Untimed a b) : TimerState b := by
  obtain ⟨new, hlog, hnew⟩ := hu.log
  have hstart : ∀ t now ms, Event.delay t now ms ∉ new := by
    intro t now ms hmem
    exact hnew _ hmem t now ms rfl
  have hsame : ∀ t ∈ b.links .sleeping, ∃ now, (b.task t).context = .taskdelay now ∧
      (a.task t).context = .taskdelay now ∧ (b.task t).alarmtime = (a.task t).alarmtime := by
    intro t ht
    obtain ⟨now, hx⟩ := hI'.asleep ht
    exact ⟨now, hx, hu.context t now hx⟩
  constructor
  case sorted =>
    rw [hu.sleeping]
    apply h.sorted.congr
    intro t ht
    obtain ⟨_, _, _, ha⟩ := hsame t (hu.sleeping ▸ ht)
    exact congrArg UInt64.toNat ha
  case pending =>
    intro t now ms hp
    rw [hlog] at hp
    obtain ⟨ht, hx, ha⟩ := h.pending t now ms (hp.of_append new (hstart t now ms)).1
    rw [← hu.sleeping] at ht
    obtain ⟨now', hx', hx'', ha'⟩ := hsame t ht
    obtain rfl : now' = now := by
      rw [hx] at hx''
      exact (Context.taskdelay.inj hx'').symm
    exact ⟨ht, hx', ha'.trans ha⟩
  case delayed =>
    intro t now hx
    obtain ⟨hx', ha⟩ := hu.context t now hx
    obtain ⟨ms, hms, hsince⟩ := h.delayed t now hx'
    refine ⟨ms, ha.trans hms, ?_⟩
    rw [hlog]
    apply hsince.append new (hstart t now ms)
    intro mid _ ⟨hlast, hasleep, hfired⟩
    unfold Slept
    rw [hu.sleeping, ha]
    refine ⟨?_, ?_, ?_⟩
    · intro now' ms' hmem
      exact (List.mem_append.mp hmem).elim (hstart t now' ms') (hlast now' ms')
    · intro ht hmem
      have hnot := hI.sleeper_not_readied hI' m hlog (hu.sleeping ▸ ht)
      exact (List.mem_append.mp hmem).elim hnot (hasleep ht)
    · intro ht
      obtain ⟨p, hp, hle⟩ := hfired ht
      exact ⟨p, List.mem_append_right _ hp, hle⟩

theorem Sys.insertSleeper_eq (a : Sys Queues) (d : UInt64) (t : TaskPtr) :
    a.insertSleeper d t = insertAt a.alarm d.toNat t (a.links .sleeping) := rfl

theorem TimerState.delay {pl : Placement} (hI : Inv a pl) (h : TimerState a) (ht : a.User t)
    (now : UInt64) (ms : UInt32) :
    TimerState (((a.delay (now + ms.toUInt64 * 1000000) t).emit (.delay t now ms)).switch
      (.taskdelay now) t) := by
  have hout : t ∉ a.links .sleeping := hI.not_mem (hI.user ht) (by simp) _
  obtain ⟨b, hb⟩ : ∃ b, b =
    ((a.delay (now + ms.toUInt64 * 1000000) t).emit (.delay t now ms)).switch
      (.taskdelay now) t := ⟨_, rfl⟩
  have hlist : b.links .sleeping = a.insertSleeper (now + ms.toUInt64 * 1000000) t := by
    rw [hb]
    simp [Sys.switch, Sys.setTask, Sys.emit, Sys.delay, Sys.countSleeper]
  have hmem : ∀ u, u ∈ b.links .sleeping ↔ u = t ∨ u ∈ a.links .sleeping := by
    intro u
    rw [hlist, Sys.insertSleeper_eq, mem_insertAt]
  have hself : (b.task t).context = .taskdelay now ∧
      (b.task t).alarmtime = now + ms.toUInt64 * 1000000 := by
    rw [hb]
    simp [Sys.switch, Sys.setTask, Sys.emit, Sys.delay, Sys.countSleeper]
  have hother : ∀ u, u ≠ t → b.task u = a.task u := by
    intro u hu
    rw [hb]
    simp [Sys.switch, Sys.setTask, Sys.emit, Sys.delay, Sys.countSleeper, hu]
  have hlog : b.log = .delay t now ms :: a.log := by
    rw [hb]
    rfl
  rw [← hb]
  have hne : ∀ u ∈ a.links .sleeping, u ≠ t := by
    intro u hu hut
    exact hout (hut ▸ hu)
  constructor
  case sorted =>
    have hkeys : ∀ u ∈ a.links .sleeping, b.alarm u = a.alarm u := by
      intro u hu
      rw [Sys.alarm, hother u (hne u hu)]
      rfl
    have hkey : (now + ms.toUInt64 * 1000000).toNat = b.alarm t :=
      congrArg UInt64.toNat hself.2.symm
    rw [hlist, Sys.insertSleeper_eq, ← insertAt_congr hkeys, hkey]
    exact (h.sorted.congr hkeys).insertAt t
  case pending =>
    intro u now' ms' hp
    rw [hlog] at hp
    by_cases hnew : Event.delay u now' ms' = .delay t now ms
    · simp only [Event.delay.injEq] at hnew
      obtain ⟨rfl, rfl, rfl⟩ := hnew
      exact ⟨(hmem u).mpr (.inl rfl), hself.1, hself.2⟩
    · have hold := (Pending.of_append [_] hp (by simpa using hnew)).1
      obtain ⟨hu, hx, ha⟩ := h.pending u now' ms' hold
      rw [hother u (hne u hu)]
      exact ⟨(hmem u).mpr (.inr hu), hx, ha⟩
  case delayed =>
    intro u now' hx
    rw [hlog]
    by_cases hu : u = t
    · subst hu
      obtain rfl : now' = now := Context.taskdelay.inj (hx.symm.trans hself.1)
      refine ⟨ms, hself.2, .start ⟨by simp, by simp, ?_⟩⟩
      intro hnot
      exact absurd ((hmem u).mpr (.inl rfl)) hnot
    · rw [hother u hu] at hx
      obtain ⟨ms', ha, hsince⟩ := h.delayed u now' hx
      rw [hother u hu]
      refine ⟨ms', ha, hsince.cons (by simp [hu]) ?_⟩
      intro mid _ hslept
      obtain ⟨hlast, hasleep, hfired⟩ := hslept
      unfold Slept
      rw [hmem, hother u hu]
      simpa [hu] using ⟨hlast, hasleep, hfired⟩

/-- The poller wakes the first sleeper, whose deadline its last reading of the clock has reached. -/
theorem TimerState.wake (hI : Inv a pl) (h : TimerState a) {now : UInt64} (hp : JustRead now a.log)
    (hq : a.links .sleeping = u :: us) (hd : now ≥ (a.task u).alarmtime) :
    TimerState ((a.uncountSleeper u).wake .sleeping u) := by
  have hnd := hI.placed.nodup_list .sleeping
  rw [hq, List.nodup_cons] at hnd
  obtain ⟨b, hb⟩ : ∃ b, b = (a.uncountSleeper u).wake .sleeping u := ⟨_, rfl⟩
  have hlist : b.links .sleeping = us := by
    rw [hb]
    simp [Sys.wake, Sys.ready, Sys.enq, Sys.emit, Sys.setTask, Sys.deq, Sys.uncountSleeper, hq]
  have htask : ∀ t, (b.task t).context = (a.task t).context ∧
      (b.task t).alarmtime = (a.task t).alarmtime := by
    intro t
    rw [hb]
    by_cases ht : t = u <;>
      simp [Sys.wake, Sys.ready, Sys.enq, Sys.emit, Sys.setTask, Sys.deq, Sys.uncountSleeper, ht]
  have hlog : b.log = .ready u :: a.log := by
    rw [hb]
    rfl
  have hsorted := h.sorted
  rw [hq] at hsorted
  rw [← hb]
  constructor
  case sorted =>
    rw [hlist]
    exact hsorted.tail.congr fun t _ => congrArg UInt64.toNat (htask t).2
  case pending =>
    intro t now' ms hpend
    rw [hlog] at hpend
    obtain ⟨hold, hnot⟩ := Pending.of_append [_] hpend (by simp)
    obtain ⟨ht, hx, ha⟩ := h.pending t now' ms hold
    have htu : t ≠ u := by
      intro htu
      simp [htu] at hnot
    rw [hq] at ht
    rw [hlist, (htask t).1, (htask t).2]
    exact ⟨(List.mem_cons.mp ht).resolve_left htu, hx, ha⟩
  case delayed =>
    intro t now' hx
    rw [(htask t).1] at hx
    obtain ⟨ms, ha, mid, old, hold, hstart, hlast, hasleep, hfired⟩ := h.delayed t now' hx
    rw [hlog, (htask t).2]
    refine ⟨ms, ha, .ready u :: mid, old, by rw [hold, List.cons_append], by simpa using hstart, ?_⟩
    unfold Slept
    rw [hlist, (htask t).2]
    rw [hq] at hasleep hfired
    refine ⟨by simpa using hlast, ?_, ?_⟩
    · intro ht
      have htu : t ≠ u := by
        intro htu
        exact hnd.1 (htu ▸ ht)
      simpa [htu] using hasleep (List.mem_cons_of_mem _ ht)
    · intro ht
      by_cases htu : t = u
      · subst htu
        obtain ⟨new, old', hread, hnew⟩ := hp
        have hyounger : Event.delay t now' ms ∉ new := by
          intro hmem
          obtain ⟨v, hv⟩ := hnew _ hmem
          cases hv
        have hout := mem_since (hread.symm.trans hold) hyounger (by simp)
        exact ⟨now, List.mem_cons_of_mem _ hout, hd⟩
      · obtain ⟨p, hp, hle⟩ := hfired (by simp [htu, ht])
        exact ⟨p, List.mem_cons_of_mem _ hp, hle⟩

namespace Untimed
variable {c : Sys Queues} {x : Context}

theorem trans (h : Untimed a b) (h' : Untimed b c) : Untimed a c where
  sleeping := h'.sleeping.trans h.sleeping
  context t now hx := by
    obtain ⟨hx', ha⟩ := h'.context t now hx
    obtain ⟨hx'', ha'⟩ := h.context t now hx'
    exact ⟨hx'', ha.trans ha'⟩
  log := h.log.trans h'.log

theorem of_aside (h : Aside a b) : Untimed a b where
  sleeping := h.sleeping
  context t now hx := by
    rcases h.context t with heq | hne
    · exact ⟨heq ▸ hx, h.alarmtime t⟩
    · rw [hx] at hne
      exact absurd trivial hne
  log := h.log.mono fun e he t now ms heq => he (heq ▸ trivial)

theorem emit (a : Sys Queues) {e : Event} (he : ∀ t now ms, e ≠ .delay t now ms) :
    Untimed a (a.emit e) where
  sleeping := rfl
  context _ _ hx := ⟨hx, rfl⟩
  log := .emit he rfl

theorem same (hs : b.links .sleeping = a.links .sleeping) (ht : b.task = a.task)
    (hlog : b.log = a.log) : Untimed a b where
  sleeping := hs
  context t now hx := by
    rw [ht] at hx ⊢
    exact ⟨hx, rfl⟩
  log := .same hlog

theorem switch (h : Untimed a b) (hx : ∀ now, x ≠ .taskdelay now) (t : TaskPtr) :
    Untimed a (b.switch x t) := by
  refine h.trans ⟨rfl, fun u now hu => ?_, .same rfl⟩
  by_cases hut : u = t
  · subst hut
    exact absurd (by simpa [Sys.switch, Sys.setTask] using hu) (hx now)
  · simpa [Sys.switch, Sys.setTask, hut] using hu

theorem create (a : Sys Queues) (fn : Startfn) (p : TaskPtr) : Untimed a (a.create fn p) where
  sleeping := rfl
  context u now hu := by
    by_cases hup : u = p
    · subst hup
      simp [Sys.create, Sys.ready, Sys.enq, Sys.emit, Sys.setTask] at hu
    · simpa [Sys.create, Sys.ready, Sys.enq, Sys.emit, Sys.setTask, hup] using hu
  log := .emit (fun _ _ _ => by simp) rfl

theorem taskexit (a : Sys Queues) (v : ℤ) (t : TaskPtr) : Untimed a (taskexit v t a) where
  sleeping := by
    rw [taskexit_eq]
    rfl
  context u now hu := by
    have hsame : ((Libtask.taskexit v t a).task u).alarmtime = (a.task u).alarmtime := by
      simp only [taskexit_eq, Sys.emit]
      rw [update_proj Task.alarmtime, update_proj Task.alarmtime] <;> rfl
    refine ⟨?_, hsame⟩
    have hctx : ((Libtask.taskexit v t a).task u).context =
        (update a.task t { a.task t with exiting := true, context := .taskexit } u).context := by
      simp only [taskexit_eq, Sys.emit]
      rw [update_proj Task.context]
      rfl
    rw [hctx] at hu
    by_cases hut : u = t
    · subst hut
      simp at hu
    · simpa [hut] using hu
  log := by
    rw [taskexit_eq]
    exact .emit (e := .free t) (fun _ _ _ => by simp) rfl

end Untimed

theorem TimerState.move (hI : Inv a pl) (h : TimerState a) (m : Move lab a b) : TimerState b := by
  obtain ⟨pl', hI'⟩ := m.inv hI
  have hkeep : Untimed a b → TimerState b := h.untimed hI hI' m
  rcases m.aside_or hI with hs | m' | m'
  · exact hkeep (.of_aside hs)
  · apply hkeep
    cases m' with
    | create fn => exact .create a fn _
    | startfd =>
      have hset : Untimed a { a with startedfdtask := true } := .same rfl rfl rfl
      exact hset.trans (.create _ _ _)
    | taskexit v => exact .taskexit a v _
  · cases m' with
    | taskdelay now ms ht => exact h.delay hI ht now ms
    | timerwake now _ hp hq hd => exact h.wake hI hp hq hd
    | @fdcall _ t =>
      apply hkeep
      have hs := (Aside.tasksystem a t).trans (.ready _ t)
      exact (Untimed.of_aside hs).switch (by simp) t
    | fdyield => exact hkeep ((Untimed.of_aside (.ready a _)).switch (by simp) _)
    | @fdwait _ t fd events =>
      apply hkeep
      apply Untimed.switch
      · have hset : Untimed a { a with
            polltask := update a.polltask a.npollfd t
            pollfd := update a.pollfd a.npollfd { fd, events, revents := 0 }
            npollfd := a.npollfd + 1 } := .same rfl rfl rfl
        exact hset.trans (.emit _ (by simp))
      · simp
    | poll => exact hkeep (.emit a (by simp))
    | revents => exact hkeep (.same rfl rfl rfl)
    | @pollwake _ _ _ i =>
      have hready : Untimed a (a.ready (a.polltask i)) := .of_aside (.ready a _)
      exact hkeep (hready.trans (.same rfl rfl rfl))

theorem ReachedBy.timerState {ok : Sys Queues → Call → Prop} (h : ReachedBy ok a) :
    TimerState a := by
  induction h using Reach.induct with
  | init h =>
    obtain ⟨P, rfl⟩ := h
    constructor
    case sorted => exact ordered_nil _
    case pending =>
      intro t now ms hp
      have hmem := hp.mem
      simp [P.start_log] at hmem
    case delayed =>
      intro t now hx
      have hctx := ((Untimed.create P.empty .user P.taskmain).context t now hx).1
      simp [Program.empty, Program.globals, Sys.withLinks] at hctx
  | step h hs ih =>
    obtain ⟨pl, hI⟩ := ReachedBy.inv h
    obtain ⟨_, m, _⟩ := hs
    exact ih.move hI m

end

/-- The reading of the clock that an event reports; `fdtask` reads it before `poll` only if there
is a sleeper. -/
def reading : Event → Option UInt64
  | .delay _ now _ | .delayed _ now _ | .pollout now => some now
  | .poll now ms => if ms = -1 then none else some now
  | _ => none

section
variable {a : Sys Queues} {pl : Placement} {s s' : Sys Links} {t : TaskPtr} {e : Env}

end

end Libtask
