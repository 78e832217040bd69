import Libtask.Abstract.Placement

/-! The calls that tasks are switched out of: where a task waits in each, what the log says of
the call while it waits and once it has been let go on, and what leaves this unchanged. -/
namespace Libtask
open Function Runs

variable {σ : Type}

/-- The task whose call an event belongs to. -/
def Event.subject : Event → Option TaskPtr
  | .q _ e => some e.task
  | .rw _ e => e.task
  | .rendez _ e => some e.task
  | .ready t | .altcall t _ => some t
  | _ => none

/-- The branches of `base` that transfers were made for since `t` passed it to `chanalt`. -/
def transfers (t : TaskPtr) (base : ℕ) (log : List Event) : List ℕ :=
  (since (.altcall t base) log).filterMap (transferOf base)

/-- How often `t` was made ready since it passed `base` to `chanalt`. -/
def readied (t : TaskPtr) (base : ℕ) (log : List Event) : ℕ :=
  (since (.altcall t base) log).count (.ready t)

/-- `t` is blocked in the alt of `base`: the array is as `chanalt` left it. -/
structure AltWaiting (a : Sys σ) (t : TaskPtr) (base : ℕ) : Prop where
  terminated : ∃ x ∈ a.alts base, isAltend x.op
  stamped : ∀ i < altlen (a.alts base), ∀ x, (a.alts base)[i]? = some x →
    x.task = t ∧ x.xalt = ⟨base, 0⟩
  transfers : transfers t base a.log = []
  readied : readied t base a.log = 0

/-- The alt of `base` has been executed for `t`, which is still in its call. -/
def AltCommitted (a : Sys σ) (t : TaskPtr) (base : ℕ) : Prop :=
  ∃ j x, a.alt? ⟨base, 0⟩ = some x ∧ x.xalt = ⟨base, j⟩ ∧
    transfers t base a.log = [j] ∧ readied t base a.log = 1

namespace Context

/-- Where a task in this context waits until another task lets it go on. -/
def home : Context → Option Loc
  | .qlock l | .sleepqlock _ l => some (.list (.qwaiting l))
  | .rlock l => some (.list (.rwaiting l))
  | .wlock l => some (.list (.wwaiting l))
  | .tasksleep r => some (.list (.rendez r))
  | .chanalt base => some (.alt base)
  | .taskdelay _ => some (.list .sleeping)
  | .fdwait => some .poll
  | .taskstart | .taskyield _ | .fdtask _ | .taskexit => none

/-- What holds of `t` while it waits in this context. -/
def waiting (a : Sys σ) (t : TaskPtr) : Context → Prop
  | .qlock l => HandoffLock.Blocked t (a.log.filterMap (qEvent l))
  | .sleepqlock r l => HandoffLock.Blocked t (a.log.filterMap (qEvent l)) ∧
    (a.rendez r).l = some l ∧
      CondVar.wakeups t (a.log.filterMap (rendezEvent r)) = 1
  | .tasksleep r => CondVar.wakeups t (a.log.filterMap (rendezEvent r)) = 0
  | .chanalt base => AltWaiting a t base
  | _ => True

/-- What holds of `t` in this context from when it may go on until it does. -/
def granted (a : Sys σ) (t : TaskPtr) : Context → Prop
  | .qlock l => HandoffLock.Handed t (a.log.filterMap (qEvent l))
  | .sleepqlock r l => HandoffLock.Handed t (a.log.filterMap (qEvent l)) ∧ (a.rendez r).l = some l ∧
      CondVar.wakeups t (a.log.filterMap (rendezEvent r)) = 1
  | .rlock l => .rhandoff t ∈ since (.rblock t) (a.log.filterMap (rwEvent l))
  | .wlock l => .whandoff t ∈ since (.wblock t) (a.log.filterMap (rwEvent l))
  | .tasksleep r => CondVar.wakeups t (a.log.filterMap (rendezEvent r)) = 1
  | .chanalt base => AltCommitted a t base
  | .taskexit => False
  | _ => True

end Context

/-- From `a` to `b` nothing happens that matters to the calls of tasks other than `o`, nor to
the alts of arrays outside `B`. -/
structure Frame (o : Option TaskPtr) (B : Set ℕ) (a b : Sys σ) : Prop where
  context : ∀ u, some u ≠ o → (b.task u).context = (a.task u).context
  exiting : ∀ u, some u ≠ o → (b.task u).exiting = (a.task u).exiting
  rendez : b.rendez = a.rendez
  alts : ∀ base ∉ B, b.alts base = a.alts base
  log : ∃ new, b.log = new ++ a.log ∧ ∀ e ∈ new, (e.subject = none ∨ e.subject = o) ∧
    ∀ base ∉ B, transferOf base e = none

section Log
variable {t : TaskPtr} {new log : List Event}

/-- None of the events is about a call of `t`. -/
def Spares (t : TaskPtr) (new : List Event) : Prop := ∀ e ∈ new, e.subject ≠ some t

theorem Spares.qEvent (h : Spares t new) {l : ℕ} {e : QEvent TaskPtr}
    (he : e ∈ new.filterMap (qEvent l)) : e.task ≠ t := by
  obtain ⟨d, hd, hde⟩ := List.mem_filterMap.mp he
  have hs := h d hd
  cases d <;> simp [Libtask.qEvent] at hde
  obtain ⟨rfl, rfl⟩ := hde
  simpa [Event.subject] using hs

theorem Spares.rwEvent (h : Spares t new) {l : ℕ} {e : RWEvent TaskPtr}
    (he : e ∈ new.filterMap (rwEvent l)) : e.task ≠ some t := by
  obtain ⟨d, hd, hde⟩ := List.mem_filterMap.mp he
  have hs := h d hd
  cases d <;> simp [Libtask.rwEvent] at hde
  obtain ⟨rfl, rfl⟩ := hde
  simpa [Event.subject] using hs

theorem Spares.rendezEvent (h : Spares t new) {r : ℕ} {e : RendezEvent TaskPtr}
    (he : e ∈ new.filterMap (rendezEvent r)) : e.task ≠ t := by
  obtain ⟨d, hd, hde⟩ := List.mem_filterMap.mp he
  have hs := h d hd
  cases d <;> simp [Libtask.rendezEvent] at hde
  obtain ⟨rfl, rfl⟩ := hde
  simpa [Event.subject] using hs

theorem Spares.qHanded (h : Spares t new) {l : ℕ} :
    HandoffLock.Handed t ((new ++ log).filterMap (Libtask.qEvent l)) ↔
      HandoffLock.Handed t (log.filterMap (Libtask.qEvent l)) := by
  have hne : ∀ e : QEvent TaskPtr, e.task = t → e ∉ new.filterMap (Libtask.qEvent l) :=
    fun e he hm => h.qEvent hm he
  rw [List.filterMap_append, HandoffLock.Handed, HandoffLock.Handed,
    since_append (hne (.block t) rfl)]
  simp [hne (.handoff t) rfl, hne (.back t) rfl, -List.mem_filterMap]

theorem Spares.qBlocked (h : Spares t new) {l : ℕ} :
    HandoffLock.Blocked t ((new ++ log).filterMap (Libtask.qEvent l)) ↔
      HandoffLock.Blocked t (log.filterMap (Libtask.qEvent l)) := by
  have hne : ∀ e : QEvent TaskPtr, e.task = t → e ∉ new.filterMap (Libtask.qEvent l) :=
    fun e he hm => h.qEvent hm he
  rw [List.filterMap_append, HandoffLock.Blocked, HandoffLock.Blocked,
    since_append (hne (.block t) rfl)]
  simp [hne (.handoff t) rfl, hne (.back t) rfl, -List.mem_filterMap]

theorem Spares.wakeups (h : Spares t new) {r : ℕ} :
    CondVar.wakeups t ((new ++ log).filterMap (Libtask.rendezEvent r)) =
      CondVar.wakeups t (log.filterMap (Libtask.rendezEvent r)) := by
  have hne : ∀ e : RendezEvent TaskPtr, e.task = t → e ∉ new.filterMap (Libtask.rendezEvent r) :=
    fun e he hm => h.rendezEvent hm he
  rw [List.filterMap_append, CondVar.wakeups, CondVar.wakeups, since_append (hne (.sleep t) rfl),
    List.count_append, List.count_eq_zero.mpr (hne (.woken t) rfl), Nat.zero_add]

theorem Spares.mem_since_rwEvent (h : Spares t new) {l : ℕ} {e d : RWEvent TaskPtr}
    (he : e.task = some t) (hd : d.task = some t) :
    d ∈ since e ((new ++ log).filterMap (Libtask.rwEvent l)) ↔
      d ∈ since e (log.filterMap (Libtask.rwEvent l)) := by
  have hne : ∀ e : RWEvent TaskPtr, e.task = some t → e ∉ new.filterMap (Libtask.rwEvent l) :=
    fun e he hm => h.rwEvent hm he
  rw [List.filterMap_append, since_append (hne e he)]
  simp [hne d hd, -List.mem_filterMap]

theorem Spares.since_altcall (h : Spares t new) (base : ℕ) :
    since (.altcall t base) (new ++ log) = new ++ since (.altcall t base) log :=
  since_append (fun hm => h _ hm rfl) log

theorem Spares.transfers (h : Spares t new) (base : ℕ) :
    transfers t base (new ++ log) = new.filterMap (transferOf base) ++ transfers t base log := by
  rw [Libtask.transfers, h.since_altcall, List.filterMap_append, Libtask.transfers]

theorem Spares.readied (h : Spares t new) (base : ℕ) :
    readied t base (new ++ log) = readied t base log := by
  have hn : new.count (.ready t) = 0 := List.count_eq_zero.mpr fun hm => h _ hm rfl
  rw [Libtask.readied, h.since_altcall, List.count_append, hn, Nat.zero_add, Libtask.readied]

end Log

namespace Frame
variable {o : Option TaskPtr} {B : Set ℕ} {a b c : Sys σ} {t : TaskPtr}

theorem trans (h : Frame o B a b) (h' : Frame o B b c) : Frame o B a c where
  context u hu := (h'.context u hu).trans (h.context u hu)
  exiting u hu := (h'.exiting u hu).trans (h.exiting u hu)
  rendez := h'.rendez.trans h.rendez
  alts base hb := (h'.alts base hb).trans (h.alts base hb)
  log := by
    obtain ⟨new, hl, hn⟩ := h.log
    obtain ⟨new', hl', hn'⟩ := h'.log
    refine ⟨new' ++ new, by rw [hl', hl, List.append_assoc], fun e he => ?_⟩
    exact (List.mem_append.mp he).elim (hn' e) (hn e)

/-- What concerns no task concerns none but `t`. -/
theorem weaken (h : Frame none B a b) : Frame (some t) B a b where
  context u _ := h.context u (by simp)
  exiting u _ := h.exiting u (by simp)
  rendez := h.rendez
  alts := h.alts
  log := by
    obtain ⟨new, hl, hn⟩ := h.log
    exact ⟨new, hl, fun e he => ⟨.inl ((hn e he).1.elim id id), (hn e he).2⟩⟩

theorem refl (o : Option TaskPtr) (B : Set ℕ) (a : Sys σ) : Frame o B a a :=
  ⟨fun _ _ => rfl, fun _ _ => rfl, rfl, fun _ _ => rfl, [], rfl, by simp⟩

theorem events (new : List Event) (htask : b.task = a.task) (halts : b.alts = a.alts)
    (hrendez : b.rendez = a.rendez) (hlog : b.log = new ++ a.log)
    (hn : ∀ e ∈ new, (e.subject = none ∨ e.subject = o) ∧ ∀ base ∉ B, transferOf base e = none) :
    Frame o B a b where
  context u _ := by rw [htask]
  exiting u _ := by rw [htask]
  rendez := hrendez
  alts _ _ := by rw [halts]
  log := ⟨new, hlog, hn⟩

theorem same (htask : b.task = a.task) (halts : b.alts = a.alts) (hrendez : b.rendez = a.rendez)
    (hlog : b.log = a.log) : Frame o B a b :=
  .events [] htask halts hrendez hlog (by simp)

theorem emit {e : Event} (h : Frame o B a b) (he : e.subject = none ∨ e.subject = o)
    (ht : ∀ base ∉ B, transferOf base e = none) : Frame o B a (b.emit e) :=
  h.trans ⟨fun _ _ => rfl, fun _ _ => rfl, rfl, fun _ _ => rfl, [e], rfl, by simpa using ⟨he, ht⟩⟩

/-- A task is written, but not its context, nor does it begin to exit. -/
theorem tweak {f : Task → Task} (hc : ∀ x, (f x).context = x.context)
    (he : ∀ x, (f x).exiting = x.exiting) : Frame o B a (a.setTask t f) where
  context u _ := by
    by_cases hu : u = t
    · subst hu
      simp [Sys.setTask, hc]
    · simp [Sys.setTask, hu]
  exiting u _ := by
    by_cases hu : u = t
    · subst hu
      simp [Sys.setTask, he]
    · simp [Sys.setTask, hu]
  rendez := rfl
  alts _ _ := rfl
  log := ⟨[], rfl, by simp⟩

theorem setTask {f : Task → Task} (h : Frame (some t) B a b) :
    Frame (some t) B a (b.setTask t f) where
  context u hu := by
    have hut : u ≠ t := by simpa using hu
    simp [Sys.setTask, hut, h.context u hu]
  exiting u hu := by
    have hut : u ≠ t := by simpa using hu
    simp [Sys.setTask, hut, h.exiting u hu]
  rendez := h.rendez
  alts := h.alts
  log := h.log

theorem switch {x : Context} (h : Frame (some t) B a b) : Frame (some t) B a (b.switch x t) :=
  h.trans ⟨fun u hu => by rw [Sys.switch_of_ne (by simpa using hu)], fun _ _ => Sys.switch_exiting,
    rfl, fun _ _ => rfl, [], rfl, by simp⟩

theorem ready {a b : Sys Queues} (h : Frame (some t) B a b) : Frame (some t) B a (b.ready t) :=
  ((h.setTask (f := fun x => { x with ready := true })).emit (e := .ready t) (.inr rfl)
    fun _ _ => rfl).trans (same rfl rfl rfl rfl)

theorem wake {a b : Sys Queues} {k : TasklistRef} (h : Frame (some t) B a b) :
    Frame (some t) B a (b.wake k t) :=
  (h.trans (same rfl rfl rfl rfl : Frame (some t) B b (b.deq k))).ready

theorem spares (h : Frame o B a b) (ht : some t ≠ o) :
    ∃ new, b.log = new ++ a.log ∧ Spares t new ∧
      ∀ base ∉ B, new.filterMap (transferOf base) = [] := by
  obtain ⟨new, hl, hn⟩ := h.log
  refine ⟨new, hl, fun e he hs => ?_, fun base hb =>
    List.filterMap_eq_nil_iff.mpr fun e he => (hn e he).2 base hb⟩
  rcases (hn e he).1 with h | h
  · rw [hs] at h
    cases h
  · exact ht (hs.symm.trans h)

theorem waiting (h : Frame o B a b) (ht : some t ≠ o) (x : Context)
    (hB : ∀ base ∈ B, x ≠ .chanalt base) : x.waiting b t ↔ x.waiting a t := by
  obtain ⟨new, hl, hs, hn⟩ := h.spares ht
  cases x with
  | qlock l => simp only [Context.waiting, hl, hs.qBlocked]
  | sleepqlock r l => simp only [Context.waiting, h.rendez, hl, hs.qBlocked, hs.wakeups]
  | tasksleep r => simp only [Context.waiting, hl, hs.wakeups]
  | chanalt base =>
    have hb : base ∉ B := fun hb => hB base hb rfl
    constructor
    · rintro ⟨h₁, h₂, h₃, h₄⟩
      rw [h.alts base hb] at h₁ h₂
      rw [hl, hs.transfers, hn base hb] at h₃
      rw [hl, hs.readied] at h₄
      exact ⟨h₁, h₂, h₃, h₄⟩
    · rintro ⟨h₁, h₂, h₃, h₄⟩
      refine ⟨?_, ?_, ?_, ?_⟩
      · rwa [h.alts base hb]
      · rwa [h.alts base hb]
      · rwa [hl, hs.transfers, hn base hb]
      · rwa [hl, hs.readied]
  | _ => rfl

theorem granted (h : Frame o B a b) (ht : some t ≠ o) (x : Context)
    (hB : ∀ base ∈ B, x ≠ .chanalt base) : x.granted b t ↔ x.granted a t := by
  obtain ⟨new, hl, hs, hn⟩ := h.spares ht
  cases x with
  | qlock l => simp only [Context.granted, hl, hs.qHanded]
  | sleepqlock r l => simp only [Context.granted, h.rendez, hl, hs.qHanded, hs.wakeups]
  | rlock l =>
    simp only [Context.granted, hl]
    exact hs.mem_since_rwEvent rfl rfl
  | wlock l =>
    simp only [Context.granted, hl]
    exact hs.mem_since_rwEvent rfl rfl
  | tasksleep r => simp only [Context.granted, hl, hs.wakeups]
  | chanalt base =>
    have hb : base ∉ B := fun hb => hB base hb rfl
    simp only [Context.granted, AltCommitted, Sys.alt?, h.alts base hb, hl, hs.transfers,
      hn base hb, hs.readied, List.nil_append]
  | _ => rfl

end Frame
end Libtask
