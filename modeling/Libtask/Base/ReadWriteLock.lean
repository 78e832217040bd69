import Libtask.Base.Runs
import Mathlib.Data.Int.Notation

/-! A reader-writer lock that admits all waiting readers when a writer leaves and otherwise
goes to the writers in their order. The history says who held it, and how long others waited. -/
namespace ReadWriteLock
open Runs

inductive Event (τ : Type)
  | racquire (t : τ)
  | rblock (t : τ)
  | rhandoff (t : τ)
  | rrelease (t : τ)
  | rback (t : τ)
  | rbatch
  | wacquire (t : τ)
  | wblock (t : τ)
  | whandoff (t : τ)
  | wrelease (t : τ)
  | wback (t : τ)
  deriving DecidableEq

variable {τ : Type}

def Event.task : Event τ → Option τ
  | .racquire t | .rblock t | .rhandoff t | .rrelease t | .rback t => some t
  | .wacquire t | .wblock t | .whandoff t | .wrelease t | .wback t => some t
  | .rbatch => none

/-- The count of readers, the writer, the two lines, and the history, newest event first. -/
structure Lock (τ : Type) where
  readers : ℤ
  writer : Option τ
  rwaiting : List τ
  wwaiting : List τ
  log : List (Event τ)

def rblocked? : Event τ → Option τ
  | .rblock t => some t
  | _ => none

def rhanded? : Event τ → Option τ
  | .rhandoff t => some t
  | _ => none

/-- Calls for the lock as a writer, at once or by waiting. -/
def wcalled? : Event τ → Option τ
  | .wacquire t | .wblock t => some t
  | _ => none

def wgranted? : Event τ → Option τ
  | .wacquire t | .whandoff t => some t
  | _ => none

/-- How many writers got the lock. -/
def grants (log : List (Event τ)) : ℕ := (hist wgranted? log).length

/-- How many writers had called for the lock and not got it yet. -/
def waiters (log : List (Event τ)) : ℕ := (hist wcalled? log).length - grants log

/-- The history after the readers `us` were let in, in this order. -/
def admitAll : List τ → List (Event τ) → List (Event τ)
  | [], log => log
  | u :: us, log => admitAll us (.rhandoff u :: log)

/-- Those who wait have somebody to wait for, and all are served in their order. -/
structure Orderly (s : Lock τ) : Prop where
  wwaits : s.wwaiting ≠ [] → s.writer ≠ none ∨ 0 < s.readers
  rwaits : s.rwaiting ≠ [] → s.writer ≠ none ∨ s.wwaiting ≠ []
  rfifo : hist rblocked? s.log = hist rhanded? s.log ++ s.rwaiting
  wfifo : hist wcalled? s.log = hist wgranted? s.log ++ s.wwaiting

theorem orderly_init : Orderly (⟨0, none, [], [], []⟩ : Lock τ) :=
  ⟨fun h => absurd rfl h, fun h => absurd rfl h, rfl, rfl⟩

theorem hist_admitAll {β : Type} (f : Event τ → Option β) (us : List τ) (log : List (Event τ))
    (h : ∀ u, f (.rhandoff u) = none) : hist f (admitAll us log) = hist f log := by
  induction us generalizing log with
  | nil => rfl
  | cons u us ih => simp [admitAll, ih, h]

theorem hist_rhanded_admitAll (us : List τ) (log : List (Event τ)) :
    hist rhanded? (admitAll us log) = hist rhanded? log ++ us := by
  induction us generalizing log with
  | nil => simp [admitAll]
  | cons u us ih => simp [admitAll, ih, rhanded?]

/-- A lock without writer and readers has no waiters. -/
theorem Orderly.free {s : Lock τ} (h : Orderly s) (hw : s.writer = none) (hr : s.readers ≤ 0) :
    s.wwaiting = [] ∧ s.rwaiting = [] := by
  have hww : s.wwaiting = [] := by
    by_contra hne
    rcases h.wwaits hne with hne | hpos
    · exact hne hw
    · omega
  refine ⟨hww, ?_⟩
  by_contra hne
  rcases h.rwaits hne with hne | hne
  · exact hne hw
  · exact hne hww

@[simp] theorem grants_nil : grants ([] : List (Event τ)) = 0 := rfl

@[simp] theorem grants_cons (e : Event τ) (log : List (Event τ)) :
    grants (e :: log) = grants log + (wgranted? e).toList.length := by simp [grants]

theorem Orderly.waiters {s : Lock τ} (h : Orderly s) :
    waiters s.log = s.wwaiting.length := by
  rw [ReadWriteLock.waiters, h.wfifo, List.length_append, grants]
  omega

theorem admitAll_append (us vs : List τ) (log : List (Event τ)) :
    admitAll (us ++ vs) log = admitAll vs (admitAll us log) := by
  induction us generalizing log with
  | nil => rfl
  | cons u us ih => exact ih _

theorem admitAll_eq (us : List τ) (log : List (Event τ)) :
    admitAll us log = us.reverse.map .rhandoff ++ log := by
  induction us generalizing log with
  | nil => rfl
  | cons u us ih => simp [admitAll, ih]

theorem grants_handoffs (us : List τ) (log : List (Event τ)) :
    grants (us.map .rhandoff ++ log) = grants log := by
  induction us with
  | nil => rfl
  | cons u us ih => simp [wgranted?, ih]

/-- A waiting reader has seen at most one writer get the lock, and none if it still waits for
that. -/
def ReaderWait (writer : Option τ) (mid _old : List (Event τ)) : Prop :=
  grants mid + (if writer = none then 1 else 0) ≤ 1

theorem readerWait_append {w w' : Option τ} {t : τ} {log : List (Event τ)}
    (new : List (Event τ))
    (h : SinceLast (.rblock t) (ReaderWait w) log) (ht : .rblock t ∉ new)
    (hg : grants new + (if w' = none then 1 else 0) ≤ if w = none then 1 else 0) :
    SinceLast (.rblock t) (ReaderWait w') (new ++ log) := by
  refine h.append new ht fun mid old hmid => ?_
  have hgrants : grants (new ++ mid) = grants new + grants mid := by
    simp [grants, Nat.add_comm]
  unfold ReaderWait at hmid ⊢
  omega

section
variable [DecidableEq τ]

/-- How often a leaving writer admitted waiting readers. -/
def batches (log : List (Event τ)) : ℕ := log.count .rbatch

/-- The read holds that were granted and not released, by task. -/
def readHolders : List (Event τ) → List τ
  | [] => []
  | .racquire t :: log | .rhandoff t :: log => t :: readHolders log
  | .rrelease t :: log => (readHolders log).erase t
  | _ :: log => readHolders log

/-- The write holds that were granted and not released, by task. -/
def writeHolders : List (Event τ) → List τ
  | [] => []
  | .wacquire t :: log | .whandoff t :: log => t :: writeHolders log
  | .wrelease t :: log => (writeHolders log).erase t
  | _ :: log => writeHolders log

/-- What can happen to the lock, when only its holders release it. -/
inductive Step : Lock τ → Lock τ → Prop
  | racquire {s : Lock τ} (t : τ) (hw : s.writer = none) (hq : s.wwaiting = []) :
      Step s { s with readers := s.readers + 1, log := .racquire t :: s.log }
  | rblock {s : Lock τ} (t : τ) (ht : t ∉ s.rwaiting) (h : ¬(s.writer = none ∧ s.wwaiting = [])) :
      Step s { s with rwaiting := s.rwaiting ++ [t], log := .rblock t :: s.log }
  | rback {s : Lock τ} (t : τ) (h : .rhandoff t ∈ since (.rblock t) s.log) :
      Step s { s with log := .rback t :: s.log }
  | runlock {s : Lock τ} (t : τ) (h : t ∈ readHolders s.log)
      (hq : s.readers ≠ 1 ∨ s.wwaiting = []) :
      Step s { s with readers := s.readers - 1, log := .rrelease t :: s.log }
  | rgrant {s : Lock τ} (t u : τ) (us : List τ) (h : t ∈ readHolders s.log) (hr : s.readers = 1)
      (hq : s.wwaiting = u :: us) :
      Step s { s with
        readers := 0, writer := some u, wwaiting := us, log := .whandoff u :: .rrelease t :: s.log }
  | wacquire {s : Lock τ} (t : τ) (hw : s.writer = none) (hr : s.readers = 0) :
      Step s { s with writer := some t, log := .wacquire t :: s.log }
  | wblock {s : Lock τ} (t : τ) (ht : t ∉ s.wwaiting) (h : ¬(s.writer = none ∧ s.readers = 0)) :
      Step s { s with wwaiting := s.wwaiting ++ [t], log := .wblock t :: s.log }
  | wback {s : Lock τ} (t : τ) (h : .whandoff t ∈ since (.wblock t) s.log) :
      Step s { s with log := .wback t :: s.log }
  | wunlock {s : Lock τ} (t : τ) (h : t ∈ writeHolders s.log) (hr : s.rwaiting = [])
      (hw : s.wwaiting = []) :
      Step s { s with writer := none, log := .wrelease t :: s.log }
  | wgrant {s : Lock τ} (t u : τ) (us : List τ) (h : t ∈ writeHolders s.log)
      (hr : s.rwaiting = []) (hw : s.wwaiting = u :: us) :
      Step s { s with
        writer := some u, wwaiting := us, log := .whandoff u :: .wrelease t :: s.log }
  | batch {s : Lock τ} (t : τ) (h : t ∈ writeHolders s.log) (hr : s.rwaiting ≠ []) :
      Step s { s with
        readers := s.readers + s.rwaiting.length
        writer := none
        rwaiting := []
        log := admitAll s.rwaiting (.rbatch :: .wrelease t :: s.log) }

/-- Readers exclude writers and a writer excludes all others. -/
structure Exclusive (s : Lock τ) : Prop where
  readers : s.readers = (readHolders s.log).length
  writer : writeHolders s.log = s.writer.toList
  excl : s.writer ≠ none → s.readers = 0

theorem exclusive_init : Exclusive (⟨0, none, [], [], []⟩ : Lock τ) := ⟨rfl, rfl, fun _ => rfl⟩

theorem length_readHolders_admitAll (us : List τ) (log : List (Event τ)) :
    (readHolders (admitAll us log)).length = us.length + (readHolders log).length := by
  induction us generalizing log with
  | nil => simp [admitAll]
  | cons u us ih =>
    rw [admitAll, ih, readHolders, List.length_cons, List.length_cons]
    omega

theorem writeHolders_admitAll (us : List τ) (log : List (Event τ)) :
    writeHolders (admitAll us log) = writeHolders log := by
  induction us generalizing log with
  | nil => rfl
  | cons u us ih => exact ih _

/-- Only the writer has a write hold. -/
theorem Exclusive.holder {s : Lock τ} {t : τ} (h : Exclusive s) (ht : t ∈ writeHolders s.log) :
    s.writer = some t := by
  rw [h.writer] at ht
  exact Option.mem_toList.mp ht

theorem Exclusive.released {s : Lock τ} {t : τ} (h : Exclusive s) (ht : t ∈ writeHolders s.log) :
    (writeHolders s.log).erase t = [] := by
  have hw := h.writer
  rw [h.holder ht] at hw
  simp [hw]

/-- As long as somebody reads, there is no writer. -/
theorem Exclusive.reading {s : Lock τ} {t : τ} (h : Exclusive s) (ht : t ∈ readHolders s.log) :
    s.writer = none ∧ ((readHolders s.log).erase t).length + 1 = (readHolders s.log).length := by
  have hlen := List.length_erase_add_one ht
  refine ⟨?_, hlen⟩
  by_contra hw
  have hzero := h.excl hw
  rw [h.readers] at hzero
  omega

theorem Step.exclusive {s s' : Lock τ} (h : Exclusive s) (hs : Step s s') : Exclusive s' := by
  have hreaders := h.readers
  have hwriter := h.writer
  cases hs with
  | racquire t hw hq =>
    constructor
    · simp only [readHolders, List.length_cons, hreaders]
      omega
    · exact hwriter
    · exact fun hne => absurd hw hne
  | rblock | rback | wblock | wback => exact ⟨hreaders, hwriter, h.excl⟩
  | runlock t ht hq =>
    obtain ⟨hw, hlen⟩ := h.reading ht
    constructor
    · simp only [readHolders, hreaders]
      omega
    · exact hwriter
    · exact fun hne => absurd hw hne
  | rgrant t u us ht hr hq =>
    obtain ⟨hw, hlen⟩ := h.reading ht
    rw [hw] at hwriter
    constructor
    · simp only [readHolders]
      omega
    · simp [writeHolders, hwriter]
    · exact fun _ => rfl
  | wacquire t hw hr =>
    rw [hw] at hwriter
    constructor
    · exact hreaders
    · simp [writeHolders, hwriter]
    · exact fun _ => hr
  | wunlock t ht hr hw =>
    constructor
    · exact hreaders
    · simp [writeHolders, h.released ht]
    · exact fun hne => absurd rfl hne
  | wgrant t u us ht hr hw =>
    have hzero := h.excl (by simp [h.holder ht])
    constructor
    · exact hreaders
    · simp [writeHolders, h.released ht]
    · exact fun _ => hzero
  | batch t ht hr =>
    constructor
    · simp only [length_readHolders_admitAll, readHolders, hreaders]
      omega
    · rw [writeHolders_admitAll]
      exact h.released ht
    · exact fun hne => absurd rfl hne

theorem Step.orderly {s s' : Lock τ} (hx : Exclusive s) (h : Orderly s) (hs : Step s s') :
    Orderly s' := by
  have hrfifo := h.rfifo
  have hwfifo := h.wfifo
  cases hs with
  | racquire t hw hq =>
    refine ⟨fun hne => absurd hq hne, h.rwaits, ?_, ?_⟩
    · simpa [rblocked?, rhanded?] using hrfifo
    · simpa [wcalled?, wgranted?] using hwfifo
  | rblock t _ hn =>
    refine ⟨h.wwaits, fun _ => ?_, ?_, ?_⟩
    · by_cases hw : s.writer = none
      · exact .inr fun hq => hn ⟨hw, hq⟩
      · exact .inl hw
    · simp [rblocked?, rhanded?, hrfifo]
    · simpa [wcalled?, wgranted?] using hwfifo
  | rback t _ | wback t _ =>
    refine ⟨h.wwaits, h.rwaits, ?_, ?_⟩
    · simpa [rblocked?, rhanded?] using hrfifo
    · simpa [wcalled?, wgranted?] using hwfifo
  | runlock t ht hq =>
    obtain ⟨hw, hlen⟩ := hx.reading ht
    have hreaders := hx.readers
    refine ⟨fun hne => ?_, h.rwaits, ?_, ?_⟩
    · right
      rcases hq with hq | hq
      · show 0 < s.readers - 1
        omega
      · exact absurd hq hne
    · simpa [rblocked?, rhanded?] using hrfifo
    · simpa [wcalled?, wgranted?] using hwfifo
  | rgrant t u us ht hr hq =>
    rw [hq] at hwfifo
    refine ⟨fun _ => .inl (by simp), fun _ => .inl (by simp), ?_, ?_⟩
    · simpa [rblocked?, rhanded?] using hrfifo
    · simp [wcalled?, wgranted?, hwfifo]
  | wacquire t hw hr =>
    obtain ⟨hq, _⟩ := h.free hw (by omega)
    refine ⟨fun hne => absurd hq hne, fun _ => .inl (by simp), ?_, ?_⟩
    · simpa [rblocked?, rhanded?] using hrfifo
    · rw [hq] at hwfifo ⊢
      simp [wcalled?, wgranted?, hwfifo]
  | wblock t _ hn =>
    have hreaders := hx.readers
    refine ⟨fun _ => ?_, fun _ => .inr (by simp), ?_, ?_⟩
    · by_cases hw : s.writer = none
      · right
        have hne : s.readers ≠ 0 := fun hr => hn ⟨hw, hr⟩
        show 0 < s.readers
        omega
      · exact .inl hw
    · simpa [rblocked?, rhanded?] using hrfifo
    · simp [wcalled?, wgranted?, hwfifo]
  | wunlock t ht hr hw =>
    refine ⟨fun hne => absurd hw hne, fun hne => absurd hr hne, ?_, ?_⟩
    · simpa [rblocked?, rhanded?] using hrfifo
    · simpa [wcalled?, wgranted?] using hwfifo
  | wgrant t u us ht hr hw =>
    rw [hw] at hwfifo
    refine ⟨fun _ => .inl (by simp), fun _ => .inl (by simp), ?_, ?_⟩
    · simpa [rblocked?, rhanded?] using hrfifo
    · simp [wcalled?, wgranted?, hwfifo]
  | batch t ht hr =>
    have hreaders := hx.readers
    have hlen : 0 < s.rwaiting.length := List.length_pos_iff.mpr hr
    refine ⟨fun _ => .inr ?_, fun hne => absurd rfl hne, ?_, ?_⟩
    · show 0 < s.readers + s.rwaiting.length
      omega
    · rw [hist_admitAll _ _ _ fun _ => rfl, hist_rhanded_admitAll]
      simpa [rblocked?, rhanded?] using hrfifo
    · rw [hist_admitAll _ _ _ fun _ => rfl, hist_admitAll _ _ _ fun _ => rfl]
      simpa [wcalled?, wgranted?] using hwfifo

@[simp] theorem batches_nil : batches ([] : List (Event τ)) = 0 := rfl

@[simp] theorem batches_cons (e : Event τ) (log : List (Event τ)) :
    batches (e :: log) = batches log + if e = .rbatch then 1 else 0 := by
  rw [batches, List.count_cons, batches]
  simp

/-- A writer now at place `i` of the line has waited for `mid`: all the others ahead of it got
the lock, and readers were let in once for each of them and the writer it found. -/
def WriterWait (i : ℕ) (writer : Option τ) (mid old : List (Event τ)) : Prop :=
  grants mid + i = waiters old ∧
    batches mid + (if writer = none then 0 else 1) ≤ grants mid + 1

/-- A task is let in in its turn, and returns only after it was. -/
def Served (e : Event τ) (older : List (Event τ)) : Prop :=
  match e with
  | .racquire _ => waiters older = 0
  | .rhandoff t => SinceLast (.rblock t) (fun mid _ => grants mid ≤ 1) older ∧
      ∃ us v rest, older = admitAll us (.rbatch :: .wrelease v :: rest)
  | .whandoff t => SinceLast (.wblock t)
      (fun mid old => grants mid = waiters old ∧ batches mid ≤ waiters old + 1) older
  | .rback t => .rblock t ∈ older ∧ .rhandoff t ∈ since (.rblock t) older
  | .wback t => .wblock t ∈ older ∧ .whandoff t ∈ since (.wblock t) older
  | _ => True

structure Bounded (s : Lock τ) : Prop where
  writers : ∀ i t, s.wwaiting[i]? = some t → SinceLast (.wblock t) (WriterWait i s.writer) s.log
  readers : ∀ t ∈ s.rwaiting, SinceLast (.rblock t) (ReaderWait s.writer) s.log
  served : Always Served s.log

theorem bounded_init : Bounded (⟨0, none, [], [], []⟩ : Lock τ) :=
  ⟨fun _ _ h => by simp at h, fun _ h => by simp at h, always_nil Served⟩

/-- A writer waits on through events that are no call of its own. -/
theorem writerWait_append {i j : ℕ} {w w' : Option τ} {t : τ} {log : List (Event τ)}
    (new : List (Event τ))
    (h : SinceLast (.wblock t) (WriterWait i w) log) (ht : .wblock t ∉ new)
    (hg : grants new + j = i)
    (hb : batches new + (if w' = none then 0 else 1) ≤ grants new + if w = none then 0 else 1) :
    SinceLast (.wblock t) (WriterWait j w') (new ++ log) := by
  refine h.append new ht fun mid old hmid => ?_
  obtain ⟨hwait, hslack⟩ := hmid
  have hgrants : grants (new ++ mid) = grants new + grants mid := by
    simp [grants, Nat.add_comm]
  have hbatches : batches (new ++ mid) = batches new + batches mid := List.count_append
  constructor
  · omega
  · omega

/-- An event that neither grants the lock to a writer nor queues a task. -/
theorem Bounded.quiet {s s' : Lock τ} {e : Event τ} (h : Bounded s) (hg : wgranted? e = none)
    (hb : e ≠ .rbatch) (hr : ∀ t, e ≠ .rblock t) (hw : ∀ t, e ≠ .wblock t)
    (he : Served e s.log) (hwriter : s'.writer = s.writer) (hrw : s'.rwaiting = s.rwaiting)
    (hww : s'.wwaiting = s.wwaiting) (hlog : s'.log = e :: s.log) : Bounded s' := by
  constructor
  case writers =>
    intro i t ht
    rw [hww] at ht
    rw [hlog, hwriter]
    exact writerWait_append [e] (h.writers i t ht) (by simpa using Ne.symm (hw t))
      (by simp [hg]) (by simp [hg, hb])
  case readers =>
    intro t ht
    rw [hrw] at ht
    rw [hlog, hwriter]
    exact readerWait_append [e] (h.readers t ht) (by simpa using Ne.symm (hr t))
      (by simp [hg])
  case served =>
    rw [hlog]
    exact always_cons he h.served

/-- The first waiting writer gets the lock after a release. -/
theorem Bounded.served_whandoff {s : Lock τ} {e : Event τ} {u : τ} {us : List τ} (h : Bounded s)
    (hq : s.wwaiting = u :: us) (he : e ≠ .wblock u) (hg : wgranted? e = none)
    (hb : e ≠ .rbatch) : Served (.whandoff u) (e :: s.log) := by
  have hwait := h.writers 0 u (by simp [hq])
  refine SinceLast.append hwait [e] (by simpa using Ne.symm he) fun mid old hmid => ?_
  obtain ⟨hgrants, hbatches⟩ := hmid
  simp only [List.singleton_append, grants_cons, batches_cons, hg, if_neg hb]
  simp only [Option.toList_none, List.length_nil]
  omega

/-- All the readers that a leaving writer lets in had their turn. -/
theorem served_admitAll {us : List τ} {v : τ} {log rest : List (Event τ)} (vs : List τ)
    (hus : ∀ u ∈ us, SinceLast (.rblock u) (fun mid _ => grants mid ≤ 1) log)
    (hlog : log = admitAll vs (.rbatch :: .wrelease v :: rest)) (h : Always Served log) :
    Always Served (admitAll us log) := by
  induction us generalizing log vs with
  | nil => exact h
  | cons u us ih =>
    have hu : Served (.rhandoff u) log := ⟨hus u (by simp), vs, v, rest, hlog⟩
    refine ih (vs ++ [u]) (fun w hw => ?_) ?_ (always_cons hu h)
    · exact SinceLast.cons (hus w (by simp [hw])) (by simp) fun mid old hmid => by
        simpa [wgranted?] using hmid
    · rw [admitAll_append, ← hlog]
      rfl

theorem batches_handoffs (us : List τ) (log : List (Event τ)) :
    batches (us.map .rhandoff ++ log) = batches log := by
  induction us with
  | nil => rfl
  | cons u us ih => simp [ih]

theorem Bounded.batch {s : Lock τ} {t : τ} (h : Bounded s) (hw : s.writer = some t) :
    Bounded { s with
      readers := s.readers + s.rwaiting.length
      writer := none
      rwaiting := []
      log := admitAll s.rwaiting (.rbatch :: .wrelease t :: s.log) } := by
  constructor
  case writers =>
    intro i u hu
    have hlog := admitAll_eq s.rwaiting (.rbatch :: .wrelease t :: s.log)
    have hsplit : admitAll s.rwaiting (.rbatch :: .wrelease t :: s.log) =
        (s.rwaiting.reverse.map .rhandoff ++ [.rbatch, .wrelease t]) ++ s.log := by simp [hlog]
    show SinceLast _ _ (admitAll s.rwaiting (.rbatch :: .wrelease t :: s.log))
    rw [hsplit]
    apply writerWait_append _ (h.writers i u hu)
    · simp
    · simp only [grants_handoffs]
      simp [wgranted?]
    · simp only [grants_handoffs, batches_handoffs, hw]
      simp [wgranted?]
  case readers => intro u hu; cases hu
  case served =>
    refine served_admitAll (v := t) [] (fun u hu => ?_) rfl ?_
    · refine SinceLast.append (h.readers u hu) [.rbatch, .wrelease t] (by simp)
        fun mid old hmid => ?_
      rw [ReaderWait, hw] at hmid
      simpa [wgranted?] using hmid
    · exact always_cons trivial (always_cons trivial h.served)

/-- Who was let in had queued. -/
theorem Bounded.queued {s : Lock τ} {t : τ} (h : Bounded s) :
    (.rhandoff t ∈ s.log → .rblock t ∈ s.log) ∧ (.whandoff t ∈ s.log → .wblock t ∈ s.log) := by
  constructor
  · intro ht
    obtain ⟨newer, older, hlog⟩ := List.append_of_mem ht
    obtain ⟨⟨mid, old, hold, _⟩, _⟩ := h.served newer _ older hlog
    simp [hlog, hold]
  · intro ht
    obtain ⟨newer, older, hlog⟩ := List.append_of_mem ht
    obtain ⟨mid, old, hold, _⟩ := h.served newer _ older hlog
    simp [hlog, hold]

theorem Step.bounded {s s' : Lock τ} (hx : Exclusive s) (ho : Orderly s) (h : Bounded s)
    (hs : Step s s') : Bounded s' := by
  cases hs with
  | racquire t hw hq =>
    have hwait : waiters s.log = 0 := by rw [ho.waiters, hq, List.length_nil]
    exact h.quiet (e := .racquire t) rfl (by simp) (by simp) (by simp) hwait rfl rfl rfl rfl
  | rback t ht =>
    have hlog := (List.takeWhile_sublist _).subset ht
    exact h.quiet (e := .rback t) rfl (by simp) (by simp) (by simp) ⟨h.queued.1 hlog, ht⟩
      rfl rfl rfl rfl
  | wback t ht =>
    have hlog := (List.takeWhile_sublist _).subset ht
    exact h.quiet (e := .wback t) rfl (by simp) (by simp) (by simp) ⟨h.queued.2 hlog, ht⟩
      rfl rfl rfl rfl
  | runlock t ht hq =>
    exact h.quiet (e := .rrelease t) rfl (by simp) (by simp) (by simp) trivial rfl rfl rfl rfl
  | rblock t ht hn =>
    constructor
    case writers =>
      intro i u hu
      exact writerWait_append [.rblock t] (h.writers i u hu) (by simp)
        (by simp [wgranted?]) (by simp [wgranted?])
    case readers =>
      intro u hu
      by_cases hut : u = t
      · subst hut
        apply SinceLast.start
        unfold ReaderWait
        split <;> simp
      · have hold : u ∈ s.rwaiting := by simpa [hut] using hu
        exact readerWait_append [.rblock t] (h.readers u hold) (by simpa using hut)
          (by simp [wgranted?])
    case served => exact always_cons trivial h.served
  | wblock t ht hn =>
    constructor
    case writers =>
      intro i u hu
      rcases Nat.lt_or_ge i s.wwaiting.length with hi | hi
      · have hold : s.wwaiting[i]? = some u := by rwa [List.getElem?_append_left hi] at hu
        have hut : u ≠ t := by
          rintro rfl
          exact ht (List.mem_of_getElem? hold)
        exact writerWait_append [.wblock t] (h.writers i u hold) (by simpa using hut)
          (by simp [wgranted?]) (by simp [wgranted?])
      · rw [List.getElem?_append_right hi] at hu
        have hlast : i = s.wwaiting.length ∧ t = u := by
          rcases hk : i - s.wwaiting.length with _ | k
          · rw [hk] at hu
            exact ⟨by omega, by simpa using hu⟩
          · rw [hk] at hu
            simp at hu
        obtain ⟨rfl, rfl⟩ := hlast
        apply SinceLast.start
        refine ⟨by simp [ho.waiters], ?_⟩
        split <;> simp
    case readers =>
      intro u hu
      exact readerWait_append [.wblock t] (h.readers u hu) (by simp)
        (by simp [wgranted?])
    case served => exact always_cons trivial h.served
  | wacquire t hw hr =>
    obtain ⟨hww, hrw⟩ := ho.free hw (by omega)
    refine ⟨fun i u hu => ?_, fun u hu => ?_, always_cons trivial h.served⟩
    · rw [hww] at hu
      cases hu
    · rw [hrw] at hu
      cases hu
  | wunlock t ht hrw hww =>
    refine ⟨fun i u hu => ?_, fun u hu => ?_, always_cons trivial h.served⟩
    · rw [hww] at hu
      cases hu
    · rw [hrw] at hu
      cases hu
  | rgrant t u us ht hr hq =>
    obtain ⟨hw, _⟩ := hx.reading ht
    constructor
    case writers =>
      intro i v hv
      exact writerWait_append [.whandoff u, .rrelease t]
        (h.writers (i + 1) v (by simpa [hq] using hv)) (by simp) (by simp [wgranted?, Nat.add_comm])
        (by simp [wgranted?, hw])
    case readers =>
      intro v hv
      exact readerWait_append [.whandoff u, .rrelease t] (h.readers v hv) (by simp)
        (by simp [wgranted?, hw])
    case served =>
      exact always_cons (h.served_whandoff hq (by simp) rfl (by simp))
        (always_cons trivial h.served)
  | wgrant t u us ht hr hq =>
    constructor
    case writers =>
      intro i v hv
      exact writerWait_append [.whandoff u, .wrelease t]
        (h.writers (i + 1) v (by simpa [hq] using hv)) (by simp) (by simp [wgranted?, Nat.add_comm])
        (by simp [wgranted?, hx.holder ht])
    case readers =>
      intro v hv
      rw [hr] at hv
      cases hv
    case served =>
      exact always_cons (h.served_whandoff hq (by simp) rfl (by simp))
        (always_cons trivial h.served)
  | batch t ht hr => exact h.batch (hx.holder ht)

end
end ReadWriteLock
