import Libtask.Properties.Yield

/-! The run queue is a first-in first-out queue over whole runs: tasks run in the order in which
they were made ready, each as often as it was. -/
namespace Libtask
open Function Runs Relation

/-- From `s`, with `q` on the run queue, to `s'`, with `q'` on it: the tasks that ran are those
of `q` and then those made ready on the way, in order, up to the ones that still wait. -/
structure RunsInTurn (s s' : Sys Links) (q q' : List TaskPtr) (new : List Event) : Prop where
  log : s'.log = new ++ s.log
  fifo : q ++ hist madeReady new = hist dispatched new ++ q'
  next : ∀ i t, q[i]? = some t → i < (hist dispatched new).length →
    (hist dispatched new)[i]? = some t
  waiting : ∀ i t, q[i]? = some t → (hist dispatched new).length ≤ i →
    q'[i - (hist dispatched new).length]? = some t
  once : q'.Nodup
  nswitch : s'.tasknswitch = s.tasknswitch + BitVec.ofNat 32 (hist dispatched new).length

section
variable {ok : Sys Queues → Call → Prop} {a b : Sys Queues} {pl : Placement}

/-- Every run of the abstract machine takes the tasks off the run queue in its order. -/
theorem Scheduled.path (hI : Inv a pl) (hp : ReflTransGen (MoveBy ok) a b) :
    ∃ new pl', Scheduled new a b ∧ Inv b pl' := by
  induction hp with
  | refl => exact ⟨[], pl, .refl a, hI⟩
  | tail _ hm ih =>
    obtain ⟨new, pl', hs, hI'⟩ := ih
    obtain ⟨_, m, _⟩ := hm
    obtain ⟨pl'', hI''⟩ := m.inv hI'
    rcases m.queued_or hI' with ⟨new', hq⟩ | ⟨u, us, _, hq, rfl⟩
    · exact ⟨new' ++ new, pl'', hs.queued hq, hI''⟩
    · exact ⟨.dispatch u :: new, pl'', hs.dispatch hq, hI''⟩

end

/-- What comes first into a queue is what is taken out of it first, or still first in it. -/
theorem getElem?_of_fifo {τ : Type} {q made run rest : List τ} (h : q ++ made = run ++ rest)
    {i : ℕ} {t : τ} (hi : q[i]? = some t) :
    (i < run.length → run[i]? = some t) ∧ (run.length ≤ i → rest[i - run.length]? = some t) := by
  have hq : (q ++ made)[i]? = some t := by
    rw [List.getElem?_append_left (List.getElem?_eq_some_iff.mp hi).choose]
    exact hi
  rw [h] at hq
  constructor
  · intro hlt
    rwa [List.getElem?_append_left hlt] at hq
  · intro hle
    rwa [List.getElem?_append_right hle] at hq

/-- Tasks run in the order in which they were made ready. -/
theorem run_queue_fifo {s s' : Sys Links} (h : Reachable s)
    (hp : ReflTransGen (Step step (Keeps fun _ _ => True)) s s') :
    ∃ q q' new, WellLinked s.links .taskrunqueue q ∧ WellLinked s'.links .taskrunqueue q' ∧
      RunsInTurn s s' q q' new := by
  obtain ⟨a, pl, ha, hI, hsim⟩ := h.sim
  obtain ⟨b, hpb, hb⟩ := path_simulated (fun _ _ _ _ _ => trivial) h hsim ha hp
  obtain ⟨new, pl', hs, hI'⟩ := Scheduled.path hI hpb
  obtain ⟨q, hq, rfl⟩ := hsim
  obtain ⟨q', hq', rfl⟩ := hb
  have hfifo : q .taskrunqueue ++ hist madeReady new = hist dispatched new ++ q' .taskrunqueue :=
    hs.fifo
  refine ⟨q .taskrunqueue, q' .taskrunqueue, new, wellLinked_of_isList (hq.isList _),
    wellLinked_of_isList (hq'.isList _), ?_⟩
  constructor
  case log => exact hs.log
  case fifo => exact hfifo
  case next => exact fun i t hi => (getElem?_of_fifo hfifo hi).1
  case waiting => exact fun i t hi => (getElem?_of_fifo hfifo hi).2
  case once => exact hI'.placed.nodup_list .taskrunqueue
  case nswitch => exact hs.nswitch

/-- The running task yields and the next one is dispatched. -/
def handOverRun : List (Env × Action) := [(.still 0, .call .taskyield), (.still 0, .schedule)]

theorem run_queue_fifo_small :
    ∃ s s', Program.small.after (fun _ _ => True) yieldRun = some s ∧
      execBy step (Keeps fun _ _ => True) handOverRun s = some s' ∧ s'.taskrunning = some 8192 ∧
      ∃ q q' new, WellLinked s.links .taskrunqueue q ∧ WellLinked s'.links .taskrunqueue q' ∧
        RunsInTurn s s' q q' new := by
  have hrun : ((Program.small.after (fun _ _ => True) yieldRun).bind
      (execBy step (Keeps fun _ _ => True) handOverRun)).map Sys.taskrunning =
      some (some 8192) := by decide
  obtain ⟨s', hs', hr⟩ := Option.map_eq_some_iff.mp hrun
  obtain ⟨s, hs, hs'⟩ := Option.bind_eq_some_iff.mp hs'
  exact ⟨s, s', hs, hs', hr, run_queue_fifo (Program.reachableBy_after hs) (path_of_execBy hs')⟩

end Libtask
