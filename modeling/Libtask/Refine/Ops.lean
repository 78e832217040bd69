import Libtask.Refine.Lists
import Libtask.Abstract.Steps

/-! The functions of the source that only touch lists and records, each against its
counterpart in the abstract machine. -/
namespace Libtask
open Function

/-- The two states are the same but for the representation of the task lists. -/
def Sim (s : Sys Links) (a : Sys Queues) : Prop := ∃ q, Rep s.links q ∧ a = s.withLinks q

theorem Inv.not_mem {a : Sys Queues} {pl : Placement} {t : TaskPtr} {loc : Loc} (h : Inv a pl)
    (ht : pl t = some loc) (hl : ∀ k, loc ≠ .list k) : ∀ k, t ∉ a.links k := by
  intro k hm
  rw [h.placed.mem_list, ht] at hm
  exact hl k (Option.some.inj hm)

/-- A list of tasks that are all somewhere is no longer than there are live tasks. -/
theorem Inv.length_le {a : Sys Queues} {pl : Placement} (h : Inv a pl) (k : TasklistRef) :
    (a.links k).length ≤ a.live.card := by
  rw [← List.toFinset_card_of_nodup (h.placed.nodup_list k)]
  refine Finset.card_le_card fun t ht => ?_
  exact h.mem_live (h.placed.mem_list.mp (List.mem_toFinset.mp ht))

theorem taskcreate_eq (fn : Startfn) {p : TaskPtr} (h0 : p ≠ 0) (s : Sys Links) :
    taskcreate fn p s = .ok (taskready p { s with
      links := (s.links.setNext p none).setPrev p none
      task := update s.task p
        { context := .taskstart, alarmtime := 0, id := s.taskidgen + 1, exiting := false,
          alltaskslot := s.nalltask, system := false, ready := false, startfn := fn }
      live := insert p s.live
      taskidgen := s.taskidgen + 1
      taskcount := s.taskcount + 1
      alltaskcap := if s.nalltask % 64 = 0 then s.nalltask + 64 else s.alltaskcap
      alltask := update s.alltask s.nalltask p
      nalltask := s.nalltask + 1 }) := by
  by_cases hn : s.nalltask % 64 = 0 <;>
    simp [taskcreate, taskalloc, h0, hn, Sys.setTask, bind, Except.bind, pure, Except.pure]

theorem taskready_task (t u : TaskPtr) (s : Sys Links) : (taskready t s).task u =
    { s.task u with ready := if u = t then true else (s.task u).ready } := by
  by_cases hu : u = t
  · subst hu
    simp [taskready, addtask, Sys.emit, Sys.setTask]
  · simp [taskready, addtask, Sys.emit, Sys.setTask, hu]

theorem taskswitch_eq {σ : Type} {s : Sys σ} {t : TaskPtr} (c : Context)
    (hx : (s.task t).exiting = false) : taskswitch c t s = s.switch c t := by
  simp [taskswitch, Sys.switch, Sys.setTask, hx]

theorem taskyield_eq {s : Sys Links} {t : TaskPtr} (hx : (s.task t).exiting = false) :
    taskyield t s = (taskready t s).switch (.taskyield s.tasknswitch) t := by
  refine taskswitch_eq _ ?_
  rw [taskready_task, hx]

namespace Sim
variable {s : Sys Links} {a : Sys Queues} {t u : TaskPtr} {k : TasklistRef} {ts : List TaskPtr}

theorem head (h : Sim s a) (k : TasklistRef) : head k s = (a.links k).head? := by
  obtain ⟨q, hq, rfl⟩ := h
  exact hq.head k

theorem live (h : Sim s a) : s.live = a.live := by
  obtain ⟨q, hq, rfl⟩ := h
  rfl

theorem task (h : Sim s a) : s.task = a.task := by
  obtain ⟨q, hq, rfl⟩ := h
  rfl

theorem log (h : Sim s a) : a.log = s.log := by
  obtain ⟨q, hq, rfl⟩ := h
  rfl

theorem qlock (h : Sim s a) : s.qlock = a.qlock := by
  obtain ⟨q, hq, rfl⟩ := h
  rfl

theorem rwlock (h : Sim s a) : s.rwlock = a.rwlock := by
  obtain ⟨q, hq, rfl⟩ := h
  rfl

theorem control (h : Sim s a) : s.control = a.control := by
  obtain ⟨q, hq, rfl⟩ := h
  rfl

theorem emit (h : Sim s a) (e : Event) : Sim (s.emit e) (a.emit e) := by
  obtain ⟨q, hq, rfl⟩ := h
  exact ⟨q, hq, rfl⟩

theorem setTask (h : Sim s a) (t : TaskPtr) (f : Task → Task) :
    Sim (s.setTask t f) (a.setTask t f) := by
  obtain ⟨q, hq, rfl⟩ := h
  exact ⟨q, hq, rfl⟩

theorem setOwner (h : Sim s a) (l : ℕ) (o : Option TaskPtr) :
    Sim (s.setOwner l o) (a.setOwner l o) := by
  obtain ⟨q, hq, rfl⟩ := h
  exact ⟨q, hq, rfl⟩

theorem setReaders (h : Sim s a) (l : ℕ) (n : ℤ) : Sim (s.setReaders l n) (a.setReaders l n) := by
  obtain ⟨q, hq, rfl⟩ := h
  exact ⟨q, hq, rfl⟩

theorem setWriter (h : Sim s a) (l : ℕ) (o : Option TaskPtr) :
    Sim (s.setWriter l o) (a.setWriter l o) := by
  obtain ⟨q, hq, rfl⟩ := h
  exact ⟨q, hq, rfl⟩

theorem setControl (h : Sim s a) (c : Control) :
    Sim { s with control := c } { a with control := c } := by
  obtain ⟨q, hq, rfl⟩ := h
  exact ⟨q, hq, rfl⟩

theorem addtask (h : Sim s a) (ht : ∀ k, t ∉ a.links k) :
    Sim (addtask k t s) (a.enq k t) := by
  obtain ⟨q, hq, rfl⟩ := h
  exact ⟨_, hq.addtask ht, rfl⟩

theorem deltask (h : Sim s a) (hk : a.links k = t :: ts) : Sim (deltask k t s) (a.deq k) := by
  obtain ⟨q, hq, rfl⟩ := h
  refine ⟨_, hq.deltask_head hk, ?_⟩
  have hk' : q k = t :: ts := hk
  simp [Sys.deq, Sys.withLinks, Libtask.deltask, hk']

theorem taskready (h : Sim s a) (ht : ∀ k, t ∉ a.links k) : Sim (taskready t s) (a.ready t) :=
  ((h.setTask t _).emit _).addtask ht

/-- The first task of a list is in no list once it is taken off. -/
theorem not_mem_deq (h : Sim s a) (hk : a.links k = t :: ts) : ∀ k', t ∉ (a.deq k).links k' := by
  obtain ⟨q, hq, rfl⟩ := h
  have hk' : q k = t :: ts := hk
  have hnd := hq.nodup k
  rw [hk'] at hnd
  intro k₁ hm
  by_cases h₁ : k₁ = k
  · subst h₁
    simp only [Sys.deq, Sys.withLinks, hk', List.tail_cons, update_self] at hm
    exact (List.nodup_cons.mp hnd).1 hm
  · simp only [Sys.deq, Sys.withLinks, update_of_ne h₁] at hm
    exact h₁ (hq.disjoint _ _ t hm (by simp [hk']))

theorem wake (h : Sim s a) (hk : a.links k = u :: ts) :
    Sim (Libtask.taskready u (Libtask.deltask k u s)) (a.wake k u) :=
  (h.deltask hk).taskready (h.not_mem_deq hk)

theorem taskswitch (h : Sim s a) (c : Context) (ht : (a.task t).exiting = false) :
    Sim (taskswitch c t s) (a.switch c t) := by
  obtain ⟨q, hq, rfl⟩ := h
  rw [taskswitch_eq c (show (s.task t).exiting = false from ht)]
  exact ⟨q, hq, rfl⟩

theorem taskexit (h : Sim s a) (v : ℤ) (t : TaskPtr) :
    Sim (taskexit v t s) (Libtask.taskexit v t a) := by
  obtain ⟨q, hq, rfl⟩ := h
  simp only [taskexit_eq]
  exact ⟨q, hq, rfl⟩

theorem tasksystem (h : Sim s a) (t : TaskPtr) : Sim (tasksystem t s) (Libtask.tasksystem t a) := by
  obtain ⟨q, hq, rfl⟩ := h
  by_cases hs : (s.task t).system
  · simp only [Libtask.tasksystem, Sys.withLinks, hs, if_true]
    exact ⟨q, hq, rfl⟩
  · simp only [Libtask.tasksystem, Sys.withLinks, hs]
    exact ⟨q, hq, rfl⟩

theorem taskcreate {pl : Placement} {p : TaskPtr} (h : Sim s a) (hI : Inv a pl) (fn : Startfn)
    (h0 : p ≠ 0) (hp : p ∉ a.live) :
    ∃ s', taskcreate fn p s = .ok s' ∧ Sim s' (a.create fn p) := by
  obtain ⟨q, hq, rfl⟩ := h
  have hpl : pl p = none := (hI.live p).mpr hp
  have hnot : ∀ k, p ∉ q k := by
    intro k hm
    have hm' : pl p = some (.list k) := hI.placed.mem_list.mp hm
    rw [hpl] at hm'
    cases hm'
  have hrep : Rep ((s.links.setNext p none).setPrev p none) q := by
    refine ⟨fun k => hq.frame rfl (fun x hx => ?_) fun x hx => ?_, hq.nodup, hq.disjoint⟩
    · exact update_of_ne (ne_of_mem_of_not_mem hx (hnot k)) _ _
    · exact update_of_ne (ne_of_mem_of_not_mem hx (hnot k)) _ _
  rw [taskcreate_eq fn h0]
  exact ⟨_, rfl, Sim.taskready ⟨q, hrep, rfl⟩ hnot⟩

end Sim
end Libtask
