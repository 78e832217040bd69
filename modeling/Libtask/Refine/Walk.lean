import Libtask.Refine.Ops

/-! Walks of the abstract machine: the moves that make up one step of the program. -/
namespace Libtask
open Function Relation

/-- A move whose caller, if it owes anything, keeps to `ok`. -/
def MoveBy (ok : Sys Queues → Call → Prop) (a b : Sys Queues) : Prop :=
  ∃ l, Move l a b ∧ ∀ c, l = some c → ok a c

/-- Moves from `a` to `b`, of which only one at `a` itself may be labelled, with `o`. -/
def Walk (o : Option Call) (a b : Sys Queues) : Prop :=
  ReflTransGen (MoveBy fun a' c => a' = a ∧ o = some c) a b

namespace Walk
variable {o : Option Call} {c : Call} {a b d : Sys Queues}

theorem refl (o : Option Call) (a : Sys Queues) : Walk o a a := ReflTransGen.refl

theorem one (m : Move none a b) : Walk o a b := .single ⟨none, m, nofun⟩

theorem call (m : Move (some c) a b) : Walk (some c) a b :=
  .single ⟨some c, m, fun _ h => ⟨rfl, h⟩⟩

theorem tail (h : Walk o a b) (m : Move none b d) : Walk o a d :=
  ReflTransGen.tail h ⟨none, m, nofun⟩

theorem append (h : Walk o a b) (h' : Walk none b d) : Walk o a d := by
  refine ReflTransGen.trans h (ReflTransGen.mono ?_ _ _ h')
  rintro x y ⟨l, m, hl⟩
  exact ⟨l, m, fun c hc => absurd (hl c hc).2 nofun⟩

theorem inv {pl : Placement} (h : Walk o a b) (hI : Inv a pl) : ∃ pl', Inv b pl' := by
  induction h with
  | refl => exact ⟨pl, hI⟩
  | tail _ hm ih =>
    obtain ⟨pl', hI'⟩ := ih
    obtain ⟨l, m, _⟩ := hm
    exact m.inv hI'

end Walk

/-- The state `s` is one the abstract machine gets to from `a`. -/
def Walks (o : Option Call) (a : Sys Queues) (s : Sys Links) : Prop := ∃ b, Walk o a b ∧ Sim s b

section Finish
variable {o : Option Call} {s s' : Sys Links} {a b : Sys Queues} {t : TaskPtr}

theorem finish_void (hw : Walk o a b) (h : Sim s' b) (hc : b.control = .user) :
    Walks o a (finish t s (.ok (s', .void))) := by
  obtain ⟨q, hq, rfl⟩ := h
  refine ⟨_, hw, q, hq, ?_⟩
  have hc' : s'.control = .user := hc
  simp [finish, Sys.withLinks, ← hc']

theorem finish_value {v : ℤ} (hw : Walk o a b) (h : Sim s' b) (hc : b.control = .user) :
    Walks o a (finish t s (.ok (s', .value v))) := by
  refine ⟨_, hw.tail (.note (.ret t v) rfl), ?_⟩
  obtain ⟨q, hq, rfl⟩ := h
  refine ⟨q, hq, ?_⟩
  have hc' : s'.control = .user := hc
  simp [finish, Sys.emit, Sys.withLinks, ← hc']

theorem finish_switched (hw : Walk o a b) (h : Sim s' b) :
    Walks o a (finish t s (.ok (s', .switched))) := ⟨b, hw, h⟩

theorem finish_error {v : Halt} (hw : Walk o a (a.halt v)) (h : Sim s a) :
    Walks o a (finish t s (.error v)) :=
  ⟨_, hw, h.setControl (.halted v)⟩

theorem taskfree_control {σ : Type} (t : TaskPtr) (s : Sys σ) :
    (taskfree t s).control = s.control := by
  by_cases hs : (s.task t).system <;> simp [taskfree, Sys.emit, Sys.setTask, hs]

theorem taskswitch_control {σ : Type} (x : Context) (t : TaskPtr) (s : Sys σ) :
    (taskswitch x t s).control = .scheduler := by
  unfold taskswitch
  dsimp only
  split
  · exact taskfree_control t _
  · rfl

/-- A call that can only fail or be switched out does not come back in its first step. -/
theorem finish_blocks {r : Except Halt (Sys Links × Return)}
    (h : ∀ x, r = .ok x → ∃ c s₁, x = (taskswitch c t s₁, .switched)) :
    (finish t s r).control ≠ .user := by
  cases r with
  | error v => simp [finish]
  | ok x =>
    obtain ⟨c, s₁, rfl⟩ := h x rfl
    simp [finish, taskswitch_control]

/-- A task comes back from the call it was switched out of, and the call returns nothing. -/
theorem back_void (m : Move none a { b with control := .user }) (h : Sim s' b) :
    Walks none a (finish t s (.ok (s', .void))) :=
  ⟨_, .one m, h.setControl .user⟩

theorem back_value {v : ℤ} (m : Move none a { b with control := .user }) (h : Sim s' b) :
    Walks none a (finish t s (.ok (s', .value v))) :=
  ⟨_, (Walk.one m).tail (.note (.ret t v) rfl), (h.setControl .user).emit _⟩

theorem user_control (h : a.User t) (hb : b.control = a.control) : b.control = .user :=
  hb.trans h.2

end Finish

theorem Inv.off_lists {a : Sys Queues} {pl : Placement} {t : TaskPtr} {loc : Loc} (h : Inv a pl)
    (ht : pl t = some loc) (hl : loc.cpu) : ∀ k, t ∉ a.links k :=
  h.not_mem ht fun k he => by rcases hl with h | h <;> rw [he] at h <;> cases h

end Libtask
