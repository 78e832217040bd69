import Libtask.Refine.Lasting
import Libtask.Sockets

/-! What the functions of fd.c and net.c open they close again, unless they return it. -/
namespace Libtask.Sockets
open Ownership

section
variable {τ : Type} {task : τ → Multiset Fd} {fd : Fd} {junk : Address} {name : CString}
  {istcp : Bool} {server : Option CString} {port : ℤ} {n : ℕ} {buf : List UInt8}

theorem held_neg {v : ℤ} (h : v < 0) : held v = 0 := if_pos h

theorem held_nonneg {v : ℤ} (h : 0 ≤ v) : held v = {v.toNat} := if_neg (not_lt.mpr h)

@[simp] theorem held_natCast (n : ℕ) : held n = {n} := held_nonneg (Int.natCast_nonneg n)

/-- `socket` and `accept` give a descriptor, or fail. -/
theorem takes_opened {π : Type} {holds : π → Multiset Fd} {h : Multiset Fd} {failed : π}
    {k : Fd → π} (x : Reply) (hf : holds failed = h) (hk : ∀ fd, holds (k fd) = fd ::ₘ h) :
    (if x.ret < 0 then Effect.keep else .acquire x.ret.toNat).Takes h
      (holds (opened x failed k)) := by
  unfold opened
  split
  · exact hf
  · exact hk _

theorem balanced_fdread (p : FdreadPc) :
    Balanced effect task (fun _ => 0) (fun _ h => h = 0) 0 (fdread fd n p) := by
  cases p with
  | read => exact fun _ => rfl
  | fdwait | done => rfl

theorem balanced_fdwrite (p : FdwritePc) :
    Balanced effect task (fun _ => 0) (fun _ h => h = 0) 0 (fdwrite fd buf p) := by
  cases p with
  | write tot =>
    simp only [fdwrite]
    split
    · exact fun _ => rfl
    · rfl
  | fdwait | done => rfl

theorem balanced_fdnoblock (p : FdnoblockPc) :
    Balanced effect task (fun _ => 0) (fun _ h => h = 0) 0 (fdnoblock fd p) := by
  cases p with
  | getfl | setfl => exact fun _ => rfl
  | done => rfl

theorem balanced_netlookup (p : NetlookupPc) :
    Balanced effect task (fun _ => 0) (fun _ h => h = 0) 0 (netlookup name junk p) := by
  cases p with
  | parseip =>
    simp only [netlookup]
    split
    · rfl
    · exact fun _ => rfl
  | done => rfl

/-- `netannounce` returns the descriptor that it has opened, or has closed it. -/
theorem balanced_netannounce (p : NetannouncePc) :
    Balanced effect task NetannouncePc.holds (fun v h => h = held v) p.holds
      (netannounce istcp server port junk p) := by
  cases p with
  | start =>
    simp only [netannounce]
    split
    · rfl
    · split <;> rfl
  | netlookup name p =>
    refine Balanced.andThen (D := 0) (balanced_netlookup p) (fun _ => rfl) fun v h hv => ?_
    subst hv
    cases v with
    | none => rfl
    | some ip => rfl
  | socket ip =>
    intro x
    refine takes_opened x rfl fun fd => ?_
    split <;> rfl
  | getsockopt fd ip =>
    intro x
    show NetannouncePc.holds (if _ then _ else _) = _
    split <;> rfl
  | bind fd ip =>
    intro x
    show NetannouncePc.holds (if _ then _ else _) = _
    split
    · rfl
    · split <;> rfl
  | fdnoblock fd p =>
    refine Balanced.andThen (D := {fd}) (balanced_fdnoblock p) (fun _ => rfl) fun v h hv => ?_
    subst hv
    exact (held_natCast fd).symm
  | setsockopt | close | listen => exact fun _ => rfl
  | done => rfl

/-- `netaccept` returns the descriptor that it has got from `accept`. -/
theorem balanced_netaccept (p : NetacceptPc) :
    Balanced effect task NetacceptPc.holds (fun v h => h = held v) p.holds (netaccept fd p) := by
  cases p with
  | accept => exact fun x => takes_opened x rfl fun _ => rfl
  | fdnoblock cfd p =>
    refine Balanced.andThen (D := {cfd}) (balanced_fdnoblock p) (fun _ => rfl) fun v h hv => ?_
    subst hv
    rfl
  | setsockopt cfd => exact fun _ => held_natCast cfd
  | fdwait | done => rfl

/-- `netdial` returns the descriptor that it has opened, or has closed it. -/
theorem balanced_netdial (p : NetdialPc) :
    Balanced effect task NetdialPc.holds (fun v h => h = held v) p.holds
      (netdial istcp name port junk p) := by
  cases p with
  | netlookup p =>
    refine Balanced.andThen (D := 0) (balanced_netlookup p) (fun _ => rfl) fun v h hv => ?_
    subst hv
    cases v with
    | none => rfl
    | some ip => rfl
  | socket ip => exact fun x => takes_opened x rfl fun _ => rfl
  | fdnoblock fd ip p =>
    refine Balanced.andThen (D := {fd}) (balanced_fdnoblock p) (fun _ => rfl) fun v h hv => ?_
    subst hv
    split <;> rfl
  | connect fd ip =>
    intro x
    show NetdialPc.holds (if _ then _ else _) = _
    split <;> rfl
  | getpeername fd =>
    intro x
    show NetdialPc.holds (if _ then _ else _) = _
    split
    · exact held_natCast fd
    · rfl
  | setsockopt | getsockopt | close => exact fun _ => rfl
  | fdwait | done => rfl

/-- The requests that pass on what two peers say to each other. -/
def Request.passes : Request → Prop
  | .read _ _ | .write _ _ | .shutdown _ => True
  | _ => False

/-- A step of a function that connects: it passes on nothing, and waits at most. -/
abbrev Connects {π ρ : Type} (n : Code τ π ρ) : Prop :=
  n.All (fun r => ¬r.passes) Call.waits (fun _ => False) fun _ => True

theorem connects_fdnoblock (p : FdnoblockPc) : Connects (τ := τ) (fdnoblock fd p) := by
  cases p with
  | getfl | setfl => exact ⟨id, fun _ => trivial⟩
  | done => trivial

theorem connects_netlookup (p : NetlookupPc) : Connects (τ := τ) (netlookup name junk p) := by
  cases p with
  | parseip =>
    simp only [netlookup]
    split
    · trivial
    · exact ⟨id, fun _ => trivial⟩
  | done => trivial

theorem connects_netannounce (p : NetannouncePc) :
    Connects (τ := τ) (netannounce istcp server port junk p) := by
  cases p with
  | start =>
    simp only [netannounce]
    split
    · trivial
    · split <;> trivial
  | netlookup name p =>
    refine (connects_netlookup p).andThen (fun _ => trivial) fun v => ?_
    cases v with
    | none | some => trivial
  | fdnoblock fd p => exact (connects_fdnoblock p).andThen (fun _ => trivial) fun _ => trivial
  | done => trivial
  | _ => exact ⟨id, fun _ => trivial⟩

theorem connects_netaccept (p : NetacceptPc) : Connects (τ := τ) (netaccept fd p) := by
  cases p with
  | fdwait => exact ⟨trivial, trivial⟩
  | accept | setsockopt => exact ⟨id, fun _ => trivial⟩
  | fdnoblock cfd p => exact (connects_fdnoblock p).andThen (fun _ => trivial) fun _ => trivial
  | done => trivial

theorem connects_netdial (p : NetdialPc) :
    Connects (τ := τ) (netdial istcp name port junk p) := by
  cases p with
  | netlookup p =>
    refine (connects_netlookup p).andThen (fun _ => trivial) fun v => ?_
    cases v with
    | none | some => trivial
  | fdnoblock fd ip p =>
    refine (connects_fdnoblock p).andThen (fun _ => trivial) fun _ => ?_
    split <;> trivial
  | fdwait => exact ⟨trivial, trivial⟩
  | done => trivial
  | _ => exact ⟨id, fun _ => trivial⟩

end
end Libtask.Sockets
