import Libtask.Base.CondVar
import Libtask.Base.HandoffLock
import Libtask.Base.ReadWriteLock
import Mathlib.Algebra.Ring.Nat
import Mathlib.Data.Finset.Card

/-! The vocabulary of the ghost log: what happened to locks, rendezvous points, channels
and tasks, in the order it happened. No function of the library reads the log. -/
namespace Libtask

/-- A task is named by the address of its block in the 32-bit address space. -/
abbrev TaskPtr := UInt32

/-- `&a[idx]` for an alt array `a` that is the memory object `base`. -/
structure AltPtr where
  base : ℕ
  idx : ℕ
  deriving DecidableEq

/-- What happens to a `QLock`, to an `RWLock` and to a `Rendez`. -/
abbrev QEvent (τ : Type) := HandoffLock.Event τ

abbrev RWEvent (τ : Type) := ReadWriteLock.Event τ

abbrev RendezEvent (τ : Type) := CondVar.Event τ

/-- A transfer on behalf of the alt `p`: an element it puts into the channel as a sender, or
takes out of it as a receiver. -/
inductive ChanEvent
  | sent (p : AltPtr) (bytes : List UInt8)
  | rcvd (p : AltPtr) (bytes : List UInt8)
  deriving DecidableEq

def ChanEvent.alt : ChanEvent → AltPtr
  | .sent p _ | .rcvd p _ => p

inductive Event
  | dispatch (t : TaskPtr)
  | ready (t : TaskPtr)
  | free (t : TaskPtr)
  | ret (t : TaskPtr) (v : ℤ)
  | q (l : ℕ) (e : QEvent TaskPtr)
  | rw (l : ℕ) (e : RWEvent TaskPtr)
  | rendez (r : ℕ) (e : RendezEvent TaskPtr)
  | chan (c : ℕ) (e : ChanEvent)
  | altcall (t : TaskPtr) (base : ℕ)
  | altret (t : TaskPtr) (base : ℕ) (i : ℤ)
  | delay (t : TaskPtr) (now : UInt64) (ms : UInt32)
  | fdwait (t : TaskPtr) (fd : ℤ) (events : ℕ)
  | delayed (t : TaskPtr) (now : UInt64) (v : UInt32)
  | poll (now : UInt64) (ms : ℤ)
  | pollout (now : UInt64)
  deriving DecidableEq

/-- The events of one lock, rendezvous point or channel. -/
def qEvent (l : ℕ) : Event → Option (QEvent TaskPtr)
  | .q l' e => if l' = l then some e else none
  | _ => none

def rwEvent (l : ℕ) : Event → Option (RWEvent TaskPtr)
  | .rw l' e => if l' = l then some e else none
  | _ => none

def rendezEvent (r : ℕ) : Event → Option (RendezEvent TaskPtr)
  | .rendez r' e => if r' = r then some e else none
  | _ => none

def chanEvent (c : ℕ) : Event → Option ChanEvent
  | .chan c' e => if c' = c then some e else none
  | _ => none

def dispatched : Event → Option TaskPtr
  | .dispatch t => some t
  | _ => none

/-- The branch of the alt array `base` that a transfer is for. -/
def transferOf (base : ℕ) : Event → Option ℕ
  | .chan _ e => if e.alt.base = base then some e.alt.idx else none
  | _ => none

end Libtask
