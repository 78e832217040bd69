import Libtask.State

/-! The list surgery of task.c and fd.c on the `next`/`prev` fields of tasks. -/
namespace Libtask
open Function

namespace Links

def setHead (l : TasklistRef) (t : Option TaskPtr) (L : Links) : Links :=
  { L with list := update L.list l { L.list l with head := t } }

def setTail (l : TasklistRef) (t : Option TaskPtr) (L : Links) : Links :=
  { L with list := update L.list l { L.list l with tail := t } }

def setNext (t : TaskPtr) (u : Option TaskPtr) (L : Links) : Links :=
  { L with next := update L.next t u }

def setPrev (t : TaskPtr) (u : Option TaskPtr) (L : Links) : Links :=
  { L with prev := update L.prev t u }

def addtask (l : TasklistRef) (t : TaskPtr) (L : Links) : Links :=
  let L := match (L.list l).tail with
    | some u => (L.setNext u (some t)).setPrev t (some u)
    | none => (L.setHead l (some t)).setPrev t none
  (L.setTail l (some t)).setNext t none

def deltask (l : TasklistRef) (t : TaskPtr) (L : Links) : Links :=
  let L := match L.prev t with
    | some u => L.setNext u (L.next t)
    | none => L.setHead l (L.next t)
  match L.next t with
  | some u => L.setPrev u (L.prev t)
  | none => L.setTail l (L.prev t)

/-- The search loop of `taskdelay`: the first sleeper from `p` on that is not due before
`when`. `none` means the loop has not ended after `fuel` turns. -/
def delayscan (alarmtime : TaskPtr → UInt64) (deadline : UInt64) (L : Links) :
    (fuel : ℕ) → Option TaskPtr → Option (Option TaskPtr)
  | 0, _ => none
  | _ + 1, none => some none
  | fuel + 1, some t =>
    if alarmtime t < deadline then delayscan alarmtime deadline L fuel (L.next t)
    else some (some t)

/-- The link surgery of `taskdelay`: put `t` before `u`, or last when `u` is nil. -/
def splice (l : TasklistRef) (t : TaskPtr) (u : Option TaskPtr) (L : Links) : Links :=
  let L := match u with
    | some v => (L.setPrev t (L.prev v)).setNext t (some v)
    | none => (L.setPrev t (L.list l).tail).setNext t none
  let L := match L.prev t with
    | some v => L.setNext v (some t)
    | none => L.setHead l (some t)
  match L.next t with
  | some v => L.setPrev v (some t)
  | none => L.setTail l (some t)

end Links

def head (l : TasklistRef) (s : Sys Links) : Option TaskPtr := (s.links.list l).head

def addtask (l : TasklistRef) (t : TaskPtr) (s : Sys Links) : Sys Links :=
  { s with links := s.links.addtask l t }

def deltask (l : TasklistRef) (t : TaskPtr) (s : Sys Links) : Sys Links :=
  { s with links := s.links.deltask l t }

end Libtask
