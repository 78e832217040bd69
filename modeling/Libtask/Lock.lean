import Libtask.Task

/-! Queuing locks, reader-writer locks (qlock.c) and rendezvous points (rendez.c). A
function that may switch in the middle is split there; the part after the switch is run
when the task resumes. -/
namespace Libtask
open Function

def Sys.setReaders {σ : Type} (l : ℕ) (n : ℤ) (s : Sys σ) : Sys σ :=
  { s with rwlock := update s.rwlock l { s.rwlock l with readers := n } }

def Sys.setWriter {σ : Type} (l : ℕ) (t : Option TaskPtr) (s : Sys σ) : Sys σ :=
  { s with rwlock := update s.rwlock l { s.rwlock l with writer := t } }

def Sys.setOwner {σ : Type} (l : ℕ) (t : Option TaskPtr) (s : Sys σ) : Sys σ :=
  { s with qlock := update s.qlock l { owner := t } }

/-- `_qlock` up to its switch; `c` is where the caller goes on. -/
def qlockWith (l : ℕ) (block : Bool) (c : Context) (t : TaskPtr) (s : Sys Links) :
    Sys Links × Return :=
  if (s.qlock l).owner = none then
    ((s.setOwner l (some t)).emit (.q l (.acquire t)), .value 1)
  else if !block then (s, .value 0)
  else (taskswitch c t (addtask (.qwaiting l) t (s.emit (.q l (.block t)))), .switched)

/-- `_qlock` after its switch. -/
def qlockBack (l : ℕ) (t : TaskPtr) (s : Sys Links) : Except Halt (Sys Links × Return) :=
  if (s.qlock l).owner ≠ some t then .error (.abort .qlockOops)
  else .ok (s.emit (.q l (.back t)), .value 1)

def qlock (l : ℕ) (t : TaskPtr) (s : Sys Links) : Sys Links × Return :=
  qlockWith l true (.qlock l) t s

def canqlock (l : ℕ) (t : TaskPtr) (s : Sys Links) : Sys Links × Return :=
  qlockWith l false (.qlock l) t s

def qunlock (l : ℕ) (t : TaskPtr) (s : Sys Links) : Except Halt (Sys Links) :=
  if (s.qlock l).owner = none then .error (.abort .qunlockOwner)
  else
    let s := s.emit (.q l (.release t))
    let s := s.setOwner l (head (.qwaiting l) s)
    match head (.qwaiting l) s with
    | some u => .ok (taskready u (deltask (.qwaiting l) u (s.emit (.q l (.handoff u)))))
    | none => .ok s

/-- `_rlock` up to its switch. -/
def rlockWith (l : ℕ) (block : Bool) (t : TaskPtr) (s : Sys Links) : Sys Links × Return :=
  if (s.rwlock l).writer = none ∧ head (.wwaiting l) s = none then
    ((s.setReaders l ((s.rwlock l).readers + 1)).emit (.rw l (.racquire t)), .value 1)
  else if !block then (s, .value 0)
  else (taskswitch (.rlock l) t (addtask (.rwaiting l) t (s.emit (.rw l (.rblock t)))), .switched)

def rlock (l : ℕ) (t : TaskPtr) (s : Sys Links) : Sys Links × Return := rlockWith l true t s

def canrlock (l : ℕ) (t : TaskPtr) (s : Sys Links) : Sys Links × Return := rlockWith l false t s

/-- `_wlock` up to its switch. -/
def wlockWith (l : ℕ) (block : Bool) (t : TaskPtr) (s : Sys Links) : Sys Links × Return :=
  if (s.rwlock l).writer = none ∧ (s.rwlock l).readers = 0 then
    ((s.setWriter l (some t)).emit (.rw l (.wacquire t)), .value 1)
  else if !block then (s, .value 0)
  else (taskswitch (.wlock l) t (addtask (.wwaiting l) t (s.emit (.rw l (.wblock t)))), .switched)

def wlock (l : ℕ) (t : TaskPtr) (s : Sys Links) : Sys Links × Return := wlockWith l true t s

def canwlock (l : ℕ) (t : TaskPtr) (s : Sys Links) : Sys Links × Return := wlockWith l false t s

/-- The end of `runlock` and of `wunlock`: a lock without readers goes to the first
waiting writer. -/
def wgrant (l : ℕ) (s : Sys Links) : Sys Links :=
  if (s.rwlock l).readers = 0 then
    match head (.wwaiting l) s with
    | some u =>
      taskready u ((deltask (.wwaiting l) u (s.emit (.rw l (.whandoff u)))).setWriter l (some u))
    | none => s
  else s

def runlock (l : ℕ) (t : TaskPtr) (s : Sys Links) : Sys Links :=
  wgrant l ((s.setReaders l ((s.rwlock l).readers - 1)).emit (.rw l (.rrelease t)))

/-- The loop of `wunlock` that admits the waiting readers. -/
def wunlockReaders (l : ℕ) : (fuel : ℕ) → Sys Links → Except Halt (Sys Links)
  | 0, _ => .error .diverge
  | fuel + 1, s =>
    match head (.rwaiting l) s with
    | none => .ok s
    | some u =>
      let s := deltask (.rwaiting l) u (s.emit (.rw l (.rhandoff u)))
      wunlockReaders l fuel (taskready u (s.setReaders l ((s.rwlock l).readers + 1)))

def wunlock (l : ℕ) (t : TaskPtr) (s : Sys Links) : Except Halt (Sys Links) := do
  if (s.rwlock l).writer = none then throw (.abort .wunlockNotLocked)
  let s := (s.setWriter l none).emit (.rw l (.wrelease t))
  if (s.rwlock l).readers ≠ 0 then throw (.abort .wunlockReaders)
  let s := if (head (.rwaiting l) s).isSome then s.emit (.rw l .rbatch) else s
  let s ← wunlockReaders l (s.live.card + 1) s
  return wgrant l s

/-- `tasksleep` up to its switch. -/
def tasksleep (r : ℕ) (t : TaskPtr) (s : Sys Links) : Except Halt (Sys Links × Return) := do
  let s := addtask (.rendez r) t (s.emit (.rendez r (.sleep t)))
  let s ← match (s.rendez r).l with
    | some l => qunlock l t s
    | none => .ok s
  return (taskswitch (.tasksleep r) t s, .switched)

/-- `tasksleep` after its switch, up to the switch of the `qlock` it ends with. -/
def tasksleepBack (r : ℕ) (t : TaskPtr) (s : Sys Links) : Sys Links × Return :=
  match (s.rendez r).l with
  | none => (s.emit (.rendez r (.awake t)), .void)
  | some l =>
    match qlockWith l true (.sleepqlock r l) t s with
    | (s, .switched) => (s, .switched)
    | (s, _) => (s.emit (.rendez r (.awake t)), .void)

/-- `_taskwakeup`; the count `i` of turns so far is what it returns. -/
def taskwakeupWith (r : ℕ) (all : Bool) : (fuel : ℕ) → (i : ℕ) → Sys Links →
    Except Halt (Sys Links × ℕ)
  | 0, _, _ => .error .diverge
  | fuel + 1, i, s =>
    if i = 1 ∧ !all then .ok (s, i)
    else match head (.rendez r) s with
      | none => .ok (s, i)
      | some u =>
        taskwakeupWith r all fuel (i + 1)
          (taskready u (deltask (.rendez r) u (s.emit (.rendez r (.woken u)))))

def taskwakeup (r : ℕ) (s : Sys Links) : Except Halt (Sys Links × ℕ) :=
  taskwakeupWith r false (s.live.card + 1) 0 s

def taskwakeupall (r : ℕ) (s : Sys Links) : Except Halt (Sys Links × ℕ) :=
  taskwakeupWith r true (s.live.card + 1) 0 s

end Libtask
