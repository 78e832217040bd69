import Libtask.Task

/-! Channels (channel.c). Only the last line of `altexec` and the switch of `chanalt` touch
a task list; the rest is stated for any representation of the lists. -/
namespace Libtask
open Function

variable {σ : Type}

/-- A value as an `unsigned int` holds it. -/
def u32 (n : ℕ) : ℕ := n % 2 ^ 32

/-- `chancreate`, `buf` being whatever the block from `malloc` holds. -/
def chancreate (elemsize bufsize : ℕ) (buf : ℕ → UInt8) : Channel where
  bufsize := bufsize
  elemsize := elemsize
  buf := buf
  nbuf := 0
  off := 0
  asend := []
  arecv := []

/-- `sizeof(Channel)` with four-byte words and pointers: five of them, two `Altarray`s of three
each, and the name. -/
def sizeofChannel : ℕ := 48

/-- The bytes `chancreate` asks `malloc` for. -/
def chancreateSize (elemsize bufsize : ℕ) : ℕ := u32 (sizeofChannel + u32 (bufsize * elemsize))

/-- `delarray` on the `n` entries of an array: the last entry moves to position `i`. -/
def delarray {α : Type} (a : List α) (i : ℕ) : List α :=
  match a.getLast? with
  | some x => (a.set i x).dropLast
  | none => a

def otherop : Op → Op
  | .CHANSND => .CHANRCV
  | .CHANRCV => .CHANSND
  | .CHANEND => .CHANNOP
  | .CHANNOP => .CHANEND
  -- 3 - 4 is no enumerator; `chanarray` answers nil to it as to the two above
  | .CHANNOBLK => .CHANNOBLK

def chanarray (c : Channel) : Op → Option (List AltPtr)
  | .CHANSND => some c.asend
  | .CHANRCV => some c.arecv
  | _ => none

def setChanarray (op : Op) (a : List AltPtr) (c : Channel) : Channel :=
  match op with
  | .CHANSND => { c with asend := a }
  | .CHANRCV => { c with arecv := a }
  | _ => c

def Sys.setChan (c : ℕ) (x : Channel) (s : Sys σ) : Sys σ :=
  { s with chan := update s.chan c x }

/-- Read through an `Alt *`; reading outside the array is undefined. -/
def Sys.deref (s : Sys σ) (p : AltPtr) : Except Halt Alt :=
  match s.alt? p with
  | some x => .ok x
  | none => .error .fault

def altcanexec (s : Sys σ) (p : AltPtr) : Bool :=
  match s.alt? p with
  | none => false
  | some a =>
    if a.op = .CHANNOP then false
    else
      let c := s.chan a.c
      if c.bufsize = 0 then
        match chanarray c (otherop a.op) with
        | some ar => ar.length ≠ 0
        | none => false
      else match a.op with
        | .CHANSND => c.nbuf < c.bufsize
        | .CHANRCV => c.nbuf > 0
        | _ => false

def altqueue (p : AltPtr) (s : Sys σ) : Except Halt (Sys σ) := do
  let a ← s.deref p
  match chanarray (s.chan a.c) a.op with
  | some ar => return s.setChan a.c (setChanarray a.op (ar ++ [p]) (s.chan a.c))
  | none => throw .fault

def altdequeue (p : AltPtr) (s : Sys σ) : Except Halt (Sys σ) := do
  let a ← s.deref p
  match chanarray (s.chan a.c) a.op with
  | none => throw (.abort .altdequeueOp)
  | some ar =>
    match ar.idxOf? p with
    | some i => return s.setChan a.c (setChanarray a.op (delarray ar i) (s.chan a.c))
    | none => throw (.abort .altdequeueSelf)

def isAltend (op : Op) : Bool := op = .CHANEND || op = .CHANNOBLK

/-- The loop of `altalldequeue` from `&a[i]` on, `as` being the array from there. -/
def altalldequeueFrom (p : AltPtr) : List Alt → Sys σ → Except Halt (Sys σ)
  | [], _ => .error .fault
  | a :: as, s =>
    if isAltend a.op then .ok s
    else do
      let s ← if a.op ≠ .CHANNOP then altdequeue p s else .ok s
      altalldequeueFrom { p with idx := p.idx + 1 } as s

def altalldequeue (p : AltPtr) (s : Sys σ) : Except Halt (Sys σ) :=
  altalldequeueFrom p ((s.alts p.base).drop p.idx) s

/-- The `n` bytes at an address of a memory object. -/
def readBytes (mem : ℕ → UInt8) (a n : ℕ) : List UInt8 :=
  (List.range n).map fun i => mem (a + i)

def writeBytes (mem : ℕ → UInt8) (a : ℕ) (bytes : List UInt8) : ℕ → UInt8 := fun x =>
  if a ≤ x ∧ x < a + bytes.length then bytes.getD (x - a) 0 else mem x

/-- The bytes `amove` copies from `src`: zeros when it is nil. -/
def amoveSource (mem : ℕ → UInt8) (src : Option ℕ) (n : ℕ) : List UInt8 :=
  match src with
  | none => List.replicate n 0
  | some a => readBytes mem a n

/-- `amove` of these bytes to `dst`, which may be nil. -/
def amove (dst : Option ℕ) (bytes : List UInt8) (mem : ℕ → UInt8) : ℕ → UInt8 :=
  match dst with
  | none => mem
  | some a => writeBytes mem a bytes

/-- `altcopy` straight from a sender to a receiver. -/
def altcopyDirect (c : ℕ) (p : AltPtr) (snd : Alt) (q : AltPtr) (rcv : Alt) (s : Sys σ) : Sys σ :=
  let bytes := amoveSource s.mem snd.v (s.chan c).elemsize
  ({ s with mem := amove rcv.v bytes s.mem }.emit (.chan c (.sent p bytes))).emit
    (.chan c (.rcvd q bytes))

/-- The part of `altcopy` that serves a receiver from the buffer. -/
def altcopyRecv (c : ℕ) (q : AltPtr) (rcv : Alt) (s : Sys σ) : Sys σ :=
  let x := s.chan c
  let bytes := readBytes x.buf (u32 (x.off * x.elemsize)) x.elemsize
  let x := { x with
    nbuf := u32 (x.nbuf + (2 ^ 32 - 1))
    off := if u32 (x.off + 1) = x.bufsize then 0 else u32 (x.off + 1) }
  { s.setChan c x with mem := amove rcv.v bytes s.mem }.emit (.chan c (.rcvd q bytes))

/-- The part of `altcopy` that puts a sender's element into the buffer. -/
def altcopySend (c : ℕ) (p : AltPtr) (snd : Alt) (s : Sys σ) : Except Halt (Sys σ) :=
  let x := s.chan c
  if x.bufsize = 0 then .error .fault
  else
    let bytes := amoveSource s.mem snd.v x.elemsize
    let cp := u32 (u32 (x.off + x.nbuf) % x.bufsize * x.elemsize)
    let x := { x with buf := writeBytes x.buf cp bytes, nbuf := u32 (x.nbuf + 1) }
    .ok ((s.setChan c x).emit (.chan c (.sent p bytes)))

def altcopy (a b : Option AltPtr) (s : Sys σ) : Except Halt (Sys σ) :=
  match a, b with
  | none, none => .ok s
  | none, some _ => .error (.abort .assertFailed)
  | some p, b => do
    let x ← s.deref p
    let (snd, rcv) := if x.op = .CHANRCV then (b, some p) else (some p, b)
    match snd, rcv with
    | some p, some q => do
      let y ← s.deref p
      let z ← s.deref q
      if y.op ≠ .CHANSND ∨ z.op ≠ .CHANRCV then throw (.abort .assertFailed)
      if (s.chan x.c).nbuf = 0 then return altcopyDirect x.c p y q z s
      altcopySend x.c p y (altcopyRecv x.c q z s)
    | none, some q => do
      let z ← s.deref q
      if z.op ≠ .CHANRCV then throw (.abort .assertFailed)
      return altcopyRecv x.c q z s
    | some p, none => do
      let y ← s.deref p
      if y.op ≠ .CHANSND then throw (.abort .assertFailed)
      altcopySend x.c p y s
    | none, none => return s

/-- `altexec` but for its last line: the result names the task to ready, if any. -/
def altexecMatch (p : AltPtr) (rand : ℕ) (s : Sys σ) : Except Halt (Sys σ × Option TaskPtr) := do
  let a ← s.deref p
  match chanarray (s.chan a.c) (otherop a.op) with
  | some (o :: os) =>
    let other := (o :: os).getD (rand % (o :: os).length) o
    let s ← altcopy (some p) (some other) s
    let x ← s.deref other
    let s ← altalldequeue x.xalt s
    let as := (s.alts x.xalt.base).modify x.xalt.idx fun y => { y with xalt := other }
    let s := { s with alts := update s.alts x.xalt.base as }
    return (s, some x.task)
  | _ =>
    return (← altcopy (some p) none s, none)

def altexec (p : AltPtr) (rand : ℕ) (s : Sys Links) : Except Halt (Sys Links) := do
  match ← altexecMatch p rand s with
  | (s, some u) => return taskready u s
  | (s, none) => return s

/-- The index of the terminator of an alt array. -/
def altlen (as : List Alt) : ℕ := (as.takeWhile fun a => !isAltend a.op).length

/-- The loop of `chanalt` that stamps the branches with the caller and the array. -/
def altstamp (base : ℕ) (t : TaskPtr) (s : Sys σ) : Sys σ :=
  let as := s.alts base
  let stamp (a : Alt) : Alt := { a with task := t, xalt := ⟨base, 0⟩ }
  let as := (as.take (altlen as)).map stamp ++ as.drop (altlen as)
  { s with alts := update s.alts base as }

def altncan (base : ℕ) (s : Sys σ) (n : ℕ) : ℕ :=
  (List.range n).countP fun i => altcanexec s ⟨base, i⟩

/-- The selection loop of `chanalt` over the branches `is`, with `j` still to be skipped. -/
def altselect (base : ℕ) (s : Sys σ) : (j : ℕ) → (is : List ℕ) → Option ℕ
  | _, [] => none
  | j, i :: is =>
    if altcanexec s ⟨base, i⟩ then
      if j = 0 then some i else altselect base s (j - 1) is
    else altselect base s j is

/-- The loop of `chanalt` that queues every branch but the `CHANNOP`s. -/
def altqueueAll (base : ℕ) : List ℕ → Sys σ → Except Halt (Sys σ)
  | [], s => .ok s
  | i :: is, s => do
    let a ← s.deref ⟨base, i⟩
    let s ← if a.op ≠ .CHANNOP then altqueue ⟨base, i⟩ s else .ok s
    altqueueAll base is s

/-- The branch `chanalt` executes at once, if any. -/
def altpick (base : ℕ) (s : Sys σ) (n rand : ℕ) : Option ℕ :=
  if altncan base s n ≠ 0 then altselect base s (rand % altncan base s n) (List.range n) else none

/-- `chanalt` up to its switch, on the array that is the object `base`. -/
def chanalt (base : ℕ) (rand₁ rand₂ : ℕ) (t : TaskPtr) (s : Sys Links) :
    Except Halt (Sys Links × Return) := do
  let n := altlen (s.alts base)
  let canblock := ((s.alts base)[n]?).any (·.op = .CHANEND)
  let s := altstamp base t s
  match altpick base s n rand₁ with
  | some i =>
    let s ← altexec ⟨base, i⟩ rand₂ s
    return (s.emit (.altret t base i), .value i)
  | none =>
    if !canblock then return (s.emit (.altret t base (-1)), .value (-1))
    let s ← altqueueAll base (List.range n) s
    return (taskswitch (.chanalt base) t s, .switched)

/-- `chanalt` after its switch: `a[0].xalt - a`, undefined between two arrays. -/
def chanaltBack (base : ℕ) (t : TaskPtr) (s : Sys σ) : Except Halt (Sys σ × Return) := do
  let x ← s.deref ⟨base, 0⟩
  if x.xalt.base ≠ base then throw .fault
  return (s.emit (.altret t base x.xalt.idx), .value x.xalt.idx)

/-- The array `_chanop` builds for `chanalt`; the stack words it leaves unset are `junk`. -/
def chanopArray (c : ℕ) (op : Op) (p : Option ℕ) (canblock : Bool) (junk : Alt) : List Alt :=
  [{ junk with c := c, op := op, v := p },
   { junk with op := if canblock then .CHANEND else .CHANNOBLK }]

/-- What `_chanop` makes of the result of `chanalt`. -/
def chanopResult (i : ℤ) : ℤ := if i < 0 then -1 else 1

end Libtask
