import Libtask.Base.Numeral
import Libtask.Print

/-! Addresses as text (net.c). -/
namespace Libtask

/-- The four bytes of an address, in the order of the network. -/
abbrev Address := Vector (BitVec 8) 4

/-- `strtoul(p, &p, 0)` where `unsigned long` has 32 bits: the value and the new `p`. Without a
number the value is zero and `p` stays. -/
def strtoul (p : List Char) : ℕ × List Char :=
  match Numeral.read p with
  | some r => (r.unsigned 32, r.rest)
  | none => (0, p)

/-- The loop of `parseip` with `n` turns to go. -/
def parseLoop : (n i : ℕ) → (p : List Char) → (addr : Address) → Option (ℕ × Address)
  | 0, i, _, addr => some (i, addr)
  | n + 1, i, p, addr =>
    if p = [] then some (i, addr)
    else
      let r := strtoul p
      let x := int32 r.1
      let p := r.2
      if x < 0 ∨ x ≥ 256 then none
      else if p.head? ≠ some '.' ∧ p ≠ [] then none
      else
        let p := if p.head? = some '.' then p.tail else p
        parseLoop n (i + 1) p (addr.setIfInBounds i (BitVec.ofInt 8 x))

/-- `CLASS(addr)` -/
def CLASS (addr : Address) : ℕ := (addr[0] >>> 6).toNat

/-- The switch of `parseip`, with `i` bytes stored by the loop: the bytes in between are filled. -/
def parseSwitch (i : ℕ) (addr : Address) : Option Address :=
  match CLASS addr with
  | 0 | 1 =>
    if i = 3 then
      let addr := addr.set 3 addr[2]
      let addr := addr.set 2 addr[1]
      some (addr.set 1 0)
    else if i = 2 then
      let addr := addr.set 3 addr[1]
      let addr := addr.set 2 0
      some (addr.set 1 0)
    else if i ≠ 4 then none
    else some addr
  | 2 =>
    if i = 3 then
      let addr := addr.set 3 addr[2]
      some (addr.set 2 0)
    else if i ≠ 4 then none
    else some addr
  | _ => some addr

/-- `parseip(name, ip)`: what it stores, if it returns zero. The local `addr` is not initialised:
it is given with whatever it holds. -/
def parseip (name : CString) (addr : Address) : Option Address := do
  let (i, addr) ← parseLoop 4 0 name.chars addr
  parseSwitch i addr

/-- `netlookup(name, ip)`, with the answers of the name service. -/
def netlookup (gethostbyname : CString → Option Address) (name : CString) (addr : Address) :
    Option Address :=
  match parseip name addr with
  | some ip => some ip
  | none => gethostbyname name

/-- `"%d.%d.%d.%d"` -/
def addressFormat : CString := ⟨"%d.%d.%d.%d".toList, by decide, by decide⟩

/-- `netaccept` prints the address of its peer into the 16 bytes of `server`. -/
def netacceptServer (env : PrintEnv) (server : Vector Char 16) (ip : Address) :
    Except PrintFault (List Char) :=
  vsnprint env 16 server addressFormat (ip.toList.map fun b => .word (b.setWidth 32))

end Libtask
