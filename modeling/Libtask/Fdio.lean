import Libtask.Machine

/-! Writing to a descriptor that does not block (fd.c). The function runs in user code: it is
followed through the outcomes of its calls of `write(2)`, and calls `fdwait` in between. -/
namespace Libtask

def EAGAIN : ℕ := 11

/-- What a call of `write` comes to: bytes accepted, or -1 with an `errno`. -/
inductive WriteResult
  | ok (m : ℕ)
  | error (errno : ℕ)
  deriving DecidableEq

/-- What `fdwrite` does: call `write` with `len` bytes from `buf + off` on, or call the library. -/
inductive FdAct
  | write (off len : ℕ) (r : WriteResult)
  | call (c : Call)

/-- The inner loop of `fdwrite`, given the outcomes of `write` to come: the outcome it ends with,
what was done, and the outcomes left; nothing if it is still waiting. -/
def fdwriteRetry (fd : ℤ) (off len : ℕ) :
    List WriteResult → Option (WriteResult × List FdAct × List WriteResult)
  | [] => none
  | r :: rs =>
    if r = .error EAGAIN then do
      let (r', acts, rs) ← fdwriteRetry fd off len rs
      return (r', .write off len r :: .call (.fdwait fd 'w') :: acts, rs)
    else some (r, [.write off len r], rs)

/-- The outer loop of `fdwrite` with `tot` bytes written; each turn uses up an outcome. -/
def fdwriteLoop (fd : ℤ) (n : ℕ) :
    (fuel : ℕ) → (tot : ℕ) → List WriteResult → Option (ℤ × List FdAct)
  | 0, _, _ => none
  | fuel + 1, tot, rs =>
    if tot < n then do
      let (r, acts, rs) ← fdwriteRetry fd tot (n - tot) rs
      match r with
      | .error _ => return (-1, acts)
      | .ok m =>
        if m = 0 then return (tot, acts)
        let (v, acts') ← fdwriteLoop fd n fuel (tot + m) rs
        return (v, acts ++ acts')
    else some (tot, [])

/-- `fdwrite(fd, buf, n)`, if it returns within the outcomes `rs` of its calls of `write`. -/
def fdwrite (fd : ℤ) (n : ℕ) (rs : List WriteResult) : Option (ℤ × List FdAct) :=
  fdwriteLoop fd n (rs.length + 1) 0 rs

end Libtask
