import Libtask.Base.Ownership
import Libtask.Fdio
import Libtask.Net

/-! Reading, writing and connecting (fd.c, net.c), one system call or one call of the library at a
time. What the operating system replies is given. -/
namespace Libtask.Sockets
open Ownership

/-- A descriptor that is not negative. -/
abbrev Fd := ℕ

def O_NONBLOCK : BitVec 32 := 0x800
def EINPROGRESS : ℕ := 115

/-- The options of sockets that are read or set, each on its own level. -/
inductive Sockopt
  | SO_TYPE
  | SO_REUSEADDR
  | SO_BROADCAST
  | SO_ERROR
  | TCP_NODELAY
  deriving DecidableEq

/-- What a program asks for. A port is as `htons` gets it. -/
inductive Request
  | malloc (n : ℕ)
  | gethostbyname (name : CString)
  | socket (stream : Bool)
  | getsockopt (fd : Fd) (o : Sockopt)
  | setsockopt (fd : Fd) (o : Sockopt)
  | bind (fd : Fd) (ip : Address) (port : BitVec 16)
  | listen (fd : Fd) (backlog : ℕ)
  | accept (fd : Fd)
  | connect (fd : Fd) (ip : Address) (port : BitVec 16)
  | getpeername (fd : Fd)
  | getfl (fd : Fd)
  | setfl (fd : Fd) (flags : BitVec 32)
  | read (fd : Fd) (n : ℕ)
  | write (fd : Fd) (bytes : List UInt8)
  | shutdown (fd : Fd)
  | close (fd : Fd)
  deriving DecidableEq

/-- A reply: the result, `errno` if that is negative, the bytes read, and the address found. -/
structure Reply where
  ret : ℤ
  errno : ℕ
  bytes : List UInt8
  addr : Option Address

/-- What a function at a place in `π` does next: ask the operating system, call the library, start a
task `τ`, or return a `ρ`. -/
abbrev Code (τ π ρ : Type) : Type := Next Request Reply Call τ π ρ

/-- What a request does to the descriptors. -/
def effect : Request → Reply → Effect Fd
  | .socket _, x | .accept _, x => if x.ret < 0 then .keep else .acquire x.ret.toNat
  | .close fd, _ => .release fd
  | _, _ => .keep

/-- What the operating system does: it opens only descriptors that are not open, reads and writes no
more than it is asked for, and refuses to do that on a descriptor that is not open. -/
def Answers (T : Table Fd) : Request → Reply → Prop
  | .read fd n, x => x.ret ≤ n ∧ x.bytes.length = x.ret.toNat ∧
      (T.conn fd = none → x.ret < 0 ∧ x.errno ≠ EAGAIN)
  | .write fd bytes, x => x.ret ≤ bytes.length ∧
      (T.conn fd = none → x.ret < 0 ∧ x.errno ≠ EAGAIN)
  | r, x => (effect r x).Possible T

instance (T : Table Fd) (r : Request) (x : Reply) : Decidable (Answers T r x) := by
  unfold Answers
  split <;> infer_instance

section
variable {τ : Type}

inductive FdreadPc
  | read
  | fdwait
  | done (m : ℤ) (buf : List UInt8)

/-- `fdread(fd, buf, n)` from `read` on, and `fdread1(fd, buf, n)` from `fdwait` on: the result and
what `buf` holds. -/
def fdread (fd : Fd) (n : ℕ) : FdreadPc → Code τ FdreadPc (ℤ × List UInt8)
  | .read => .sys (.read fd n) fun x =>
      if x.ret < 0 ∧ x.errno = EAGAIN then .fdwait else .done x.ret x.bytes
  | .fdwait => .call (.fdwait fd 'r') .read
  | .done m buf => .ret (m, buf)

inductive FdwritePc
  | write (tot : ℕ)
  | fdwait (tot : ℕ)
  | done (v : ℤ)

/-- `fdwrite(fd, buf, n)` with the `n` bytes `buf`, from `write 0` on. -/
def fdwrite (fd : Fd) (buf : List UInt8) : FdwritePc → Code τ FdwritePc ℤ
  | .write tot =>
    if tot < buf.length then .sys (.write fd (buf.drop tot)) fun x =>
      if x.ret < 0 ∧ x.errno = EAGAIN then .fdwait tot
      else if x.ret < 0 then .done x.ret
      else if x.ret = 0 then .done tot
      else .write (tot + x.ret.toNat)
    else .ret tot
  | .fdwait tot => .call (.fdwait fd 'w') (.write tot)
  | .done v => .ret v

inductive FdnoblockPc
  | getfl
  | setfl (flags : ℤ)
  | done (v : ℤ)

def fdnoblock (fd : Fd) : FdnoblockPc → Code τ FdnoblockPc ℤ
  | .getfl => .sys (.getfl fd) fun x => .setfl x.ret
  | .setfl flags => .sys (.setfl fd (BitVec.ofInt 32 flags ||| O_NONBLOCK)) fun x => .done x.ret
  | .done v => .ret v

inductive NetlookupPc
  | parseip
  | done (ip : Option Address)

/-- `netlookup(name, ip)`; the local `addr` of `parseip` holds `junk`. -/
def netlookup (name : CString) (junk : Address) : NetlookupPc → Code τ NetlookupPc (Option Address)
  | .parseip =>
    match parseip name junk with
    | some ip => .ret ip
    | none => .sys (.gethostbyname name) fun x => .done x.addr
  | .done ip => .ret ip

/-- Where a function goes on after `socket` or `accept`. -/
def opened {π : Type} (x : Reply) (failed : π) (k : Fd → π) : π :=
  if x.ret < 0 then failed else k x.ret.toNat

inductive NetannouncePc
  | start
  | netlookup (name : CString) (p : NetlookupPc)
  | socket (ip : Address)
  | getsockopt (fd : Fd) (ip : Address)
  | setsockopt (fd : Fd) (ip : Address)
  | bind (fd : Fd) (ip : Address)
  | close (fd : Fd)
  | listen (fd : Fd)
  | fdnoblock (fd : Fd) (p : FdnoblockPc)
  | done (v : ℤ)

/-- The descriptors that a function has opened and not closed so far, or is to return. -/
def held (v : ℤ) : Multiset Fd := if v < 0 then 0 else {v.toNat}

def NetannouncePc.holds : NetannouncePc → Multiset Fd
  | .getsockopt fd _ | .setsockopt fd _ | .bind fd _ | .close fd | .listen fd | .fdnoblock fd _ =>
    {fd}
  | .done v => held v
  | _ => 0

/-- `netannounce(istcp, server, port)`, where `server` may be nil; `sa` is cleared at first. -/
def netannounce (istcp : Bool) (server : Option CString) (port : ℤ) (junk : Address) :
    NetannouncePc → Code τ NetannouncePc ℤ
  | .start =>
    match server with
    | none => .goto (.socket #v[0, 0, 0, 0])
    | some name =>
      if name.chars = ['*'] then .goto (.socket #v[0, 0, 0, 0])
      else .goto (.netlookup name .parseip)
  | .netlookup name p => (netlookup name junk p).andThen (.netlookup name) fun
      | none => .ret (-1)
      | some ip => .goto (.socket ip)
  | .socket ip => .sys (.socket istcp) fun x => opened x (.done (-1)) fun fd =>
      if istcp then .getsockopt fd ip else .bind fd ip
  | .getsockopt fd ip => .sys (.getsockopt fd .SO_TYPE) fun x =>
      if x.ret ≥ 0 then .setsockopt fd ip else .bind fd ip
  | .setsockopt fd ip => .sys (.setsockopt fd .SO_REUSEADDR) fun _ => .bind fd ip
  | .bind fd ip => .sys (.bind fd ip (BitVec.ofInt 16 port)) fun x =>
      if x.ret < 0 then .close fd else if istcp then .listen fd else .fdnoblock fd .getfl
  | .close fd => .sys (.close fd) fun _ => .done (-1)
  | .listen fd => .sys (.listen fd 16) fun _ => .fdnoblock fd .getfl
  | .fdnoblock fd p => (fdnoblock fd p).andThen (.fdnoblock fd) fun _ => .ret fd
  | .done v => .ret v

inductive NetacceptPc
  | fdwait
  | accept
  | fdnoblock (cfd : Fd) (p : FdnoblockPc)
  | setsockopt (cfd : Fd)
  | done (v : ℤ)

def NetacceptPc.holds : NetacceptPc → Multiset Fd
  | .fdnoblock cfd _ | .setsockopt cfd => {cfd}
  | .done v => held v
  | _ => 0

/-- `netaccept(fd, server, port)`, but for what it stores of the peer. -/
def netaccept (fd : Fd) : NetacceptPc → Code τ NetacceptPc ℤ
  | .fdwait => .call (.fdwait fd 'r') .accept
  | .accept => .sys (.accept fd) fun x => opened x (.done (-1)) fun cfd => .fdnoblock cfd .getfl
  | .fdnoblock cfd p => (fdnoblock cfd p).andThen (.fdnoblock cfd) fun _ => .goto (.setsockopt cfd)
  | .setsockopt cfd => .sys (.setsockopt cfd .TCP_NODELAY) fun _ => .done cfd
  | .done v => .ret v

inductive NetdialPc
  | netlookup (p : NetlookupPc)
  | socket (ip : Address)
  | fdnoblock (fd : Fd) (ip : Address) (p : FdnoblockPc)
  | setsockopt (fd : Fd) (ip : Address)
  | connect (fd : Fd) (ip : Address)
  | fdwait (fd : Fd)
  | getpeername (fd : Fd)
  | getsockopt (fd : Fd)
  | close (fd : Fd)
  | done (v : ℤ)

def NetdialPc.holds : NetdialPc → Multiset Fd
  | .fdnoblock fd _ _ | .setsockopt fd _ | .connect fd _ | .fdwait fd | .getpeername fd
  | .getsockopt fd | .close fd => {fd}
  | .done v => held v
  | _ => 0

/-- `netdial(istcp, server, port)`, but for the `errno` it leaves. -/
def netdial (istcp : Bool) (server : CString) (port : ℤ) (junk : Address) :
    NetdialPc → Code τ NetdialPc ℤ
  | .netlookup p => (netlookup server junk p).andThen .netlookup fun
      | none => .ret (-1)
      | some ip => .goto (.socket ip)
  | .socket ip => .sys (.socket istcp) fun x =>
      opened x (.done (-1)) fun fd => .fdnoblock fd ip .getfl
  | .fdnoblock fd ip p => (fdnoblock fd p).andThen (.fdnoblock fd ip) fun _ =>
      if istcp then .goto (.connect fd ip) else .goto (.setsockopt fd ip)
  | .setsockopt fd ip => .sys (.setsockopt fd .SO_BROADCAST) fun _ => .connect fd ip
  | .connect fd ip => .sys (.connect fd ip (BitVec.ofInt 16 port)) fun x =>
      if x.ret < 0 ∧ x.errno ≠ EINPROGRESS then .close fd else .fdwait fd
  | .fdwait fd => .call (.fdwait fd 'w') (.getpeername fd)
  | .getpeername fd => .sys (.getpeername fd)
    fun x => if x.ret ≥ 0 then .done fd else .getsockopt fd
  | .getsockopt fd => .sys (.getsockopt fd .SO_ERROR) fun _ => .close fd
  | .close fd => .sys (.close fd) fun _ => .done (-1)
  | .done v => .ret v

end
end Libtask.Sockets
