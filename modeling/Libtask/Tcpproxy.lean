import Libtask.Sockets

/-! The proxy of tcpproxy.c: for each client that connects a task connects to the server, and starts
two more that pass on what comes, one in each direction. -/
namespace Libtask.Tcpproxy
open Function Ownership Sockets

/-- Where a task is between two system calls or calls of the library, with the local variables it
still reads. The loop of `taskmain` is at `netaccept`, that of `rwtask` at `fdread`; `mkfd2` has or
has not got its `a`. -/
inductive Pc
  | taskmain
  | netannounce (p : NetannouncePc)
  | fdnoblock (fd : Fd) (p : FdnoblockPc)
  | netaccept (fd : Fd) (p : NetacceptPc)
  | accepted (fd cfd : Fd)
  | sleeptest
  | proxytask (fd : Fd) (p : NetdialPc)
  | hangup (fd : Fd)
  | mkfd2 (fd remotefd : Fd) (a : Option ℤ)
  | rwtask (fd remotefd : Fd)
  | mkfd2back (fd remotefd : Fd) (a : Option ℤ)
  | rwtaskback (fd remotefd : Fd)
  | fdread (rfd wfd : Fd) (p : FdreadPc)
  | fdwrite (rfd wfd : Fd) (buf : List UInt8) (p : FdwritePc)
  | shutdown (rfd wfd : Fd)
  | close (rfd : Fd)
  | done

/-- What is fixed for a run: the command line, and the block of the first task. -/
structure Setup where
  argc : ℤ
  localport : ℤ
  server : CString
  port : ℤ
  main : TaskPtr
  main_ne : main ≠ 0
  main_aligned : main % 4 = 0

/-- The program has no channels and no rendezvous points. -/
def Setup.program (S : Setup) : Program where
  elemsize _ := 0
  bufsize _ := 0
  elemsize_lt _ := Nat.two_pow_pos 31
  bufsize_lt _ := Nat.two_pow_pos 31
  chanbuf _ _ := 0
  rendezl _ := none
  mem _ := 0
  taskmain := S.main
  taskmain_ne := S.main_ne
  taskmain_aligned := S.main_aligned

/-- `taskmain`, `sleeptest`, `proxytask` and `rwtask`, from where a task is to its next step. -/
def next (S : Setup) (junk : Address) : Pc → Code Pc Pc Unit
  | .taskmain =>
    if S.argc ≠ 4 then .call (.taskexitall 1) .done
    else .spawn .sleeptest (.netannounce .start)
  | .netannounce p => (Sockets.netannounce true none S.localport junk p).andThen .netannounce
      fun fd =>
      if fd < 0 then .call (.taskexitall 1) .done else .goto (.fdnoblock fd.toNat .getfl)
  | .fdnoblock fd p =>
    (Sockets.fdnoblock fd p).andThen (.fdnoblock fd) fun _ => .goto (.netaccept fd .fdwait)
  | .netaccept fd p => (Sockets.netaccept fd p).andThen (.netaccept fd) fun cfd =>
      if cfd ≥ 0 then .goto (.accepted fd cfd.toNat) else .ret ()
  | .accepted fd cfd => .spawn (.proxytask cfd (.netlookup .parseip)) (.netaccept fd .fdwait)
  | .sleeptest => .call (.taskdelay 1000) .sleeptest
  | .proxytask fd p =>
    (Sockets.netdial true S.server S.port junk p).andThen (.proxytask fd) fun remotefd =>
      if remotefd < 0 then .goto (.hangup fd) else .goto (.mkfd2 fd remotefd.toNat none)
  | .hangup fd => .sys (.close fd) fun _ => .done
  | .mkfd2 fd remotefd none => .sys (.malloc 8) fun x => .mkfd2 fd remotefd (some x.ret)
  | .mkfd2 fd remotefd (some a) => if a = 0 then .abort else .goto (.rwtask fd remotefd)
  | .rwtask fd remotefd => .spawn (.fdread fd remotefd .read) (.mkfd2back fd remotefd none)
  | .mkfd2back fd remotefd none => .sys (.malloc 8) fun x => .mkfd2back fd remotefd (some x.ret)
  | .mkfd2back fd remotefd (some a) => if a = 0 then .abort else .goto (.rwtaskback fd remotefd)
  | .rwtaskback fd remotefd => .spawn (.fdread remotefd fd .read) .done
  | .fdread rfd wfd p => (Sockets.fdread rfd 2048 p).andThen (.fdread rfd wfd) fun n =>
      if n.1 > 0 then .goto (.fdwrite rfd wfd n.2 (.write 0)) else .goto (.shutdown rfd wfd)
  | .fdwrite rfd wfd buf p => (Sockets.fdwrite wfd buf p).andThen (.fdwrite rfd wfd buf) fun _ =>
      .goto (.fdread rfd wfd .read)
  | .shutdown rfd wfd => .sys (.shutdown wfd) fun _ => .close rfd
  | .close rfd => .sys (.close rfd) fun _ => .done
  | .done => .ret ()

/-- The descriptors that a task is to close or to hand on. -/
def Pc.holds : Pc → Multiset Fd
  | .netannounce p => p.holds
  | .fdnoblock fd _ => {fd}
  | .netaccept fd p => p.holds + {fd}
  | .accepted fd cfd => {cfd} + {fd}
  | .proxytask fd p => p.holds + {fd}
  | .hangup fd => {fd}
  | .mkfd2 fd remotefd _ | .rwtask fd remotefd => {remotefd} + {fd}
  | .mkfd2back _ remotefd _ | .rwtaskback _ remotefd => {remotefd}
  | .fdread rfd _ _ | .fdwrite rfd _ _ _ | .shutdown rfd _ | .close rfd => {rfd}
  | .taskmain | .sleeptest | .done => 0

/-- The descriptor that `rwtask` reads from. -/
def Pc.rfd : Pc → Option Fd
  | .fdread rfd _ _ | .fdwrite rfd _ _ _ | .shutdown rfd _ | .close rfd => some rfd
  | _ => none

/-- What happens, in terms of the connections that descriptors stand for: one is given to a
`proxytask`, a task begins to read from one and write to another, reads, writes, shuts down, and one
is closed. What is written is what was accepted; a write fails if `fdwrite` gives up on it. -/
inductive Event
  | proxy (k : Option ℕ)
  | relay (k k' : Option ℕ)
  | read (k : Option ℕ) (bytes : List UInt8)
  | write (k k' : Option ℕ) (bytes : List UInt8) (failed : Bool)
  | shutdown (k k' : Option ℕ)
  | close (k : Option ℕ)
  deriving DecidableEq

/-- What a request of a task that reads from `k` is recorded as. -/
def requested (conn : Fd → Option ℕ) (k : Option ℕ) : Request → Reply → List Event
  | .read fd _, x => [.read (conn fd) x.bytes]
  | .write fd bytes, x => [.write k (conn fd) (bytes.take x.ret.toNat)
      (decide (x.ret ≤ 0 ∧ ¬(x.ret < 0 ∧ x.errno = EAGAIN)))]
  | .shutdown fd, _ => [.shutdown k (conn fd)]
  | .close fd, _ => [.close (conn fd)]
  | _, _ => []

/-- What the creation of a task is recorded as. -/
def created (conn : Fd → Option ℕ) : Pc → List Event
  | .proxytask fd _ => [.proxy (conn fd)]
  | .fdread rfd wfd _ => [.relay (conn rfd) (conn wfd)]
  | _ => []

/-- The state of the program: that of the library, where each task is, the open descriptors, what
the tasks that returned have left open, whether it has aborted, and what has happened, the latest
first. -/
structure State where
  sys : Sys Links
  pc : TaskPtr → Option Pc
  fds : Table Fd
  leaked : Multiset Fd
  aborted : Bool
  log : List Event

/-- What a step gets from outside: that of the library, what the stack holds where `parseip` sets
nothing, and the reply of the operating system. -/
structure Input where
  env : Env
  junk : Address
  reply : Reply

/-- User code of a task at `p` up to its next step; a task that returns exits. -/
def user (S : Setup) (x : Input) (t : TaskPtr) (p : Pc) (st : State) : Option State :=
  match next S x.junk p with
  | .sys r k =>
    if Answers st.fds r x.reply then some { st with
      pc := update st.pc t (some (k x.reply))
      fds := (effect r x.reply).act st.fds
      log := requested st.fds.conn (p.rfd.bind st.fds.conn) r x.reply ++ st.log }
    else none
  | .call c k => (step (x.env, .call c) st.sys).map fun sys =>
      { st with sys, pc := update st.pc t (some k) }
  | .spawn task k => (step (x.env, .call (.taskcreate .user)) st.sys).map fun sys =>
      if x.env.malloc = 0 then { st with sys }
      else { st with
        sys
        pc := update (update st.pc t (some k)) x.env.malloc (some task)
        log := created st.fds.conn task ++ st.log }
  | .goto k => some { st with pc := update st.pc t (some k) }
  | .abort => some { st with aborted := true }
  | .ret _ => (step (x.env, .call (.taskexit 0)) st.sys).map fun sys =>
      { st with sys, pc := update st.pc t none, leaked := p.holds + st.leaked }

/-- One step of the program. -/
def turn (S : Setup) (x : Input) (st : State) : Option State :=
  if st.aborted then none
  else match st.sys.control, st.sys.taskrunning with
    | .scheduler, _ => (step (x.env, .schedule) st.sys).map fun sys => { st with sys }
    | .resume, _ => (step (x.env, .resume) st.sys).map fun sys => { st with sys }
    | .user, some t => st.pc t >>= fun p => user S x t p st
    | _, _ => none

/-- The program as it starts, with no descriptor of a connection open. -/
def Setup.start (S : Setup) : State where
  sys := S.program.boot
  pc := update (fun _ => none) S.main (some .taskmain)
  fds := { conn := fun _ => none, count := 0 }
  leaked := 0
  aborted := false
  log := []

end Libtask.Tcpproxy
