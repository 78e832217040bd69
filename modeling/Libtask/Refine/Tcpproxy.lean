import Libtask.Refine.Sockets
import Libtask.Tcpproxy

/-! What the tasks of the proxy know about the connections that their descriptors stand for, and
that no other task takes this from them. -/
namespace Libtask.Tcpproxy
open Function Ownership Sockets Runs

/-- The connection that a task concerns itself with. -/
def Event.subject : Event → Option ℕ
  | .proxy _ => none
  | .relay k _ | .read k _ | .write k _ _ _ | .shutdown k _ | .close k => k

/-- What has been read from the connection `i`. -/
def got (i : ℕ) : List Event → List UInt8
  | [] => []
  | .read k bytes :: older => got i older ++ if k = some i then bytes else []
  | _ :: older => got i older

/-- What has been written of that. -/
def written (i : ℕ) : List Event → List UInt8
  | [] => []
  | .write k _ bytes _ :: older => written i older ++ if k = some i then bytes else []
  | _ :: older => written i older

/-- No write of what came from the connection `i` has failed. -/
def Unfailed (i : ℕ) (log : List Event) : Prop :=
  ∀ k bytes, .write (some i) k bytes true ∉ log

/-- Nothing has been done with the connection `i`. -/
def Unused (i : ℕ) (log : List Event) : Prop := ∀ e ∈ log, e.subject ≠ some i

/-- Of what came from the connection `i` only `rest` is still to be written, but for what was lost
when a write failed. -/
structure Passed (i : ℕ) (rest : List UInt8) (log : List Event) : Prop where
  part : (written i log ++ rest).Sublist (got i log)
  whole : Unfailed i log → written i log ++ rest = got i log

section Histories
variable {i j : ℕ} {e : Event} {evs log : List Event} {rest : List UInt8}

theorem got_append (h : ∀ e ∈ evs, e.subject ≠ some i) : got i (evs ++ log) = got i log := by
  induction evs with
  | nil => rfl
  | cons e evs ih =>
    have hold := ih fun e he => h e (List.mem_cons_of_mem _ he)
    have hself : e.subject ≠ some i := h e List.mem_cons_self
    cases e with
    | read k bytes =>
      have hk : k ≠ some i := hself
      simp only [List.cons_append, got, if_neg hk, List.append_nil, hold]
    | _ => exact hold

theorem written_append (h : ∀ e ∈ evs, e.subject ≠ some i) :
    written i (evs ++ log) = written i log := by
  induction evs with
  | nil => rfl
  | cons e evs ih =>
    have hold := ih fun e he => h e (List.mem_cons_of_mem _ he)
    have hself : e.subject ≠ some i := h e List.mem_cons_self
    cases e with
    | write k k' bytes failed =>
      have hk : k ≠ some i := hself
      simp only [List.cons_append, written, if_neg hk, List.append_nil, hold]
    | _ => exact hold

theorem unfailed_append (h : ∀ e ∈ evs, e.subject ≠ some i) :
    Unfailed i (evs ++ log) ↔ Unfailed i log := by
  refine ⟨fun hu k bytes hm => hu k bytes (List.mem_append_right evs hm), fun hu k bytes hm => ?_⟩
  rcases List.mem_append.mp hm with hm | hm
  · exact h _ hm rfl
  · exact hu k bytes hm

theorem Unfailed.tail (h : Unfailed i (e :: log)) : Unfailed i log :=
  fun k bytes hm => h k bytes (List.mem_cons_of_mem e hm)

theorem Passed.append (h : Passed i rest log) (he : ∀ e ∈ evs, e.subject ≠ some i) :
    Passed i rest (evs ++ log) where
  part := by
    rw [got_append he, written_append he]
    exact h.part
  whole := by
    rw [got_append he, written_append he, unfailed_append he]
    exact h.whole

theorem Unused.append (h : Unused i log) (he : ∀ e ∈ evs, e.subject ≠ some i) :
    Unused i (evs ++ log) := by
  intro e hm
  rcases List.mem_append.mp hm with hm | hm
  · exact he e hm
  · exact h e hm

/-- Nothing has come from an unused connection. -/
theorem Unused.passed (h : Unused i log) : Passed i [] log := by
  have hg : got i log = [] := by rw [← List.append_nil log, got_append h]; rfl
  have hw : written i log = [] := by rw [← List.append_nil log, written_append h]; rfl
  constructor
  case part => simp [hg, hw]
  case whole => simp [hg, hw]

end Histories

/-- A task holds `d`, which stands for a connection that has not been used. -/
def Fresh (conn : Fd → Option ℕ) (log : List Event) (d : Fd) : Prop :=
  ∃ i, conn d = some i ∧ Unused i log

/-- A task passes on from the connection `i`, of which it has `rest` still to write, to the
connection `j`, unless that has been closed. -/
structure Relaying (conn : Fd → Option ℕ) (log : List Event) (rfd wfd : Fd) (rest : List UInt8)
    (i j : ℕ) : Prop where
  reads : conn rfd = some i
  relay : .relay (some i) (some j) ∈ log
  writes : conn wfd = some j ∨ .close (some j) ∈ log
  passed : Passed i rest log

/-- What is read and not written yet. -/
def FdreadPc.rest : FdreadPc → List UInt8
  | .done m buf => if m > 0 then buf else []
  | _ => []

def FdwritePc.rest (buf : List UInt8) : FdwritePc → List UInt8
  | .write tot | .fdwait tot => buf.drop tot
  | .done _ => []

/-- The descriptor of the client that a `proxytask` was started for. -/
def Pc.client : Pc → Option Fd
  | .proxytask fd _ | .hangup fd | .mkfd2 fd _ _ | .rwtask fd _ => some fd
  | _ => none

/-- Between the creations of its two tasks a `proxytask` has the CPU. -/
def Pc.Atomic : Pc → Prop
  | .mkfd2back _ _ _ | .rwtaskback _ _ => True
  | _ => False

/-- What a task at `p` knows. -/
def Pc.Knows (conn : Fd → Option ℕ) (log : List Event) : Pc → Prop
  | .mkfd2back fd remotefd _ | .rwtaskback fd remotefd => ∃ i j, conn fd = some i ∧
      conn remotefd = some j ∧ Unused j log ∧ .proxy (some i) ∈ log ∧
      .relay (some i) (some j) ∈ log
  | .fdread rfd wfd p => ∃ i j, Relaying conn log rfd wfd (FdreadPc.rest p) i j
  | .fdwrite rfd wfd buf p => ∃ i j, Relaying conn log rfd wfd (FdwritePc.rest buf p) i j
  | .shutdown rfd wfd => ∃ i j, Relaying conn log rfd wfd [] i j
  | .close rfd => ∃ i, conn rfd = some i
  | p => (∀ d ∈ p.holds, Fresh conn log d) ∧ ∀ fd, p.client = some fd → .proxy (conn fd) ∈ log

/-- The places where all that a task holds is unused. -/
def Pc.Plain : Pc → Prop
  | .mkfd2back _ _ _ | .rwtaskback _ _ | .fdread _ _ _ | .fdwrite _ _ _ _ | .shutdown _ _
  | .close _ => False
  | _ => True

section Frame
variable {conn conn' : Fd → Option ℕ} {evs log : List Event} {p : Pc} {d fd : Fd}

theorem Pc.Plain.knows_iff (hp : p.Plain) : p.Knows conn log ↔
    (∀ d ∈ p.holds, Fresh conn log d) ∧ ∀ fd, p.client = some fd → .proxy (conn fd) ∈ log := by
  cases p with
  | mkfd2back | rwtaskback | fdread | fdwrite | shutdown | close => exact hp.elim
  | _ => rfl

theorem Pc.Plain.knows (hp : p.Plain) (hh : p.holds = 0) (hc : p.client = none) :
    p.Knows conn log := by
  rw [hp.knows_iff, hh, hc]
  exact ⟨fun d hd => absurd hd (Multiset.notMem_zero d), fun fd hfd => by cases hfd⟩

theorem Pc.client_mem (h : p.client = some fd) : fd ∈ p.holds := by
  cases p <;> simp_all [client, holds]

/-- What a step of another task leaves of the descriptors `h`: they stand for the same connections,
of which nothing is recorded; and where a descriptor changes, it has been closed. -/
structure Undisturbed (h : Multiset Fd) (conn conn' : Fd → Option ℕ) (evs : List Event) : Prop where
  same : ∀ d ∈ h, conn' d = conn d
  events : ∀ d ∈ h, ∀ i, conn d = some i → ∀ e ∈ evs, e.subject ≠ some i
  closed : ∀ d j, conn d = some j → conn' d = some j ∨ .close (some j) ∈ evs

theorem Fresh.undisturbed {h : Multiset Fd} (hf : Fresh conn log d)
    (hs : Undisturbed h conn conn' evs)
    (hd : d ∈ h) : Fresh conn' (evs ++ log) d := by
  obtain ⟨i, hi, hu⟩ := hf
  exact ⟨i, (hs.same d hd).trans hi, hu.append (hs.events d hd i hi)⟩

theorem Relaying.undisturbed {rfd wfd : Fd} {rest : List UInt8} {i j : ℕ}
    (h : Relaying conn log rfd wfd rest i j) (hs : Undisturbed {rfd} conn conn' evs) :
    Relaying conn' (evs ++ log) rfd wfd rest i j := by
  have hrfd : rfd ∈ ({rfd} : Multiset Fd) := Multiset.mem_singleton_self rfd
  constructor
  case reads => exact (hs.same rfd hrfd).trans h.reads
  case relay => exact List.mem_append_right evs h.relay
  case writes =>
    rcases h.writes with hj | hj
    · exact (hs.closed wfd j hj).imp_right fun hm => List.mem_append_left log hm
    · exact .inr (List.mem_append_right evs hj)
  case passed => exact h.passed.append (hs.events rfd hrfd i h.reads)

/-- What a task knows it knows after a step of another one. -/
theorem Pc.Knows.undisturbed (h : p.Knows conn log) (hs : Undisturbed p.holds conn conn' evs)
    (ha : ¬p.Atomic) : p.Knows conn' (evs ++ log) := by
  have hplain : p.Plain → p.Knows conn' (evs ++ log) := by
    intro hp
    obtain ⟨hfresh, hclient⟩ := hp.knows_iff.mp h
    refine hp.knows_iff.mpr ⟨fun d hd => (hfresh d hd).undisturbed hs hd, fun fd hfd => ?_⟩
    rw [hs.same fd (client_mem hfd)]
    exact List.mem_append_right evs (hclient fd hfd)
  cases p with
  | mkfd2back | rwtaskback => exact absurd trivial ha
  | fdread | fdwrite | shutdown =>
    obtain ⟨i, j, hr⟩ := h
    exact ⟨i, j, hr.undisturbed hs⟩
  | close rfd =>
    obtain ⟨i, hi⟩ := h
    exact ⟨i, (hs.same rfd (Multiset.mem_singleton_self rfd)).trans hi⟩
  | _ => exact hplain trivial

end Frame

/-- The places of `taskmain`. -/
def Pc.Main : Pc → Prop
  | .taskmain | .netannounce _ | .fdnoblock _ _ | .netaccept _ _ | .accepted _ _ => True
  | _ => False

section Next
variable {S : Setup} {junk : Address} {p : Pc}

/-- Every task keeps account of its descriptors; only `taskmain` returns with one that is open. -/
theorem balanced_next (S : Setup) (junk : Address) (p : Pc) :
    Balanced effect Pc.holds Pc.holds (fun _ h => h = 0 ∨ p.Main ∧ ∃ fd, h = {fd}) p.holds
      (next S junk p) := by
  cases p with
  | taskmain =>
    simp only [next]
    split <;> rfl
  | netannounce p =>
    show Balanced _ _ _ _ p.holds _
    rw [← Multiset.add_zero p.holds]
    refine (balanced_netannounce p).andThen
      (fun q => (Multiset.add_zero q.holds).symm) fun v h hv => ?_
    subst hv
    split
    · rename_i hv
      rw [held_neg hv]
      rfl
    · rename_i hv
      rw [held_nonneg (not_lt.mp hv)]
      rfl
  | fdnoblock fd p =>
    refine Balanced.andThen (D := {fd}) (balanced_fdnoblock p) (fun _ => rfl) fun v h hv => ?_
    subst hv
    rfl
  | netaccept fd p =>
    refine (balanced_netaccept p).andThen (fun _ => rfl) fun v h hv => ?_
    subst hv
    split
    · rename_i hv
      rw [held_nonneg hv]
      rfl
    · rename_i hv
      rw [held_neg (not_le.mp hv)]
      exact .inr ⟨trivial, fd, rfl⟩
  | proxytask fd p =>
    refine (balanced_netdial p).andThen (fun _ => rfl) fun v h hv => ?_
    subst hv
    split
    · rename_i hv
      rw [held_neg hv]
      rfl
    · rename_i hv
      rw [held_nonneg (not_lt.mp hv)]
      rfl
  | mkfd2 fd remotefd a | mkfd2back fd remotefd a =>
    cases a with
    | none => exact fun _ => rfl
    | some a =>
      simp only [next]
      split
      · trivial
      · rfl
  | fdread rfd wfd p =>
    refine Balanced.andThen (D := {rfd}) (balanced_fdread p) (fun _ => rfl) fun v h hv => ?_
    subst hv
    split <;> rfl
  | fdwrite rfd wfd buf p =>
    refine Balanced.andThen (D := {rfd}) (balanced_fdwrite p) (fun _ => rfl) fun v h hv => ?_
    subst hv
    rfl
  | hangup | shutdown | close => exact fun _ => rfl
  | rwtask fd remotefd => exact Multiset.add_comm {fd} {remotefd}
  | accepted | sleeptest | rwtaskback => rfl
  | done => exact .inl rfl

/-- What a task that is at a plain place does: it passes on nothing, and goes on at another. -/
theorem connects_next (hp : p.Plain) (hrw : ∀ fd remotefd, p ≠ .rwtask fd remotefd) :
    (next S junk p).All (fun r => ¬r.passes) Call.waits (fun q => q.Plain ∧ ¬q.Main)
      fun q => q.Plain ∧ (∀ fd, q.client = some fd → p.client = some fd) ∧ (q.Main → p.Main) := by
  cases p with
  | taskmain =>
    simp only [next]
    split
    · exact ⟨trivial, trivial, nofun, nofun⟩
    · exact ⟨⟨trivial, id⟩, trivial, nofun, fun _ => trivial⟩
  | netannounce p =>
    refine (connects_netannounce p).andThen
      (fun _ => ⟨trivial, nofun, fun _ => trivial⟩) fun v => ?_
    split
    · exact ⟨trivial, trivial, nofun, nofun⟩
    · exact ⟨trivial, nofun, fun _ => trivial⟩
  | fdnoblock fd p =>
    exact (connects_fdnoblock p).andThen (fun _ => ⟨trivial, nofun, fun _ => trivial⟩)
      fun v => ⟨trivial, nofun, fun _ => trivial⟩
  | netaccept fd p =>
    refine (connects_netaccept p).andThen (fun _ => ⟨trivial, nofun, fun _ => trivial⟩) fun v => ?_
    split
    · exact ⟨trivial, nofun, fun _ => trivial⟩
    · trivial
  | accepted fd cfd => exact ⟨⟨trivial, id⟩, trivial, nofun, fun _ => trivial⟩
  | sleeptest => exact ⟨trivial, trivial, nofun, nofun⟩
  | proxytask fd p =>
    refine (connects_netdial p).andThen (fun _ => ⟨trivial, fun _ => id, nofun⟩) fun v => ?_
    split
    · exact ⟨trivial, fun _ => id, nofun⟩
    · exact ⟨trivial, fun _ => id, nofun⟩
  | hangup fd => exact ⟨id, fun _ => ⟨trivial, nofun, nofun⟩⟩
  | mkfd2 fd remotefd a =>
    cases a with
    | none => exact ⟨id, fun _ => ⟨trivial, fun _ => id, nofun⟩⟩
    | some a =>
      simp only [next]
      split
      · trivial
      · exact ⟨trivial, fun _ => id, nofun⟩
  | rwtask fd remotefd => exact absurd rfl (hrw fd remotefd)
  | done => trivial
  | mkfd2back | rwtaskback | fdread | fdwrite | shutdown | close => exact hp.elim

end Next

/-- The connection `i` is open and passed on to `j`. -/
def Open (i j : ℕ) (log : List Event) : Prop :=
  .relay (some i) (some j) ∈ log ∧ .close (some i) ∉ log

/-- What must hold of an event, given what is older. Two tasks pass on between the connection given
to a `proxytask` and another one that nothing has been done with. A task reads from its connection
while that is open, and when it has written all that it has read; it writes what it has read, in
that order; it writes to its other connection as long as that is open. Only open connections are
closed. -/
def Tidy : Event → List Event → Prop
  | .proxy k, older => ∃ i, k = some i ∧ Unused i older
  | .relay k k', older => ∃ i j, k = some i ∧ k' = some j ∧ Unused i older ∧
      .close (some j) ∉ older ∧
      (.proxy (some i) ∈ older ∧ Unused j older ∨
        .proxy (some j) ∈ older ∧ .relay (some j) (some i) ∈ older)
  | .read k bytes, older => ∃ i j, k = some i ∧ Open i j older ∧ bytes.length ≤ 2048 ∧
      Passed i [] older
  | .write k k' bytes _, older => ∃ i j rest, k = some i ∧ Open i j older ∧
      (k' = some j ∨ .close (some j) ∈ older) ∧ bytes <+: rest ∧ Passed i rest older
  | .shutdown k k', older => ∃ i j, k = some i ∧ Open i j older ∧
      (k' = some j ∨ .close (some j) ∈ older) ∧ Passed i [] older
  | .close k, older => ∃ i, k = some i ∧ .close (some i) ∉ older

/-- Who holds which descriptors: the tasks, and nobody those that were left open. -/
def heldBy (pc : TaskPtr → Option Pc) (leaked : Multiset Fd) : Option TaskPtr → Multiset Fd
  | none => leaked
  | some t => (pc t).elim 0 Pc.holds

structure Inv (S : Setup) (st : State) : Prop where
  reach : Reachable st.sys
  live : ∀ t, st.pc t ≠ none → t ∈ st.sys.live
  owned : Ownership.Inv st.fds (heldBy st.pc st.leaked)
  numbered : ∀ e ∈ st.log, ∀ i, e.subject = some i → i < st.fds.count
  shut : ∀ d i, st.fds.conn d = some i → .close (some i) ∉ st.log
  knows : ∀ t p, st.pc t = some p → p.Knows st.fds.conn st.log
  atomic : ∀ t p, st.pc t = some p → p.Atomic → st.sys.taskrunning = some t ∧
    st.sys.control ≠ .scheduler ∧ st.sys.control ≠ .resume
  main : ∀ t p, st.pc t = some p → p.Main → t = S.main ∧ st.leaked = 0
  leaked : st.leaked = 0 ∨ ∃ fd, st.leaked = {fd}
  tidy : Always Tidy st.log

/-- What a task that holds `h` does to the descriptors, and what is recorded of that: only
connections of its own are concerned, and those that it closes are recorded as closed. -/
structure Does (T : Table Fd) (h : Multiset Fd) (e : Effect Fd) (evs : List Event) : Prop where
  subject : ∀ ev ∈ evs, ∀ i, ev.subject = some i → ∃ d ∈ h, T.conn d = some i
  release : ∀ d j, e = .release d → T.conn d = some j → .close (some j) ∈ evs
  close : ∀ j, .close (some j) ∈ evs → ∃ d, e = .release d ∧ T.conn d = some j

section Steps
variable {S : Setup} {st : State} {t u : TaskPtr} {p q : Pc} {e : Effect Fd} {evs : List Event}
  {h : Multiset Fd} {T : Table Fd} {x : Reply} {r : Request} {k : Option ℕ} {ev : Event}

theorem heldBy_update (pc : TaskPtr → Option Pc) (leaked : Multiset Fd) (t : TaskPtr)
    (o : Option Pc) : heldBy (update pc t o) leaked =
      update (heldBy pc leaked) (some t) (o.elim 0 Pc.holds) := by
  funext u
  cases u with
  | none => exact (update_of_ne (by simp) _ _).symm
  | some u =>
    by_cases hu : u = t
    · rw [hu, update_self, heldBy, update_self]
    · rw [update_of_ne (by simpa using hu), heldBy, update_of_ne hu]
      rfl

theorem heldBy_leaked {pc : TaskPtr → Option Pc} (leaked : Multiset Fd) {leaked' : Multiset Fd} :
    heldBy pc leaked' = update (heldBy pc leaked) none leaked' := by
  funext u
  cases u with
  | none =>
    rw [update_self]
    rfl
  | some u => exact (update_of_ne (by simp) _ _).symm

theorem heldBy_of_pc (ht : st.pc t = some p) : heldBy st.pc st.leaked (some t) = p.holds := by
  rw [heldBy, ht]
  rfl

theorem of_update {pc : TaskPtr → Option Pc} {q' : Pc} (hu : update pc t (some q) u = some q') :
    u = t ∧ q' = q ∨ u ≠ t ∧ pc u = some q' := by
  by_cases hut : u = t
  · rw [hut, update_self] at hu
    exact .inl ⟨hut, (Option.some.inj hu).symm⟩
  · rw [update_of_ne hut] at hu
    exact .inr ⟨hut, hu⟩

theorem Does.keep (T : Table Fd) (h : Multiset Fd) : Does T h .keep [] where
  subject := nofun
  release := nofun
  close := nofun

theorem Does.unclosed (hs : ∀ ev ∈ evs, ∀ i, ev.subject = some i → ∃ d ∈ h, T.conn d = some i)
    (hc : ∀ j, .close j ∉ evs) : Does T h .keep evs where
  subject := hs
  release d j he := by cases he
  close j hj := absurd hj (hc _)

/-- A request that passes on nothing is recorded only if it closes something. -/
theorem does_quiet {h' : Multiset Fd} (hr : ¬r.passes) (ht : (effect r x).Takes h h') :
    Does T h (effect r x) (requested T.conn k r x) := by
  cases r with
  | read | write | shutdown => exact absurd trivial hr
  | close fd =>
    have hh : h = fd ::ₘ h' := ht
    constructor
    case subject =>
      intro ev hev i hi
      rw [List.mem_singleton.mp hev] at hi
      exact ⟨fd, hh ▸ Multiset.mem_cons_self fd h', hi⟩
    case release =>
      intro d j hd hj
      rw [← hj, Effect.release.inj hd]
      exact List.mem_singleton_self _
    case close =>
      intro j hj
      exact ⟨fd, rfl, (Event.close.inj (List.mem_singleton.mp hj)).symm⟩
  | socket | accept =>
    constructor
    case subject => exact nofun
    case release =>
      intro d j hd
      simp only [effect] at hd
      split at hd <;> cases hd
    case close => exact nofun
  | _ => exact .keep T h

theorem does_passing {rfd : Fd} (hd : rfd ∈ h) (hs : ev.subject = T.conn rfd)
    (hc : ∀ j, ev ≠ .close j) : Does T h .keep [ev] := by
  refine .unclosed (fun ev' hev i hi => ?_) fun j hj => hc j (List.mem_singleton.mp hj).symm
  rw [List.mem_singleton.mp hev] at hi
  exact ⟨rfd, hd, hs.symm.trans hi⟩

namespace Inv

/-- Two tasks do not hold descriptors of the same connection. -/
theorem apart (hI : Inv S st) (ht : st.pc t = some p) (hu : st.pc u = some q) (hne : u ≠ t)
    {d d' : Fd} {i : ℕ} (hd : d ∈ p.holds) (hi : st.fds.conn d = some i) (hd' : d' ∈ q.holds) :
    st.fds.conn d' ≠ some i := by
  intro hi'
  obtain rfl := hI.owned.inj d d' i hi hi'
  rw [← heldBy_of_pc ht] at hd
  rw [← heldBy_of_pc hu] at hd'
  exact hne (Option.some.inj (hI.owned.unique hd' hd))

/-- Nothing is between the creations of two tasks but the task that has the CPU. -/
theorem not_atomic (hI : Inv S st) (hrun : st.sys.taskrunning = some t) (hne : u ≠ t)
    (hu : st.pc u = some q) : ¬q.Atomic := by
  intro ha
  have hr := (hI.atomic u q hu ha).1
  exact hne (Option.some.inj (hr.symm.trans hrun))

/-- What a task does to its own descriptors does not disturb another one. -/
theorem undisturbed (hI : Inv S st) (ht : st.pc t = some p) (hu : st.pc u = some q) (hne : u ≠ t)
    {h' : Multiset Fd} (hp : e.Possible st.fds) (he : e.Takes p.holds h')
    (hdo : Does st.fds p.holds e evs) :
    Undisturbed q.holds st.fds.conn (e.act st.fds).conn evs := by
  constructor
  case same =>
    intro d hd
    rw [← heldBy_of_pc ht] at he
    rw [← heldBy_of_pc hu] at hd
    refine hI.owned.conn_act hp he hd ?_
    rwa [update_of_ne (by simpa using hne)]
  case events =>
    intro d hd i hi ev hev hs
    obtain ⟨d', hd', hi'⟩ := hdo.subject ev hev i hs
    exact hI.apart ht hu hne hd' hi' hd hi
  case closed =>
    intro d j hj
    cases e with
    | keep => exact .inl hj
    | acquire d' =>
      left
      rw [← hj]
      refine update_of_ne ?_ _ _
      rintro rfl
      have hn : st.fds.conn d = none := hp
      rw [hn] at hj
      cases hj
    | release d' =>
      by_cases hdd : d = d'
      · exact .inr (hdo.release d j (by rw [hdd]) hj)
      · left
        rw [← hj]
        exact update_of_ne hdd _ _

/-- A task at a plain place goes on at another, with what it has got in between. -/
theorem knows_plain (hI : Inv S st) (ht : st.pc t = some p) (hpp : p.Plain) (hq : q.Plain)
    (hclient : ∀ fd, q.client = some fd → p.client = some fd) (hp : e.Possible st.fds)
    (he : e.Takes p.holds q.holds) (hdo : Does st.fds p.holds e evs)
    (hclose : ∀ ev ∈ evs, ∃ k, ev = .close k) (hnew : ∀ d, e = .acquire d → evs = []) :
    q.Knows (e.act st.fds).conn (evs ++ st.log) := by
  obtain ⟨hfresh, hproxy⟩ := hpp.knows_iff.mp (hI.knows t p ht)
  have hhold := heldBy_of_pc ht
  have hsame : ∀ d ∈ q.holds, d ∈ p.holds → (e.act st.fds).conn d = st.fds.conn d := by
    intro d hd hd'
    rw [← hhold] at he hd'
    refine hI.owned.conn_act hp he hd' ?_
    rwa [update_self]
  refine hq.knows_iff.mpr ⟨fun d hd => ?_, fun fd hfd => ?_⟩
  · rcases he.mem hd with hd' | rfl
    · obtain ⟨i, hi, hu⟩ := hfresh d hd'
      refine ⟨i, (hsame d hd hd').trans hi, hu.append fun ev hev hs => ?_⟩
      obtain ⟨k, rfl⟩ := hclose ev hev
      have hk : k = some i := hs
      subst hk
      obtain ⟨d₁, rfl, hd₁⟩ := hdo.close i hev
      obtain rfl := hI.owned.inj d d₁ i hi hd₁
      have hnodup := hI.owned.nodup (some t)
      have hh : p.holds = d ::ₘ q.holds := he
      rw [hhold, hh, Multiset.nodup_cons] at hnodup
      exact hnodup.1 hd
    · refine ⟨st.fds.count, update_self _ _ _, ?_⟩
      rw [hnew d rfl]
      exact fun ev hev hs => lt_irrefl _ (hI.numbered ev hev _ hs)
  · have hc := hclient fd hfd
    rw [hsame fd (Pc.client_mem hfd) (Pc.client_mem hc)]
    exact List.mem_append_right evs (hproxy fd hc)

/-- A task goes on from `p` to `q`, and what it does to its descriptors is recorded. -/
theorem advance {sys' : Sys Links} (hI : Inv S st) (evs : List Event) (ht : st.pc t = some p)
    (hrun : st.sys.taskrunning = some t) (hreach : Reachable sys')
    (hlive : st.sys.live ⊆ sys'.live) (hp : e.Possible st.fds) (he : e.Takes p.holds q.holds)
    (hdo : Does st.fds p.holds e evs) (hq : q.Knows (e.act st.fds).conn (evs ++ st.log))
    (hat : q.Atomic → sys' = st.sys ∧ p.Atomic) (hmain : q.Main → p.Main)
    (htidy : Always Tidy (evs ++ st.log)) :
    Inv S { st with
      sys := sys'
      pc := update st.pc t (some q)
      fds := e.act st.fds
      log := evs ++ st.log } := by
  constructor
  case reach => exact hreach
  case live =>
    intro u hu
    obtain ⟨q', hq'⟩ := Option.ne_none_iff_exists'.mp hu
    apply hlive
    rcases of_update hq' with ⟨rfl, _⟩ | ⟨_, hu⟩
    · exact hI.live u (by simp [ht])
    · exact hI.live u (by simp [hu])
  case owned =>
    show Ownership.Inv _ (heldBy (update st.pc t (some q)) st.leaked)
    rw [heldBy_update]
    refine hI.owned.takes hp ?_
    rw [heldBy_of_pc ht]
    exact he
  case numbered =>
    have hcount : st.fds.count ≤ (e.act st.fds).count := by
      cases e with
      | keep | release => exact le_refl _
      | acquire => exact Nat.le_succ _
    intro ev hev i hi
    rcases List.mem_append.mp hev with hev | hev
    · obtain ⟨d, _, hd⟩ := hdo.subject ev hev i hi
      exact (hI.owned.fresh d i hd).trans_le hcount
    · exact (hI.numbered ev hev i hi).trans_le hcount
  case shut =>
    intro d i hi hm
    rcases List.mem_append.mp hm with hnow | hold
    · obtain ⟨d', rfl, hd'⟩ := hdo.close i hnow
      by_cases hdd : d = d'
      · rw [hdd] at hi
        simp [Effect.act] at hi
      · simp only [Effect.act, update_of_ne hdd] at hi
        exact hdd (hI.owned.inj d d' i hi hd')
    · cases e with
      | keep => exact hI.shut d i hi hold
      | acquire d' =>
        by_cases hdd : d = d'
        · simp only [hdd, Effect.act, update_self, Option.some.injEq] at hi
          exact lt_irrefl _ (hi ▸ hI.numbered _ hold i rfl)
        · simp only [Effect.act, update_of_ne hdd] at hi
          exact hI.shut d i hi hold
      | release d' =>
        by_cases hdd : d = d'
        · simp [Effect.act, hdd] at hi
        · simp only [Effect.act, update_of_ne hdd] at hi
          exact hI.shut d i hi hold
  case knows =>
    intro u q' hu
    rcases of_update hu with ⟨_, rfl⟩ | ⟨hut, hu⟩
    · exact hq
    · exact (hI.knows u q' hu).undisturbed (hI.undisturbed ht hu hut hp he hdo)
        (hI.not_atomic hrun hut hu)
  case atomic =>
    intro u q' hu ha
    rcases of_update hu with ⟨rfl, rfl⟩ | ⟨hut, hu⟩
    · obtain ⟨rfl, hap⟩ := hat ha
      exact hI.atomic u p ht hap
    · exact absurd ha (hI.not_atomic hrun hut hu)
  case main =>
    intro u q' hu hm
    rcases of_update hu with ⟨rfl, rfl⟩ | ⟨hut, hu⟩
    · exact hI.main u p ht (hmain hm)
    · exact hI.main u q' hu hm
  case leaked => exact hI.leaked
  case tidy => exact htidy

/-- A step of the library that no task of the program makes. -/
theorem library {sys' : Sys Links} {env : Env} {act : Action} (hI : Inv S st)
    (hs : step (env, act) st.sys = some sys') (hact : ∀ c, act ≠ .call c) :
    Inv S { st with sys := sys' } where
  reach := hI.reach.snoc hs
  live u hu := hI.reach.live_subset (fun c hc => absurd hc (hact c)) hs (hI.live u hu)
  owned := hI.owned
  numbered := hI.numbered
  shut := hI.shut
  knows := hI.knows
  atomic u q hu ha := by
    obtain ⟨_, hsched, hres⟩ := hI.atomic u q hu ha
    rcases step_cases hs with ⟨_, hc, _⟩ | ⟨_, _, _, hc, _⟩ | ⟨c, _, hc, _⟩
    · exact absurd hc hsched
    · exact absurd hc hres
    · exact absurd hc (hact c)
  main := hI.main
  leaked := hI.leaked
  tidy := hI.tidy

/-- A task creates another one, and hands on to it what that is to close. -/
theorem spawn {sys' : Sys Links} {env : Env} {task : Pc} (hI : Inv S st) (evs : List Event)
    (ht : st.pc t = some p) (hrun : st.sys.taskrunning = some t) (h0 : env.malloc ≠ 0)
    (hs : step (env, .call (.taskcreate .user)) st.sys = some sys')
    (hgive : task.holds + q.holds = p.holds) (hdo : Does st.fds p.holds .keep evs)
    (hq : q.Knows st.fds.conn (evs ++ st.log)) (htask : task.Knows st.fds.conn (evs ++ st.log))
    (hta : ¬task.Atomic) (hmain : q.Main → p.Main) (htm : ¬task.Main)
    (htidy : Always Tidy (evs ++ st.log)) :
    Inv S { st with
      sys := sys'
      pc := update (update st.pc t (some q)) env.malloc (some task)
      log := evs ++ st.log } := by
  obtain ⟨hfresh, hlive, hrun', hctl⟩ := step_taskcreate hrun h0 hs
  have hnone : st.pc env.malloc = none := by
    by_contra hn
    exact hfresh (hI.live _ hn)
  have htne : t ≠ env.malloc := by
    rintro rfl
    rw [hnone] at ht
    cases ht
  have hpc : ∀ u q', update (update st.pc t (some q)) env.malloc (some task) u = some q' →
      u = env.malloc ∧ q' = task ∨ u = t ∧ q' = q ∨ u ≠ t ∧ st.pc u = some q' := by
    intro u q' hu
    rcases of_update hu with hnew | ⟨_, hu⟩
    · exact .inl hnew
    · exact .inr (of_update hu)
  constructor
  case reach => exact hI.reach.snoc hs
  case live =>
    intro u hu
    obtain ⟨q', hq'⟩ := Option.ne_none_iff_exists'.mp hu
    show u ∈ sys'.live
    rw [hlive, Finset.mem_insert]
    rcases hpc u q' hq' with ⟨hum, _⟩ | ⟨rfl, _⟩ | ⟨_, hu⟩
    · exact .inl hum
    · exact .inr (hI.live u (by simp [ht]))
    · exact .inr (hI.live u (by simp [hu]))
  case owned =>
    show Ownership.Inv _
      (heldBy (update (update st.pc t (some q)) env.malloc (some task)) st.leaked)
    rw [heldBy_update, heldBy_update]
    refine hI.owned.give ?_ ?_
    · rw [heldBy, hnone]
      rfl
    · rw [heldBy_of_pc ht]
      exact hgive
  case numbered =>
    intro ev hev i hi
    rcases List.mem_append.mp hev with hev | hev
    · obtain ⟨d, _, hd⟩ := hdo.subject ev hev i hi
      exact hI.owned.fresh d i hd
    · exact hI.numbered ev hev i hi
  case shut =>
    intro d i hi hm
    rcases List.mem_append.mp hm with hnow | hold
    · obtain ⟨_, he, _⟩ := hdo.close i hnow
      cases he
    · exact hI.shut d i hi hold
  case knows =>
    intro u q' hu
    rcases hpc u q' hu with ⟨_, rfl⟩ | ⟨_, rfl⟩ | ⟨hut, hu⟩
    · exact htask
    · exact hq
    · exact (hI.knows u q' hu).undisturbed
        (hI.undisturbed ht hu hut (e := .keep) trivial rfl hdo) (hI.not_atomic hrun hut hu)
  case atomic =>
    intro u q' hu ha
    rcases hpc u q' hu with ⟨_, rfl⟩ | ⟨rfl, _⟩ | ⟨hut, hu⟩
    · exact absurd ha hta
    · exact ⟨hrun', by simp [hctl], by simp [hctl]⟩
    · exact absurd ha (hI.not_atomic hrun hut hu)
  case main =>
    intro u q' hu hm
    rcases hpc u q' hu with ⟨_, rfl⟩ | ⟨rfl, rfl⟩ | ⟨_, hu⟩
    · exact absurd hm htm
    · exact hI.main u p ht (hmain hm)
    · exact hI.main u q' hu hm
  case leaked => exact hI.leaked
  case tidy => exact htidy

theorem exits {sys' : Sys Links} {env : Env} {v : ℤ} (hI : Inv S st) (ht : st.pc t = some p)
    (hrun : st.sys.taskrunning = some t)
    (hs : step (env, .call (.taskexit v)) st.sys = some sys')
    (hleft : p.holds = 0 ∨ p.Main ∧ ∃ fd, p.holds = {fd}) :
    Inv S { st with
      sys := sys'
      pc := update st.pc t none
      leaked := p.holds + st.leaked } := by
  have hlive := live_taskexit hrun hs
  have hpc : ∀ u q', update st.pc t none u = some q' → u ≠ t ∧ st.pc u = some q' := by
    intro u q' hu
    by_cases hut : u = t
    · rw [hut, update_self] at hu
      cases hu
    · exact ⟨hut, by rwa [update_of_ne hut] at hu⟩
  constructor
  case reach => exact hI.reach.snoc hs
  case live =>
    intro u hu
    obtain ⟨q', hq'⟩ := Option.ne_none_iff_exists'.mp hu
    obtain ⟨hut, hu⟩ := hpc u q' hq'
    show u ∈ sys'.live
    rw [hlive, Finset.mem_erase]
    exact ⟨hut, hI.live u (by simp [hu])⟩
  case owned =>
    show Ownership.Inv _ (heldBy (update st.pc t none) (p.holds + st.leaked))
    have hhold := heldBy_of_pc ht
    rcases hleft with h0 | ⟨hp, _⟩
    · have hsame : update (heldBy st.pc st.leaked) (some t) 0 = heldBy st.pc st.leaked := by
        rw [← h0, ← hhold, update_eq_self]
      rw [h0, Multiset.zero_add, heldBy_update, Option.elim_none, hsame]
      exact hI.owned
    · have hl := (hI.main t p ht hp).2
      rw [hl, Multiset.add_zero, heldBy_leaked st.leaked, heldBy_update]
      refine hI.owned.give hl ?_
      rw [hhold, Option.elim_none, Multiset.add_zero]
  case numbered => exact hI.numbered
  case shut => exact hI.shut
  case knows => exact fun u q' hu => hI.knows u q' (hpc u q' hu).2
  case atomic =>
    intro u q' hu ha
    obtain ⟨hut, hu⟩ := hpc u q' hu
    exact absurd ha (hI.not_atomic hrun hut hu)
  case main =>
    intro u q' hu hm
    obtain ⟨hut, hu⟩ := hpc u q' hu
    obtain ⟨hum, hl⟩ := hI.main u q' hu hm
    rcases hleft with h0 | ⟨hp, _⟩
    · exact ⟨hum, by show p.holds + st.leaked = 0; rw [h0, hl]; rfl⟩
    · exact absurd (hum.trans (hI.main t p ht hp).1.symm) hut
  case leaked =>
    show p.holds + st.leaked = 0 ∨ ∃ fd, p.holds + st.leaked = {fd}
    rcases hleft with h0 | ⟨hp, fd, hfd⟩
    · rw [h0, Multiset.zero_add]
      exact hI.leaked
    · rw [hfd, (hI.main t p ht hp).2]
      exact .inr ⟨fd, rfl⟩
  case tidy => exact hI.tidy

end Inv

end Steps
end Libtask.Tcpproxy
