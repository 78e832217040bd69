import Libtask.Refine.Tcpproxy

/-! The steps of the proxy keep its invariant: those of the functions that connect all alike, and
those of the tasks that pass on one by one. -/
namespace Libtask.Tcpproxy
open Function Ownership Sockets Runs

section Passing
variable {i j : ℕ} {k : Option ℕ} {bytes rest buf : List UInt8} {log : List Event} {x : Reply}
  {tot : ℕ}

theorem Passed.read (h : Passed i [] log) (bytes : List UInt8) :
    Passed i bytes (.read (some i) bytes :: log) where
  part := by
    simp only [written, got, if_true]
    have hp := h.part
    rw [List.append_nil] at hp
    exact hp.append_right bytes
  whole hu := by
    have hw := h.whole hu.tail
    rw [List.append_nil] at hw
    simp only [written, got, if_true, hw]

theorem Passed.write (h : Passed i (bytes ++ rest) log) (k : Option ℕ) :
    Passed i rest (.write (some i) k bytes false :: log) where
  part := by
    simp only [written, got, if_true, List.append_assoc]
    exact h.part
  whole hu := by
    simp only [written, got, if_true, List.append_assoc]
    exact h.whole hu.tail

/-- When a write fails what was to be written is lost. -/
theorem Passed.lost (h : Passed i rest log) (k : Option ℕ) :
    Passed i [] (.write (some i) k [] true :: log) where
  part := by
    simp only [written, got, if_true, List.append_nil]
    exact (List.sublist_append_left _ _).trans h.part
  whole hu := absurd List.mem_cons_self (hu k [])

/-- After a read all that was read is to be written. -/
theorem rest_read (h : x.bytes.length = x.ret.toNat) :
    FdreadPc.rest (if x.ret < 0 ∧ x.errno = EAGAIN then .fdwait else .done x.ret x.bytes) =
      x.bytes := by
  have hempty : ¬0 < x.ret → x.bytes = [] := fun hn => List.eq_nil_of_length_eq_zero (by omega)
  split
  · rename_i hx
    exact (hempty (by omega)).symm
  · by_cases hpos : 0 < x.ret
    · exact if_pos hpos
    · exact (if_neg hpos).trans (hempty hpos).symm

/-- After a write what it has taken is no longer to be written; or it has failed. -/
theorem Passed.fdwrite (h : Passed i (buf.drop tot) log) (k : Option ℕ) :
    Passed i (FdwritePc.rest buf (if x.ret < 0 ∧ x.errno = EAGAIN then .fdwait tot
        else if x.ret < 0 then .done x.ret
        else if x.ret = 0 then .done tot
        else .write (tot + x.ret.toNat)))
      (.write (some i) k ((buf.drop tot).take x.ret.toNat)
        (decide (x.ret ≤ 0 ∧ ¬(x.ret < 0 ∧ x.errno = EAGAIN))) :: log) := by
  have htake : x.ret ≤ 0 → (buf.drop tot).take x.ret.toNat = [] := by
    intro hx
    rw [Int.toNat_of_nonpos hx, List.take_zero]
  by_cases hagain : x.ret < 0 ∧ x.errno = EAGAIN
  · rw [if_pos hagain, htake (by omega), decide_eq_false (by simp [hagain])]
    exact Passed.write (show Passed i ([] ++ buf.drop tot) log from h) k
  · rw [if_neg hagain]
    by_cases hpos : 0 < x.ret
    · rw [if_neg (by omega), if_neg (by omega), decide_eq_false (by omega)]
      refine Passed.write ?_ k
      show Passed i ((buf.drop tot).take x.ret.toNat ++ buf.drop (tot + x.ret.toNat)) log
      rw [← List.drop_drop, List.take_append_drop]
      exact h
    · rw [htake (by omega), decide_eq_true ⟨by omega, hagain⟩]
      have hrest : FdwritePc.rest buf (if x.ret < 0 then .done x.ret
          else if x.ret = 0 then .done tot else .write (tot + x.ret.toNat)) = [] := by
        by_cases hneg : x.ret < 0
        · rw [if_pos hneg]
          rfl
        · rw [if_neg hneg, if_pos (by omega)]
          rfl
      rw [hrest]
      exact h.lost k

/-- The beginning of passing on is not recorded as a transfer. -/
theorem Unused.relay (h : Unused i log) (k k' : Option ℕ) : Passed i [] (.relay k k' :: log) where
  part := h.passed.part
  whole hu := h.passed.whole hu.tail

end Passing

/-- A task at the first place creates one that starts at the second, and goes on at the third. -/
inductive Creates : Pc → Pc → Pc → Prop
  | sleeptest : Creates .taskmain .sleeptest (.netannounce .start)
  | proxytask (fd cfd : Fd) :
      Creates (.accepted fd cfd) (.proxytask cfd (.netlookup .parseip)) (.netaccept fd .fdwait)
  | rwtask (fd remotefd : Fd) :
      Creates (.rwtask fd remotefd) (.fdread fd remotefd .read) (.mkfd2back fd remotefd none)
  | rwtaskback (fd remotefd : Fd) :
      Creates (.rwtaskback fd remotefd) (.fdread remotefd fd .read) .done

theorem creates_of_next {S : Setup} {junk : Address} {p task k : Pc}
    (hn : next S junk p = .spawn task k) : Creates p task k := by
  have habsurd : (next S junk p).All (fun r => ¬r.passes) Call.waits (fun _ => False)
      (fun _ => True) → Creates p task k := by
    intro hall
    rw [hn] at hall
    exact hall.1.elim
  cases p with
  | taskmain =>
    simp only [next] at hn
    split at hn
    · cases hn
    · cases hn
      exact .sleeptest
  | netannounce p =>
    refine habsurd ((connects_netannounce p).andThen (fun _ => trivial) fun v => ?_)
    split
    · exact ⟨trivial, trivial⟩
    · trivial
  | fdnoblock fd p =>
    exact habsurd ((connects_fdnoblock p).andThen (fun _ => trivial) fun _ => trivial)
  | netaccept fd p =>
    refine habsurd ((connects_netaccept p).andThen (fun _ => trivial) fun v => ?_)
    split <;> trivial
  | accepted fd cfd =>
    cases hn
    exact .proxytask fd cfd
  | proxytask fd p =>
    refine habsurd ((connects_netdial p).andThen (fun _ => trivial) fun v => ?_)
    split <;> trivial
  | mkfd2 fd remotefd a | mkfd2back fd remotefd a =>
    cases a with
    | none => cases hn
    | some a =>
      simp only [next] at hn
      split at hn <;> cases hn
  | rwtask fd remotefd =>
    cases hn
    exact .rwtask fd remotefd
  | rwtaskback fd remotefd =>
    cases hn
    exact .rwtaskback fd remotefd
  | fdread rfd wfd p =>
    cases p with
    | read | fdwait => cases hn
    | done m buf =>
      simp only [next, Sockets.fdread, Next.andThen] at hn
      split at hn <;> cases hn
  | fdwrite rfd wfd buf p =>
    cases p with
    | write tot =>
      simp only [next, Sockets.fdwrite] at hn
      split at hn <;> cases hn
    | fdwait | done => cases hn
  | sleeptest | hangup | shutdown | close | done => cases hn

section Turn
variable {S : Setup} {st st' : State} {t : TaskPtr} {p : Pc} {x : Input} {i j : ℕ} {rfd wfd : Fd}
  {rest : List UInt8}

/-- A task goes on passing on after an event of its own. -/
theorem Relaying.snoc {conn : Fd → Option ℕ} {log : List Event} {e : Event} {rest' : List UInt8}
    (h : Relaying conn log rfd wfd rest i j) (hp : Passed i rest' (e :: log)) :
    Relaying conn (e :: log) rfd wfd rest' i j where
  reads := h.reads
  relay := List.mem_cons_of_mem e h.relay
  writes := h.writes.imp_right fun hm => List.mem_cons_of_mem e hm
  passed := hp

theorem possible_of_answers {T : Table Fd} {r : Request} {y : Reply} (h : Answers T r y) :
    (effect r y).Possible T := by
  cases r with
  | read | write => trivial
  | _ => exact h

/-- What is known of a step at a plain place that creates no task. -/
theorem Pc.Plain.next_of_eq {junk : Address} {c : Code Pc Pc Unit} (hp : p.Plain)
    (hn : next S junk p = c) (hc : ∀ task k, c ≠ .spawn task k) :
    c.All (fun r => ¬r.passes) Call.waits (fun q => q.Plain ∧ ¬q.Main)
      (fun q => q.Plain ∧ (∀ fd, q.client = some fd → p.client = some fd) ∧ (q.Main → p.Main)) ∧
    Balanced effect Pc.holds Pc.holds (fun _ h => h = 0 ∨ p.Main ∧ ∃ fd, h = {fd}) p.holds c := by
  subst hn
  refine ⟨connects_next hp ?_, balanced_next S junk p⟩
  rintro fd remotefd rfl
  exact hc _ _ rfl

theorem Pc.Plain.not_atomic (h : p.Plain) : ¬p.Atomic := by
  cases p with
  | mkfd2back | rwtaskback => exact h.elim
  | _ => exact id

namespace Inv

theorem tidy_close (hI : Inv S st) (ht : st.pc t = some p) {fd : Fd} (hd : fd ∈ p.holds) :
    Always Tidy (.close (st.fds.conn fd) :: st.log) := by
  rw [← heldBy_of_pc ht] at hd
  obtain ⟨i, hi⟩ := Option.ne_none_iff_exists'.mp (hI.owned.conn_ne_none hd)
  exact always_cons ⟨i, hi, hI.shut fd i hi⟩ hI.tidy

theorem isOpen (hI : Inv S st) (h : Relaying st.fds.conn st.log rfd wfd rest i j) :
    Open i j st.log :=
  ⟨h.relay, hI.shut rfd i h.reads⟩

theorem sys_plain {r : Request} {k : Reply → Pc} (hI : Inv S st) (ht : st.pc t = some p)
    (hrun : st.sys.taskrunning = some t) (hp : p.Plain) (hn : next S x.junk p = .sys r k)
    (hans : Answers st.fds r x.reply) :
    Inv S { st with
      pc := update st.pc t (some (k x.reply))
      fds := (effect r x.reply).act st.fds
      log := requested st.fds.conn (p.rfd.bind st.fds.conn) r x.reply ++ st.log } := by
  obtain ⟨hall, hbal⟩ := hp.next_of_eq hn (by simp)
  obtain ⟨hr, hk⟩ := hall
  obtain ⟨hq, hclient, hmain⟩ := hk x.reply
  have htakes : (effect r x.reply).Takes p.holds (k x.reply).holds := hbal x.reply
  have hposs := possible_of_answers hans
  have hdo : Does st.fds p.holds (effect r x.reply)
      (requested st.fds.conn (p.rfd.bind st.fds.conn) r x.reply) := does_quiet hr htakes
  have hclose : ∀ ev ∈ requested st.fds.conn (p.rfd.bind st.fds.conn) r x.reply,
      ∃ k, ev = .close k := by
    cases r with
    | read | write | shutdown => exact absurd trivial hr
    | close fd => exact fun ev hev => ⟨_, List.mem_singleton.mp hev⟩
    | _ => exact nofun
  have hnew : ∀ d, effect r x.reply = .acquire d →
      requested st.fds.conn (p.rfd.bind st.fds.conn) r x.reply = [] := by
    cases r with
    | read | write | shutdown => exact absurd trivial hr
    | close fd => exact nofun
    | _ => exact fun _ _ => rfl
  refine hI.advance _ ht hrun hI.reach (Finset.Subset.refl _) hposs htakes hdo
    (hI.knows_plain ht hp hq hclient hposs htakes hdo hclose hnew)
    (fun ha => absurd ha hq.not_atomic) hmain ?_
  cases r with
  | read | write | shutdown => exact absurd trivial hr
  | close fd =>
    refine hI.tidy_close ht ?_
    have hh : p.holds = fd ::ₘ (k x.reply).holds := htakes
    exact hh ▸ Multiset.mem_cons_self fd _
  | _ => exact hI.tidy

/-- A task goes on from a plain place without a request. -/
theorem goto_plain {sys' : Sys Links} {q : Pc} (hI : Inv S st) (ht : st.pc t = some p)
    (hrun : st.sys.taskrunning = some t) (hreach : Reachable sys')
    (hlive : st.sys.live ⊆ sys'.live) (hp : p.Plain) (hhold : q.holds = p.holds)
    (hq : q.Plain ∧ (∀ fd, q.client = some fd → p.client = some fd) ∧ (q.Main → p.Main)) :
    Inv S { st with sys := sys', pc := update st.pc t (some q) } :=
  hI.advance [] ht hrun hreach hlive (e := .keep) trivial hhold (.keep _ _)
    (hI.knows_plain ht hp hq.1 hq.2.1 (e := .keep) trivial hhold (.keep _ _) nofun fun _ _ => rfl)
    (fun ha => absurd ha hq.1.not_atomic) hq.2.2 hI.tidy

/-- A task that passes on goes on without a request. -/
theorem goto_relay {sys' : Sys Links} {q : Pc} (hI : Inv S st) (ht : st.pc t = some p)
    (hrun : st.sys.taskrunning = some t) (hreach : Reachable sys')
    (hlive : st.sys.live ⊆ sys'.live) (hhold : q.holds = p.holds)
    (hq : q.Knows st.fds.conn st.log) (ha : ¬q.Atomic) (hmain : ¬q.Main) :
    Inv S { st with sys := sys', pc := update st.pc t (some q) } :=
  hI.advance [] ht hrun hreach hlive (e := .keep) trivial hhold (.keep _ _) hq
    (fun h => absurd h ha) (fun h => absurd h hmain) hI.tidy

theorem reads (hI : Inv S st) (ht : st.pc t = some (.fdread rfd wfd .read))
    (hrun : st.sys.taskrunning = some t) (hans : Answers st.fds (.read rfd 2048) x.reply) :
    Inv S { st with
      pc := update st.pc t (some (.fdread rfd wfd
        (if x.reply.ret < 0 ∧ x.reply.errno = EAGAIN then .fdwait
          else .done x.reply.ret x.reply.bytes)))
      fds := Effect.keep.act st.fds
      log := .read (st.fds.conn rfd) x.reply.bytes :: st.log } := by
  obtain ⟨hle, hlen, _⟩ := hans
  obtain ⟨i, j, hrel⟩ := hI.knows t _ ht
  have hbytes : x.reply.bytes.length ≤ 2048 := by omega
  refine hI.advance [.read (st.fds.conn rfd) x.reply.bytes] ht hrun hI.reach
    (Finset.Subset.refl _) trivial rfl
    (does_passing (Multiset.mem_singleton_self rfd) rfl nofun) ?_ nofun nofun ?_
  · refine ⟨i, j, ?_⟩
    rw [rest_read hlen, hrel.reads]
    exact hrel.snoc (hrel.passed.read _)
  · exact always_cons ⟨i, j, hrel.reads, hI.isOpen hrel, hbytes, hrel.passed⟩ hI.tidy

theorem writes {buf : List UInt8} {tot : ℕ} (hI : Inv S st)
    (ht : st.pc t = some (.fdwrite rfd wfd buf (.write tot)))
    (hrun : st.sys.taskrunning = some t) :
    Inv S { st with
      pc := update st.pc t (some (.fdwrite rfd wfd buf
        (if x.reply.ret < 0 ∧ x.reply.errno = EAGAIN then .fdwait tot
        else if x.reply.ret < 0 then .done x.reply.ret
        else if x.reply.ret = 0 then .done tot
        else .write (tot + x.reply.ret.toNat))))
      fds := Effect.keep.act st.fds
      log := .write (st.fds.conn rfd) (st.fds.conn wfd) ((buf.drop tot).take x.reply.ret.toNat)
        (decide (x.reply.ret ≤ 0 ∧ ¬(x.reply.ret < 0 ∧ x.reply.errno = EAGAIN))) :: st.log } := by
  obtain ⟨i, j, hrel⟩ := hI.knows t _ ht
  refine hI.advance [.write (st.fds.conn rfd) (st.fds.conn wfd)
      ((buf.drop tot).take x.reply.ret.toNat)
      (decide (x.reply.ret ≤ 0 ∧ ¬(x.reply.ret < 0 ∧ x.reply.errno = EAGAIN)))] ht hrun hI.reach
    (Finset.Subset.refl _) trivial rfl
    (does_passing (Multiset.mem_singleton_self rfd) rfl nofun) ?_ nofun nofun ?_
  · refine ⟨i, j, ?_⟩
    rw [hrel.reads]
    exact hrel.snoc (Passed.fdwrite hrel.passed _)
  · exact always_cons ⟨i, j, buf.drop tot, hrel.reads, hI.isOpen hrel, hrel.writes,
      List.take_prefix _ _, hrel.passed⟩ hI.tidy

theorem shuts (hI : Inv S st) (ht : st.pc t = some (.shutdown rfd wfd))
    (hrun : st.sys.taskrunning = some t) :
    Inv S { st with
      pc := update st.pc t (some (.close rfd))
      fds := Effect.keep.act st.fds
      log := .shutdown (st.fds.conn rfd) (st.fds.conn wfd) :: st.log } := by
  obtain ⟨i, j, hrel⟩ := hI.knows t _ ht
  refine hI.advance [.shutdown (st.fds.conn rfd) (st.fds.conn wfd)] ht hrun hI.reach
    (Finset.Subset.refl _) trivial rfl
    (does_passing (Multiset.mem_singleton_self rfd) rfl nofun) ⟨i, hrel.reads⟩ nofun nofun ?_
  exact always_cons ⟨i, j, hrel.reads, hI.isOpen hrel, hrel.writes, hrel.passed⟩ hI.tidy

theorem closes (hI : Inv S st) (ht : st.pc t = some (.close rfd))
    (hrun : st.sys.taskrunning = some t) :
    Inv S { st with
      pc := update st.pc t (some .done)
      fds := (Effect.release rfd).act st.fds
      log := .close (st.fds.conn rfd) :: st.log } := by
  have htakes : (Effect.release rfd).Takes (Pc.close rfd).holds Pc.done.holds := rfl
  exact hI.advance [.close (st.fds.conn rfd)] ht hrun hI.reach
    (Finset.Subset.refl _) trivial htakes
    (does_quiet (r := .close rfd) (x := ⟨0, 0, [], none⟩) (k := none) id htakes)
    (Pc.Plain.knows trivial rfl rfl) nofun nofun
    (hI.tidy_close ht (Multiset.mem_singleton_self rfd))

theorem sys {r : Request} {k : Reply → Pc} (hI : Inv S st) (ht : st.pc t = some p)
    (hrun : st.sys.taskrunning = some t) (hn : next S x.junk p = .sys r k)
    (hans : Answers st.fds r x.reply) :
    Inv S { st with
      pc := update st.pc t (some (k x.reply))
      fds := (effect r x.reply).act st.fds
      log := requested st.fds.conn (p.rfd.bind st.fds.conn) r x.reply ++ st.log } := by
  cases p with
  | mkfd2back fd remotefd a =>
    cases a with
    | none =>
      obtain ⟨rfl, rfl⟩ := Next.sys.inj hn
      have hknows := hI.knows t _ ht
      exact hI.advance [] ht hrun hI.reach (Finset.Subset.refl _) trivial rfl (.keep _ _)
        hknows (fun _ => ⟨rfl, trivial⟩) nofun hI.tidy
    | some a =>
      simp only [next] at hn
      split at hn <;> cases hn
  | rwtaskback => cases hn
  | fdread rfd wfd p =>
    cases p with
    | read =>
      obtain ⟨rfl, rfl⟩ := Next.sys.inj hn
      exact hI.reads ht hrun hans
    | fdwait => cases hn
    | done m buf =>
      simp only [next, Sockets.fdread, Next.andThen] at hn
      split at hn <;> cases hn
  | fdwrite rfd wfd buf p =>
    cases p with
    | write tot =>
      simp only [next, Sockets.fdwrite] at hn
      split at hn
      · obtain ⟨rfl, rfl⟩ := Next.sys.inj hn
        exact hI.writes ht hrun
      · cases hn
    | fdwait | done => cases hn
  | shutdown rfd wfd =>
    obtain ⟨rfl, rfl⟩ := Next.sys.inj hn
    exact hI.shuts ht hrun
  | close rfd =>
    obtain ⟨rfl, rfl⟩ := Next.sys.inj hn
    exact hI.closes ht hrun
  | _ => exact hI.sys_plain ht hrun trivial hn hans

theorem call {c : Call} {k : Pc} {sys' : Sys Links} (hI : Inv S st) (ht : st.pc t = some p)
    (hrun : st.sys.taskrunning = some t) (hn : next S x.junk p = .call c k)
    (hs : step (x.env, .call c) st.sys = some sys') :
    Inv S { st with sys := sys', pc := update st.pc t (some k) } := by
  have hreach := hI.reach.snoc hs
  have hgrow : c.waits → st.sys.live ⊆ sys'.live := fun hc =>
    hI.reach.live_subset (fun c' hc' => by cases hc'; exact hc) hs
  have hplain : p.Plain → Inv S { st with sys := sys', pc := update st.pc t (some k) } := by
    intro hp
    obtain ⟨hall, hbal⟩ := hp.next_of_eq hn (by simp)
    exact hI.goto_plain ht hrun hreach (hgrow hall.1) hp hbal hall.2
  cases p with
  | mkfd2back fd remotefd a =>
    cases a with
    | none => cases hn
    | some a =>
      simp only [next] at hn
      split at hn <;> cases hn
  | rwtaskback | shutdown | close => cases hn
  | fdread rfd wfd p =>
    cases p with
    | read => cases hn
    | fdwait =>
      obtain ⟨rfl, rfl⟩ := Next.call.inj hn
      have hknows := hI.knows t _ ht
      exact hI.goto_relay ht hrun hreach (hgrow trivial) rfl hknows id id
    | done m buf =>
      simp only [next, Sockets.fdread, Next.andThen] at hn
      split at hn <;> cases hn
  | fdwrite rfd wfd buf p =>
    cases p with
    | write tot =>
      simp only [next, Sockets.fdwrite] at hn
      split at hn <;> cases hn
    | fdwait tot =>
      obtain ⟨rfl, rfl⟩ := Next.call.inj hn
      have hknows := hI.knows t _ ht
      exact hI.goto_relay ht hrun hreach (hgrow trivial) rfl hknows id id
    | done => cases hn
  | _ => exact hplain trivial

theorem goto {k : Pc} (hI : Inv S st) (ht : st.pc t = some p)
    (hrun : st.sys.taskrunning = some t) (hn : next S x.junk p = .goto k) :
    Inv S { st with pc := update st.pc t (some k) } := by
  have hplain : p.Plain → Inv S { st with pc := update st.pc t (some k) } := by
    intro hp
    obtain ⟨hall, hbal⟩ := hp.next_of_eq hn (by simp)
    exact hI.goto_plain ht hrun hI.reach (Finset.Subset.refl _) hp hbal hall
  cases p with
  | mkfd2back fd remotefd a =>
    cases a with
    | none => cases hn
    | some a =>
      simp only [next] at hn
      split at hn
      · cases hn
      · cases hn
        have hknows := hI.knows t _ ht
        exact hI.advance (e := .keep) [] ht hrun hI.reach (Finset.Subset.refl _) trivial
          rfl (.keep _ _) hknows (fun _ => ⟨rfl, trivial⟩) id hI.tidy
  | rwtaskback | shutdown | close => cases hn
  | fdread rfd wfd p =>
    cases p with
    | read | fdwait => cases hn
    | done m buf =>
      obtain ⟨i, j, hrel⟩ := hI.knows t _ ht
      simp only [next, Sockets.fdread, Next.andThen] at hn
      split at hn
      · rename_i hm
        cases hn
        refine hI.goto_relay ht hrun hI.reach (Finset.Subset.refl _) rfl ⟨i, j, ?_⟩ id id
        have hrest : FdreadPc.rest (.done m buf) = FdwritePc.rest buf (.write 0) := if_pos hm
        rwa [hrest] at hrel
      · rename_i hm
        cases hn
        refine hI.goto_relay ht hrun hI.reach (Finset.Subset.refl _) rfl ⟨i, j, ?_⟩ id id
        have hrest : FdreadPc.rest (.done m buf) = [] := if_neg hm
        rwa [hrest] at hrel
  | fdwrite rfd wfd buf p =>
    obtain ⟨i, j, hrel⟩ := hI.knows t _ ht
    cases p with
    | write tot =>
      simp only [next, Sockets.fdwrite] at hn
      split at hn
      · cases hn
      · rename_i htot
        cases hn
        refine hI.goto_relay ht hrun hI.reach (Finset.Subset.refl _) rfl ⟨i, j, ?_⟩ id id
        have hrest : FdwritePc.rest buf (.write tot) = [] := List.drop_eq_nil_of_le (not_lt.mp htot)
        rwa [hrest] at hrel
    | fdwait => cases hn
    | done v =>
      cases hn
      exact hI.goto_relay ht hrun hI.reach (Finset.Subset.refl _) rfl ⟨i, j, hrel⟩ id id
  | _ => exact hplain trivial

theorem create {task k : Pc} {sys' : Sys Links} (hI : Inv S st) (ht : st.pc t = some p)
    (hrun : st.sys.taskrunning = some t) (hn : next S x.junk p = .spawn task k)
    (h0 : x.env.malloc ≠ 0)
    (hs : step (x.env, .call (.taskcreate .user)) st.sys = some sys') :
    Inv S { st with
      sys := sys'
      pc := update (update st.pc t (some k)) x.env.malloc (some task)
      log := created st.fds.conn task ++ st.log } := by
  have hgive : task.holds + k.holds = p.holds := by
    have hbal := balanced_next S x.junk p
    rwa [hn] at hbal
  have hknows := hI.knows t p ht
  cases creates_of_next hn with
  | sleeptest =>
    exact hI.spawn [] ht hrun h0 hs hgive (.keep _ _) (Pc.Plain.knows trivial rfl rfl)
      (Pc.Plain.knows trivial rfl rfl) id (fun _ => trivial) id hI.tidy
  | proxytask fd cfd =>
    obtain ⟨hfresh, _⟩ := hknows
    have hstill : ∀ d ∈ (Pc.accepted fd cfd).holds,
        Fresh st.fds.conn (.proxy (st.fds.conn cfd) :: st.log) d := by
      intro d hd
      obtain ⟨i, hi, hu⟩ := hfresh d hd
      refine ⟨i, hi, fun e he => ?_⟩
      rcases List.mem_cons.mp he with rfl | he
      · simp [Event.subject]
      · exact hu e he
    obtain ⟨i, hi, hu⟩ := hfresh cfd (Multiset.mem_add.mpr (.inl (Multiset.mem_singleton_self cfd)))
    refine hI.spawn [.proxy (st.fds.conn cfd)] ht hrun h0 hs hgive
      (.unclosed ?_ (by simp))
      ⟨fun d hd => hstill d (Multiset.mem_add.mpr (.inr ?_)), fun fd' hfd => by cases hfd⟩
      ⟨fun d hd => hstill d (Multiset.mem_add.mpr (.inl ?_)),
        fun fd' hfd => ?_⟩ id (fun _ => trivial)
      id (always_cons ⟨i, hi, hu⟩ hI.tidy)
    · intro ev hev i hi
      rw [List.mem_singleton.mp hev] at hi
      cases hi
    · exact (Multiset.mem_add.mp hd).resolve_left (Multiset.notMem_zero d)
    · exact (Multiset.mem_add.mp hd).resolve_left (Multiset.notMem_zero d)
    · rw [← Option.some.inj hfd]
      exact List.mem_cons_self
  | rwtask fd remotefd =>
    obtain ⟨hfresh, hproxy⟩ := hknows
    have hfd : fd ∈ (Pc.rwtask fd remotefd).holds :=
      Multiset.mem_add.mpr (.inr (Multiset.mem_singleton_self fd))
    have hremote : remotefd ∈ (Pc.rwtask fd remotefd).holds :=
      Multiset.mem_add.mpr (.inl (Multiset.mem_singleton_self remotefd))
    obtain ⟨i, hi, hui⟩ := hfresh fd hfd
    obtain ⟨j, hj, huj⟩ := hfresh remotefd hremote
    have hclient : .proxy (some i) ∈ st.log := hi ▸ hproxy fd rfl
    have hne : i ≠ j := by
      rintro rfl
      obtain rfl := hI.owned.inj fd remotefd i hi hj
      have hnodup := hI.owned.nodup (some t)
      rw [heldBy_of_pc ht, Pc.holds, Multiset.singleton_add, Multiset.nodup_cons] at hnodup
      exact hnodup.1 (Multiset.mem_singleton_self fd)
    refine hI.spawn [.relay (st.fds.conn fd) (st.fds.conn remotefd)] ht hrun h0 hs hgive
      (does_passing hfd rfl (by simp)) ?_ ?_ id id id ?_
    · refine ⟨i, j, hi, hj, ?_, List.mem_cons_of_mem _ hclient, ?_⟩
      · refine huj.append fun e he => ?_
        rw [List.mem_singleton.mp he, Event.subject, hi]
        simpa using hne
      · rw [hi, hj]
        exact List.mem_cons_self
    · rw [hi, hj]
      exact ⟨i, j, hi, List.mem_cons_self, .inl hj, hui.relay _ _⟩
    · exact always_cons ⟨i, j, hi, hj, hui, hI.shut remotefd j hj, .inl ⟨hclient, huj⟩⟩ hI.tidy
  | rwtaskback fd remotefd =>
    obtain ⟨i, j, hi, hj, huj, hclient, hrelay⟩ := hknows
    refine hI.spawn [.relay (st.fds.conn remotefd) (st.fds.conn fd)] ht hrun h0 hs hgive
      (does_passing (Multiset.mem_singleton_self remotefd) rfl (by simp))
      (Pc.Plain.knows trivial rfl rfl) ?_ id id id ?_
    · rw [hi, hj]
      exact ⟨j, i, hj, List.mem_cons_self, .inl hi, huj.relay _ _⟩
    · exact always_cons ⟨j, i, hj, hi, huj, hI.shut fd i hi, .inr ⟨hclient, hrelay⟩⟩ hI.tidy

theorem user (hI : Inv S st) (ht : st.pc t = some p) (hrun : st.sys.taskrunning = some t)
    (hs : user S x t p st = some st') : Inv S st' := by
  unfold Tcpproxy.user at hs
  split at hs
  · rename_i r k hn
    split at hs
    · rename_i hans
      cases hs
      exact hI.sys ht hrun hn hans
    · cases hs
  · rename_i c k hn
    obtain ⟨sys', hs', rfl⟩ := Option.map_eq_some_iff.mp hs
    exact hI.call ht hrun hn hs'
  · rename_i task k hn
    obtain ⟨sys', hs', rfl⟩ := Option.map_eq_some_iff.mp hs
    split
    · rename_i h0
      obtain rfl := step_nomem hrun h0 hs'
      exact { hI with
        reach := hI.reach.snoc hs'
        atomic := fun u q hu ha => ⟨(hI.atomic u q hu ha).1, by simp, by simp⟩ }
    · rename_i h0
      exact hI.create ht hrun hn h0 hs'
  · rename_i k hn
    cases hs
    exact hI.goto ht hrun hn
  · cases hs
    exact { hI with }
  · rename_i v hn
    obtain ⟨sys', hs', rfl⟩ := Option.map_eq_some_iff.mp hs
    have hbal := balanced_next S x.junk p
    rw [hn] at hbal
    exact hI.exits ht hrun hs' hbal

theorem turn (hI : Inv S st) (hs : turn S x st = some st') : Inv S st' := by
  unfold Tcpproxy.turn at hs
  split at hs
  · cases hs
  · split at hs
    · obtain ⟨sys', hs', rfl⟩ := Option.map_eq_some_iff.mp hs
      exact hI.library hs' nofun
    · obtain ⟨sys', hs', rfl⟩ := Option.map_eq_some_iff.mp hs
      exact hI.library hs' nofun
    · rename_i t _ hrun
      obtain ⟨p, ht, hs'⟩ := Option.bind_eq_some_iff.mp hs
      exact hI.user ht hrun hs'
    · cases hs

end Inv

theorem inv_start (S : Setup) : Inv S S.start := by
  have hpc : ∀ t p, S.start.pc t = some p → t = S.main ∧ p = .taskmain := by
    intro t p ht
    have hup : update (fun _ => none) S.main (some Pc.taskmain) t = some p := ht
    by_cases hm : t = S.main
    · rw [hm, update_self] at hup
      exact ⟨hm, (Option.some.inj hup).symm⟩
    · rw [update_of_ne hm] at hup
      cases hup
  constructor
  case reach => exact Reach.of_init ⟨S.program, rfl⟩
  case live =>
    intro t ht
    obtain ⟨p, hp⟩ := Option.ne_none_iff_exists'.mp ht
    rw [(hpc t p hp).1]
    show S.main ∈ S.program.boot.live
    rw [Program.boot, taskcreate_eq .user S.program.taskmain_ne]
    exact Finset.mem_insert_self _ _
  case owned =>
    refine Ownership.Inv.init (fun _ => rfl) fun o => ?_
    cases o with
    | none => rfl
    | some t =>
      cases hp : S.start.pc t with
      | none =>
        rw [heldBy, hp]
        rfl
      | some p => rw [heldBy_of_pc hp, (hpc t p hp).2, Pc.holds]
  case numbered => exact fun ev hev => absurd hev List.not_mem_nil
  case shut => exact fun d i _ => List.not_mem_nil
  case knows =>
    intro t p hp
    rw [(hpc t p hp).2]
    exact Pc.Plain.knows trivial rfl rfl
  case atomic =>
    intro t p hp ha
    rw [(hpc t p hp).2] at ha
    exact ha.elim
  case main => exact fun t p hp _ => ⟨(hpc t p hp).1, rfl⟩
  case leaked => exact .inl rfl
  case tidy => exact always_nil _

end Turn
end Libtask.Tcpproxy
