import Libtask.Refine.Relaying

/-! The proxy of tcpproxy.c over whole runs: who closes which descriptor, and what becomes of the
bytes that it reads. -/
namespace Libtask.Tcpproxy
open Function Ownership Sockets Runs

section
variable {S : Setup} {st : State} {xs : List Input} {log : List Event} {i j j' : ℕ}

theorem inv_exec {st₀ : State} (h₀ : Inv S st₀) (h : exec (turn S) xs st₀ = some st) :
    Inv S st := by
  induction xs generalizing st₀ with
  | nil =>
    cases h
    exact h₀
  | cons x xs ih =>
    obtain ⟨st₁, h₁, hrest⟩ := Option.bind_eq_some_iff.mp h
    exact ih (h₀.turn h₁) hrest

/-- Each open descriptor has one task that is to close it or to hand it on, but for one that
`taskmain` may have left open when it returned; and no task is to close anything else. -/
structure Owned (st : State) : Prop where
  holder : ∀ fd, st.fds.conn fd ≠ none → fd ∈ st.leaked ∨ ∃ t p, st.pc t = some p ∧ fd ∈ p.holds
  isOpen : ∀ t p, st.pc t = some p → ∀ fd ∈ p.holds, st.fds.conn fd ≠ none ∧ fd ∉ st.leaked
  once : ∀ t p, st.pc t = some p → p.holds.Nodup ∧
    ∀ u q, st.pc u = some q → u ≠ t → ∀ fd ∈ p.holds, fd ∉ q.holds
  leaked : st.leaked = 0 ∨ ∃ fd, st.leaked = {fd} ∧ ∀ t p, st.pc t = some p → ¬p.Main

theorem Inv.descriptors (hI : Inv S st) : Owned st := by
  constructor
  case holder =>
    intro fd hfd
    obtain ⟨o, ho⟩ := hI.owned.exists_holder hfd
    cases o with
    | none => exact .inl ho
    | some t =>
      cases hp : st.pc t with
      | none =>
        rw [heldBy, hp] at ho
        exact absurd ho (Multiset.notMem_zero fd)
      | some p =>
        rw [heldBy_of_pc hp] at ho
        exact .inr ⟨t, p, hp, ho⟩
  case isOpen =>
    intro t p hp fd hfd
    rw [← heldBy_of_pc hp] at hfd
    refine ⟨hI.owned.conn_ne_none hfd, fun hl => ?_⟩
    cases hI.owned.unique (t := none) hl hfd
  case once =>
    intro t p hp
    refine ⟨?_, fun u q hq hne fd hfd hfd' => ?_⟩
    · rw [← heldBy_of_pc hp]
      exact hI.owned.nodup (some t)
    · rw [← heldBy_of_pc hp] at hfd
      rw [← heldBy_of_pc hq] at hfd'
      exact hne (Option.some.inj (hI.owned.unique hfd' hfd))
  case leaked =>
    rcases hI.leaked with h | h
    · exact .inl h
    · obtain ⟨fd, hfd⟩ := h
      refine .inr ⟨fd, hfd, fun t p hp hm => ?_⟩
      have hzero := (hI.main t p hp hm).2
      rw [hfd] at hzero
      exact Multiset.singleton_ne_zero fd hzero

/-- In every run of the proxy, whatever the operating system replies and in whatever order its tasks
are scheduled, no descriptor is lost and none is closed by two tasks. -/
theorem descriptors_owned (h : exec (turn S) xs S.start = some st) : Owned st :=
  (inv_exec (inv_start S) h).descriptors

/-- What a connection is passed on to does not change. -/
theorem relay_unique (h : Always Tidy log) (hj : .relay (some i) (some j) ∈ log)
    (hj' : .relay (some i) (some j') ∈ log) : j = j' := by
  induction log with
  | nil => cases hj
  | cons e log ih =>
    rcases List.mem_cons.mp hj with heq | hold
    · obtain ⟨i₁, j₁, hi₁, _, hunused, _⟩ := (heq ▸ h).head
      cases hi₁
      rcases List.mem_cons.mp hj' with heq' | hold'
      · cases heq.trans heq'.symm
        rfl
      · have hs := hunused _ hold'
        exact absurd rfl hs
    · rcases List.mem_cons.mp hj' with heq' | hold'
      · obtain ⟨i₁, j₁, hi₁, _, hunused, _⟩ := (heq' ▸ h).head
        cases hi₁
        have hs := hunused _ hold
        exact absurd rfl hs
      · exact ih h.tail hold hold'

/-- Of what is read from a connection a part is written, in its order; and if no write fails, all
but what is in one buffer. -/
theorem written_of_tidy (h : Always Tidy log) (i : ℕ) : (written i log).Sublist (got i log) ∧
    (Unfailed i log → written i log <+: got i log ∧
      (got i log).length ≤ (written i log).length + 2048) := by
  induction log with
  | nil => exact ⟨List.Sublist.refl _, fun _ => ⟨List.prefix_rfl, Nat.zero_le _⟩⟩
  | cons e log ih =>
    have hold := ih h.tail
    by_cases hs : e.subject = some i
    · cases e with
      | read k bytes =>
        obtain ⟨i', j, hk, _, hlen, hp⟩ := h.head
        obtain rfl : k = some i := hs
        obtain rfl := Option.some.inj hk
        have hpart := hp.part
        rw [List.append_nil] at hpart
        simp only [written, got, if_true]
        refine ⟨hpart.trans (List.sublist_append_left _ _), fun hu => ?_⟩
        have hwhole := hp.whole hu.tail
        rw [List.append_nil] at hwhole
        rw [hwhole, List.length_append]
        exact ⟨List.prefix_append _ _, by omega⟩
      | write k k' bytes failed =>
        obtain ⟨i', j, rest, hk, _, _, ⟨more, rfl⟩, hp⟩ := h.head
        obtain rfl : k = some i := hs
        obtain rfl := Option.some.inj hk
        have hpart := hp.part
        rw [← List.append_assoc] at hpart
        simp only [written, got, if_true]
        refine ⟨(List.sublist_append_left _ _).trans hpart, fun hu => ?_⟩
        have hwhole := hp.whole hu.tail
        rw [← List.append_assoc] at hwhole
        have hle := (hold.2 hu.tail).2
        refine ⟨⟨more, hwhole⟩, ?_⟩
        rw [List.length_append]
        omega
      | proxy => cases hs
      | relay | shutdown | close =>
        exact ⟨hold.1, fun hu => hold.2 hu.tail⟩
    · have hne : ∀ d ∈ [e], d.subject ≠ some i := fun d hd => List.mem_singleton.mp hd ▸ hs
      have hg : got i (e :: log) = got i log := got_append hne
      have hw : written i (e :: log) = written i log := written_append hne
      have hu : Unfailed i (e :: log) ↔ Unfailed i log := unfailed_append hne
      rwa [hg, hw, hu]

/-- What the proxy has done is in order: its events are, each connection is passed on to one other,
and it invents, doubles and reorders no byte, and loses none unless a write fails. -/
structure Relayed (log : List Event) : Prop where
  tidy : Always Tidy log
  partner : ∀ i j j', .relay (some i) (some j) ∈ log → .relay (some i) (some j') ∈ log → j = j'
  part : ∀ i, (written i log).Sublist (got i log)
  whole : ∀ i, Unfailed i log → written i log <+: got i log ∧
    (got i log).length ≤ (written i log).length + 2048

/-- In every run of the proxy the bytes that come from one peer are passed on to the other. -/
theorem proxy_relays (h : exec (turn S) xs S.start = some st) : Relayed st.log where
  tidy := (inv_exec (inv_start S) h).tidy
  partner _ _ _ := relay_unique (inv_exec (inv_start S) h).tidy
  part i := (written_of_tidy (inv_exec (inv_start S) h).tidy i).1
  whole i := (written_of_tidy (inv_exec (inv_start S) h).tidy i).2

end

/-- A proxy for a server that is given by its address. -/
def Setup.small : Setup where
  argc := 4
  localport := 80
  server := ⟨['1', '0', '.', '1'], by decide, by decide⟩
  port := 8080
  main := 4096
  main_ne := Program.small.taskmain_ne
  main_aligned := Program.small.taskmain_aligned

/-- The first `n` inputs of a run with memory for every task. The operating system replies what
`rets` says, and 0 where that is silent; `poll` finds one slot ready. -/
def replies (rets : List (ℕ × ℤ)) (ready : List (ℕ × ℕ)) (n : ℕ) : List Input :=
  (List.range n).map fun i =>
    { env := { Env.still (UInt32.ofNat (8192 + 4096 * i)) with
        poll := (ready.lookup i).elim .eintr fun k => .done fun j => if j = k then 1 else 0 }
      junk := Vector.replicate 4 0
      reply :=
        let ret := (rets.lookup i).getD 0
        { ret, errno := EAGAIN, bytes := List.replicate ret.toNat 120, addr := none } }

/-- A client sends two bytes, of which the first one is passed on. -/
def passesOn : List Input :=
  replies [(4, 3), (25, 5), (38, 6), (52, 1), (55, 1), (63, 2), (65, 1)] [(22, 0), (47, 1)] 66

theorem descriptors_owned_small : ∃ st,
    exec (turn Setup.small) passesOn Setup.small.start = some st ∧
    (st.fds.conn 3, st.fds.conn 5, st.fds.conn 6) = (some 0, some 1, some 2) ∧ Owned st := by
  have hrun : (exec (turn Setup.small) passesOn Setup.small.start).map
      (fun st => (st.fds.conn 3, st.fds.conn 5, st.fds.conn 6)) =
      some (some 0, some 1, some 2) := by
    decide +kernel
  obtain ⟨st, hst, hconn⟩ := Option.map_eq_some_iff.mp hrun
  exact ⟨st, hst, hconn, descriptors_owned hst⟩

/-- A client has closed, and another one that has got its descriptor is sent what the server still
had for the first one: a task knows its other connection by the descriptor alone. -/
def mixesUp : List Input :=
  replies [(4, 3), (25, 5), (38, 6), (52, 1), (55, 1), (63, 0), (70, -1),
    (78, 5), (91, 7), (103, 1),
    (105, 1)] [(22, 0), (47, 1), (75, 0), (100, 0)] 107

theorem proxy_relays_mixed : ∃ st, exec (turn Setup.small) mixesUp Setup.small.start = some st ∧
    st.log = [.write (some 2) (some 3) [120] false, .read (some 2) [120], .proxy (some 3),
      .read (some 2) [], .close (some 1), .shutdown (some 1) (some 2), .read (some 1) [],
      .relay (some 2) (some 1), .relay (some 1) (some 2), .proxy (some 1)] ∧ Relayed st.log := by
  have hrun : (exec (turn Setup.small) mixesUp Setup.small.start).map State.log =
      some [.write (some 2) (some 3) [120] false, .read (some 2) [120], .proxy (some 3),
        .read (some 2) [], .close (some 1), .shutdown (some 1) (some 2), .read (some 1) [],
        .relay (some 2) (some 1), .relay (some 1) (some 2), .proxy (some 1)] := by
    decide +kernel
  obtain ⟨st, hst, hlog⟩ := Option.map_eq_some_iff.mp hrun
  exact ⟨st, hst, hlog, proxy_relays hst⟩

end Libtask.Tcpproxy
