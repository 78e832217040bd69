import Libtask.Refine.Sockets

/-! The functions of net.c that make connections, by themselves: how far each is from its end, and
that it leaves no descriptor open but the one that it returns. -/
namespace Libtask.Sockets
open Ownership

/-- How many steps `fdnoblock` still makes at most; and so on for the others. -/
@[simp] def FdnoblockPc.rank : FdnoblockPc → ℕ
  | .getfl => 2
  | .setfl _ => 1
  | .done _ => 0

@[simp] def NetlookupPc.rank : NetlookupPc → ℕ
  | .parseip => 1
  | .done _ => 0

@[simp] def NetannouncePc.rank : NetannouncePc → ℕ
  | .start => 11
  | .netlookup _ p => p.rank + 9
  | .socket _ => 8
  | .getsockopt _ _ => 7
  | .setsockopt _ _ => 6
  | .bind _ _ => 5
  | .listen _ => 4
  | .fdnoblock _ p => p.rank + 1
  | .close _ => 1
  | .done _ => 0

@[simp] def NetacceptPc.rank : NetacceptPc → ℕ
  | .fdwait => 6
  | .accept => 5
  | .fdnoblock _ p => p.rank + 2
  | .setsockopt _ => 1
  | .done _ => 0

@[simp] def NetdialPc.rank : NetdialPc → ℕ
  | .netlookup p => p.rank + 11
  | .socket _ => 10
  | .fdnoblock _ _ p => p.rank + 7
  | .setsockopt _ _ => 6
  | .connect _ _ => 5
  | .fdwait _ => 4
  | .getpeername _ => 3
  | .getsockopt _ => 2
  | .close _ => 1
  | .done _ => 0

/-- A function keeps account of the descriptors: whatever the operating system replies, at each
moment it has closed what it has opened but for one at most, and nothing else; it gets to its end in
`n` steps, and what it returns is then what it has left open. -/
structure Account {τ π : Type} (code : π → Code τ π ℤ) (start : π) (n : ℕ) : Prop where
  open_le_one : ∀ es m p, Route effect code start es m p →
    ∃ h, acquired es = released es + h ∧ h.card ≤ 1
  returned : ∀ es m p v, Route effect code start es m p → code p = .ret v →
    acquired es = released es + held v
  ends : ∀ es m p, Route effect code start es m p → m ≤ n ∧
    ((∃ v, code p = .ret v) ∨ ∃ es' p', Route effect code start es' (m + 1) p')

section
variable {τ π : Type} {fd : Fd} {junk : Address} {name : CString} {istcp : Bool}
  {server : Option CString} {port : ℤ}

theorem card_held (v : ℤ) : (held v).card ≤ 1 := by
  unfold held
  split
  · exact Nat.zero_le 1
  · exact le_refl 1

theorem account_of_rank {code : π → Code τ π ℤ} {holds : π → Multiset Fd} {rank : π → ℕ} {start : π}
    (hb : ∀ p, Balanced effect (fun _ : τ => 0) holds (fun v h => h = held v) (holds p) (code p))
    (hd : ∀ p, (code p).Descends rank (rank p)) (h0 : holds start = 0)
    (hc : ∀ p, (holds p).card ≤ 1) : Account code start (rank start) where
  open_le_one es m p h := ⟨holds p, h.account hb h0, hc p⟩
  returned es m p v h hv := by
    have hp := hb p
    rw [hv] at hp
    rw [h.account hb h0, show holds p = held v from hp]
  ends es m p h := ⟨(Nat.le_add_right m (rank p)).trans (h.length_le hd),
    h.goes_on hd ⟨0, 0, [], none⟩⟩

theorem descends_fdnoblock (p : FdnoblockPc) :
    (fdnoblock (τ := τ) fd p).Descends FdnoblockPc.rank p.rank := by
  cases p with
  | getfl | setfl => exact fun _ => Nat.lt_succ_self _
  | done => trivial

theorem descends_netlookup (p : NetlookupPc) :
    (netlookup (τ := τ) name junk p).Descends NetlookupPc.rank p.rank := by
  cases p with
  | parseip =>
    simp only [netlookup]
    split
    · trivial
    · exact fun _ => Nat.lt_succ_self _
  | done => trivial

theorem rank_opened {rank : π → ℕ} {failed : π} {k : Fd → π} {m : ℕ} (x : Reply)
    (hf : rank failed < m) (hk : ∀ fd, rank (k fd) < m) : rank (opened x failed k) < m := by
  unfold opened
  split
  · exact hf
  · exact hk _

theorem descends_netannounce (p : NetannouncePc) :
    (netannounce (τ := τ) istcp server port junk p).Descends NetannouncePc.rank p.rank := by
  cases p with
  | start =>
    simp only [netannounce]
    split
    · simp
    · split
      · simp
      · simp
  | netlookup name p =>
    refine (descends_netlookup p).andThen (fun _ => rfl) fun v => ?_
    cases v with
    | none => trivial
    | some ip => exact Nat.lt_of_lt_of_le (by omega : 8 < 9) (Nat.le_add_left 9 _)
  | socket ip =>
    refine fun x => rank_opened x (by simp) fun fd => ?_
    split
    · simp
    · simp
  | getsockopt fd ip =>
    intro x
    show NetannouncePc.rank (if _ then _ else _) < 7
    split
    · simp
    · simp
  | bind fd ip =>
    intro x
    show NetannouncePc.rank (if _ then _ else _) < 5
    split
    · simp
    · split
      · simp
      · simp
  | fdnoblock fd p => exact (descends_fdnoblock p).andThen (fun _ => rfl) fun _ => trivial
  | setsockopt | listen | close => exact fun _ => by simp
  | done => trivial

theorem descends_netaccept (p : NetacceptPc) :
    (netaccept (τ := τ) fd p).Descends NetacceptPc.rank p.rank := by
  cases p with
  | fdwait => exact Nat.lt_succ_self 5
  | accept => exact fun x => rank_opened x (by simp) fun _ => by simp
  | fdnoblock cfd p =>
    refine (descends_fdnoblock p).andThen (fun _ => rfl) fun _ => ?_
    exact Nat.lt_of_lt_of_le (by omega : 1 < 2) (Nat.le_add_left 2 _)
  | setsockopt cfd => exact fun _ => Nat.lt_succ_self 0
  | done => trivial

theorem descends_netdial (p : NetdialPc) :
    (netdial (τ := τ) istcp name port junk p).Descends NetdialPc.rank p.rank := by
  cases p with
  | netlookup p =>
    refine (descends_netlookup p).andThen (fun _ => rfl) fun v => ?_
    cases v with
    | none => trivial
    | some ip => exact Nat.lt_of_lt_of_le (by omega : 10 < 11) (Nat.le_add_left 11 _)
  | socket ip => exact fun x => rank_opened x (by simp) fun _ => by simp
  | fdnoblock fd ip p =>
    refine (descends_fdnoblock p).andThen (fun _ => rfl) fun _ => ?_
    split
    · exact Nat.lt_of_lt_of_le (by omega : 5 < 7) (Nat.le_add_left 7 _)
    · exact Nat.lt_of_lt_of_le (by omega : 6 < 7) (Nat.le_add_left 7 _)
  | connect fd ip =>
    intro x
    show NetdialPc.rank (if _ then _ else _) < 5
    split
    · simp
    · simp
  | getpeername fd =>
    intro x
    show NetdialPc.rank (if _ then _ else _) < 3
    split
    · simp
    · simp
  | setsockopt | getsockopt | close => exact fun _ => by simp
  | fdwait => exact Nat.lt_succ_self 3
  | done => trivial

theorem NetannouncePc.card_holds (p : NetannouncePc) : p.holds.card ≤ 1 := by
  cases p with
  | done v => exact card_held v
  | start | netlookup | socket => exact Nat.zero_le 1
  | _ => exact le_refl 1

theorem NetacceptPc.card_holds (p : NetacceptPc) : p.holds.card ≤ 1 := by
  cases p with
  | done v => exact card_held v
  | fdwait | accept => exact Nat.zero_le 1
  | _ => exact le_refl 1

theorem NetdialPc.card_holds (p : NetdialPc) : p.holds.card ≤ 1 := by
  cases p with
  | done v => exact card_held v
  | netlookup | socket => exact Nat.zero_le 1
  | _ => exact le_refl 1

end

/-- Whoever calls `netannounce`, `netaccept` or `netdial`, for TCP or UDP: no path through them
leaves a descriptor open that is not returned, and each is short. -/
theorem connections_account (τ : Type) :
    (∀ istcp server port junk,
      Account (netannounce (τ := τ) istcp server port junk) .start 11) ∧
    (∀ fd, Account (netaccept (τ := τ) fd) .fdwait 6) ∧
    ∀ istcp server port junk,
      Account (netdial (τ := τ) istcp server port junk) (.netlookup .parseip) 12 := by
  refine ⟨fun istcp server port junk => ?_, fun fd => ?_, fun istcp server port junk => ?_⟩
  · exact account_of_rank balanced_netannounce descends_netannounce rfl NetannouncePc.card_holds
  · exact account_of_rank balanced_netaccept descends_netaccept rfl NetacceptPc.card_holds
  · exact account_of_rank balanced_netdial descends_netdial rfl NetdialPc.card_holds

end Libtask.Sockets
