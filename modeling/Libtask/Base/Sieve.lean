import Mathlib.Data.List.Infix
import Mathlib.Data.List.Perm.Subperm
import Mathlib.Data.Nat.Prime.Basic

/-! The sieve as filters in a row: what passes the filters of the first primes begins with the
next prime. -/
namespace Sieve

def primesBelow (m : ℕ) : List ℕ := (List.range m).filter Nat.Prime

/-- The primes up to some number, in order. -/
def FirstPrimes (ps : List ℕ) : Prop := ∃ m, ps = primesBelow m

/-- What passes the filters of `ps` of the `n` numbers from 2 on. -/
def sieved (ps : List ℕ) (n : ℕ) : List ℕ := (List.range' 2 n).filter fun x => ∀ p ∈ ps, ¬p ∣ x

/-- An initial part of what passes the filters of `ps`. -/
def Sieved (ps xs : List ℕ) : Prop := ∃ n, xs = sieved ps n

variable {ps xs ys : List ℕ} {p q n x : ℕ}

@[simp] theorem mem_primesBelow : q ∈ primesBelow n ↔ q < n ∧ q.Prime := by
  simp [primesBelow]

@[simp] theorem mem_sieved : x ∈ sieved ps n ↔ (2 ≤ x ∧ x < 2 + n) ∧ ∀ p ∈ ps, ¬p ∣ x := by
  simp [sieved]

theorem primesBelow_succ : primesBelow (n + 1) = primesBelow n ++ if n.Prime then [n] else [] := by
  by_cases hn : n.Prime <;> simp [primesBelow, List.range_succ, hn]

theorem primesBelow_initial (m n : ℕ) : primesBelow m <+: primesBelow (m + n) := by
  rw [primesBelow, primesBelow, List.range_add, List.filter_append]
  exact List.prefix_append _ _

theorem sieved_succ : sieved ps (n + 1) =
    sieved ps n ++ if ∀ p ∈ ps, ¬p ∣ 2 + n then [2 + n] else [] := by
  simp only [sieved, List.range'_concat, List.filter_append, Nat.one_mul, List.filter_singleton,
    Bool.cond_decide]

theorem sieved_pairwise (ps : List ℕ) (n : ℕ) : (sieved ps n).Pairwise (· < ·) :=
  List.Pairwise.filter _ (List.pairwise_lt_range' ..)

theorem Sieved.pairwise (h : Sieved ps xs) : xs.Pairwise (· < ·) := by
  obtain ⟨n, rfl⟩ := h
  exact sieved_pairwise ps n

theorem sieved_nil (n : ℕ) : Sieved [] (List.range' 2 n) := ⟨n, by simp [sieved]⟩

theorem Sieved.initial (h : Sieved ps xs) (hp : ys <+: xs) : Sieved ps ys := by
  obtain ⟨n, rfl⟩ := h
  induction n with
  | zero =>
    have hnil : ys = [] := List.prefix_nil.mp hp
    exact ⟨0, hnil⟩
  | succ n ih =>
    by_cases hn : ∀ p ∈ ps, ¬p ∣ 2 + n
    · rw [sieved_succ, if_pos hn, List.prefix_concat_iff] at hp
      rcases hp with hp | hp
      · exact ⟨n + 1, by rw [hp, sieved_succ, if_pos hn]⟩
      · exact ih hp
    · rw [sieved_succ, if_neg hn, List.append_nil] at hp
      exact ih hp

theorem sieved_filter (ps : List ℕ) (p n : ℕ) :
    (sieved ps n).filter (fun x => ¬p ∣ x) = sieved (ps ++ [p]) n := by
  rw [sieved, List.filter_filter, sieved]
  apply List.filter_congr
  intro x _
  simp [or_imp, forall_and, and_comm]

/-- The first number to pass the filters sets up the next one. -/
theorem Sieved.next (h : Sieved ps (p :: xs)) :
    Sieved (ps ++ [p]) (xs.filter fun x => ¬p ∣ x) := by
  obtain ⟨n, hn⟩ := h
  refine ⟨n, ?_⟩
  rw [← sieved_filter, ← hn]
  simp

theorem Sieved.two_le (h : Sieved ps xs) (hx : x ∈ xs) : 2 ≤ x := by
  obtain ⟨n, rfl⟩ := h
  exact (mem_sieved.mp hx).1.1

theorem Sieved.not_dvd (h : Sieved ps xs) (hx : x ∈ xs) (hp : p ∈ ps) : ¬p ∣ x := by
  obtain ⟨n, rfl⟩ := h
  exact (mem_sieved.mp hx).2 p hp

/-- Nothing that passes the filters comes before the first number that does. -/
theorem Sieved.least (h : Sieved ps (p :: xs)) (h2 : 2 ≤ q) (hq : ∀ r ∈ ps, ¬r ∣ q) : p ≤ q := by
  obtain ⟨n, hn⟩ := h
  have hp : p ∈ sieved ps n := by simp [← hn]
  by_contra hlt
  have hmem : q ∈ sieved ps n := by
    rw [mem_sieved] at hp ⊢
    exact ⟨⟨h2, by omega⟩, hq⟩
  have hlt' : (p :: xs).Pairwise (· < ·) := hn ▸ sieved_pairwise ps n
  rw [← hn, List.mem_cons] at hmem
  rcases hmem with rfl | hmem
  · omega
  · have := (List.pairwise_cons.mp hlt').1 q hmem
    omega

/-- No prime is a multiple of another one. -/
theorem FirstPrimes.not_dvd (h : FirstPrimes ps) (hq : q.Prime) (hn : q ∉ ps) :
    ∀ r ∈ ps, ¬r ∣ q := by
  obtain ⟨m, rfl⟩ := h
  intro r hr hdvd
  have hrq : r = q := (Nat.prime_dvd_prime_iff_eq (mem_primesBelow.mp hr).2 hq).mp hdvd
  exact hn (hrq ▸ hr)

/-- The first number to pass the filters of the first primes is the next prime. -/
theorem FirstPrimes.snoc (h : FirstPrimes ps) (hs : Sieved ps (p :: xs)) :
    FirstPrimes (ps ++ [p]) := by
  have h2 := hs.two_le (x := p) (by simp)
  have hpass : ∀ r ∈ ps, ¬r ∣ p := fun r hr => hs.not_dvd (by simp) hr
  have hleast : ∀ q, q.Prime → q ∉ ps → p ≤ q := fun q hq hn =>
    hs.least hq.two_le (h.not_dvd hq hn)
  have hfac : p.minFac.Prime := Nat.minFac_prime (by omega)
  have hpf : p.minFac = p := by
    have hle := hleast p.minFac hfac fun hmem => hpass _ hmem p.minFac_dvd
    have := p.minFac_le (by omega)
    omega
  have hprime : p.Prime := hpf ▸ hfac
  obtain ⟨m, rfl⟩ := h
  have hm : m ≤ p := by
    by_contra hlt
    exact hpass p (mem_primesBelow.mpr ⟨by omega, hprime⟩) dvd_rfl
  -- there is no prime from `m` up to `p`
  have hgap : ∀ k, m + k ≤ p → primesBelow (m + k) = primesBelow m := by
    intro k hk
    induction k with
    | zero => rfl
    | succ k ih =>
      have hnp : ¬(m + k).Prime := by
        intro hq
        have := hleast (m + k) hq (by simp)
        omega
      rw [← Nat.add_assoc, primesBelow_succ, if_neg hnp, List.append_nil, ih (by omega)]
  refine ⟨p + 1, ?_⟩
  have hsame := hgap (p - m) (by omega)
  rw [Nat.add_sub_cancel' hm] at hsame
  rw [primesBelow_succ, if_pos hprime, hsame]

/-- The first primes up to one that is beyond `n` are those up to `n`. -/
theorem FirstPrimes.eq_primesBelow (h : FirstPrimes (ps ++ [p])) (hps : ∀ q ∈ ps, q ≤ n)
    (hp : n < p) : ps = primesBelow (n + 1) := by
  obtain ⟨m, hm⟩ := h
  have hpm : p ∈ primesBelow m := by simp [← hm]
  obtain ⟨k, rfl⟩ := Nat.exists_eq_add_of_le (show n + 1 ≤ m by
    have := (mem_primesBelow.mp hpm).1
    omega)
  have hsplit : primesBelow (n + 1 + k) = primesBelow (n + 1) ++
      ((List.range k).map (n + 1 + ·)).filter Nat.Prime := by
    rw [primesBelow, List.range_add, List.filter_append, primesBelow]
  have hkeep := congrArg (List.filter fun q => q ≤ n) (hm.trans hsplit)
  have hleft : (ps ++ [p]).filter (fun q => q ≤ n) = ps := by
    rw [List.filter_append, List.filter_eq_self.mpr (by simpa using hps)]
    simp [hp]
  have hlow : (primesBelow (n + 1)).filter (fun q => q ≤ n) = primesBelow (n + 1) := by
    apply List.filter_eq_self.mpr
    intro q hq
    have := (mem_primesBelow.mp hq).1
    simp only [decide_eq_true_eq]
    omega
  have hhigh : (((List.range k).map (n + 1 + ·)).filter Nat.Prime).filter
      (fun q => q ≤ n) = [] := by
    rw [List.filter_eq_nil_iff]
    intro q hq
    obtain ⟨j, _, rfl⟩ := List.mem_map.mp (List.mem_filter.mp hq).1
    simp only [decide_eq_true_eq]
    omega
  rwa [hleft, List.filter_append, hlow, hhigh, List.append_nil] at hkeep

/-- Up to `n` the first primes are a part of those up to `n`. -/
theorem FirstPrimes.isPrefix (h : FirstPrimes ps) (hps : ∀ q ∈ ps, q ≤ n) :
    ps <+: primesBelow (n + 1) := by
  obtain ⟨m, rfl⟩ := h
  rcases Nat.le_total m (n + 1) with hle | hle
  · obtain ⟨j, hj⟩ := Nat.exists_eq_add_of_le hle
    rw [hj]
    exact primesBelow_initial m j
  · obtain ⟨j, rfl⟩ := Nat.exists_eq_add_of_le hle
    have hpre := primesBelow_initial (n + 1) j
    have hlen : (primesBelow (n + 1 + j)).length ≤ (primesBelow (n + 1)).length := by
      apply (List.subperm_of_subset _ _).length_le
      · exact List.nodup_range.filter _
      · intro q hq
        have hle' := hps q hq
        rw [mem_primesBelow] at hq ⊢
        exact ⟨by omega, hq.2⟩
    rw [← hpre.eq_of_length_le hlen]

/-- So many numbers in increasing order there are below `n`. -/
theorem length_le_of_pairwise (h : xs.Pairwise (· < ·)) (hn : ∀ x ∈ xs, x < n) : xs.length ≤ n := by
  have hsub : xs ⊆ List.range n := fun x hx => List.mem_range.mpr (hn x hx)
  have hnodup : xs.Nodup := h.imp fun hlt => hlt.ne
  simpa using (List.subperm_of_subset hnodup hsub).length_le

theorem FirstPrimes.pairwise (h : FirstPrimes ps) : ps.Pairwise (· < ·) := by
  obtain ⟨m, rfl⟩ := h
  exact List.pairwise_lt_range.filter _

/-- How many of the numbers are primes beyond `n`. -/
def beyond (n : ℕ) (xs : List ℕ) : ℕ := xs.countP fun x => n < x ∧ x.Prime

@[simp] theorem beyond_nil : beyond n [] = 0 := rfl

@[simp] theorem beyond_append : beyond n (xs ++ ys) = beyond n xs + beyond n ys := by
  simp [beyond]

theorem beyond_cons_of_le (h : p ≤ n) : beyond n (p :: xs) = beyond n xs := by
  rw [beyond, List.countP_cons_of_neg, beyond]
  simp [h]

theorem beyond_le_length : beyond n xs ≤ xs.length := List.countP_le_length

/-- The filter of a number up to `n` lets all primes beyond `n` pass. -/
theorem beyond_filter (h2 : 2 ≤ p) (h : p ≤ n) : beyond n (xs.filter fun x => ¬p ∣ x) =
    beyond n xs := by
  rw [beyond, List.countP_filter, beyond]
  apply List.countP_congr
  intro x _
  simp only [Bool.and_eq_true, decide_eq_true_eq, and_iff_left_iff_imp]
  rintro ⟨hlt, hx⟩ hdvd
  rcases (Nat.dvd_prime hx).mp hdvd with rfl | rfl <;> omega

/-- The primes among the first numbers are those up to `n` and those beyond. -/
theorem length_primesBelow_le (m n : ℕ) : (primesBelow (2 + m)).length ≤
    (primesBelow (n + 1)).length + beyond n (List.range' 2 m) := by
  have hsplit : (primesBelow (2 + m)).length =
      (primesBelow (2 + m)).countP (· ≤ n) + (primesBelow (2 + m)).countP (¬· ≤ n) := by
    simpa using List.length_eq_countP_add_countP (· ≤ n) (l := primesBelow (2 + m))
  have hlow : (primesBelow (2 + m)).countP (· ≤ n) ≤ (primesBelow (n + 1)).length := by
    rw [List.countP_eq_length_filter]
    apply (List.subperm_of_subset _ _).length_le
    · exact (List.nodup_range.filter _).filter _
    · intro q hq
      rw [List.mem_filter, mem_primesBelow] at hq
      have := of_decide_eq_true hq.2
      exact mem_primesBelow.mpr ⟨by omega, hq.1.2⟩
  have hrange : List.range (2 + m) = [0, 1] ++ List.range' 2 m := by
    rw [List.range_eq_range', List.range'_append_1 |>.symm]
    rfl
  have hhigh : (primesBelow (2 + m)).countP (¬· ≤ n) = beyond n (List.range' 2 m) := by
    rw [primesBelow, List.countP_filter, hrange, List.countP_append, beyond]
    have hnone : List.countP (fun a => decide (¬a ≤ n) && decide (Nat.Prime a)) [0, 1] = 0 := by
      simp [Nat.not_prime_zero, Nat.not_prime_one]
    rw [hnone, Nat.zero_add]
    apply List.countP_congr
    intro x _
    simp
  omega

end Sieve
