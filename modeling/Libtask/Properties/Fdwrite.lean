import Libtask.Fdio
import Mathlib.Data.List.Range

/-! What `fdwrite` delivers is a prefix of the buffer, and its result says how long it is. -/
namespace Libtask

/-- The positions in the buffer of the bytes that the descriptor accepted. -/
def FdAct.accepted : FdAct → List ℕ
  | .write off _ (.ok m) => List.range' off m
  | _ => []

/-- `write` accepts no more bytes than it is given. -/
def FdAct.Proper : FdAct → Prop
  | .write _ len (.ok m) => m ≤ len
  | _ => True

/-- The library is called only to wait, right after a `write` that reported `EAGAIN`. -/
def WaitsOnEagain (fd : ℤ) (acts : List FdAct) : Prop :=
  ∀ pre c post, acts = pre ++ .call c :: post →
    c = .fdwait fd 'w' ∧ ∃ pre' off len, pre = pre' ++ [.write off len (.error EAGAIN)]

namespace WaitsOnEagain
variable {fd : ℤ} {acts acts' : List FdAct}

theorem nil (fd : ℤ) : WaitsOnEagain fd [] := by
  intro pre c post h
  simp at h

theorem write (fd : ℤ) (off len : ℕ) (r : WriteResult) : WaitsOnEagain fd [.write off len r] := by
  intro pre c post h
  have hmem : FdAct.call c ∈ [FdAct.write off len r] := by
    rw [h]
    simp
  simp at hmem

theorem append (h : WaitsOnEagain fd acts) (h' : WaitsOnEagain fd acts') :
    WaitsOnEagain fd (acts ++ acts') := by
  intro pre c post heq
  rcases List.append_eq_append_iff.mp heq with ⟨rest, rfl, hrest⟩ | ⟨rest, hacts, hrest⟩
  · obtain ⟨hc, pre', off, len, rfl⟩ := h' rest c post hrest
    exact ⟨hc, acts ++ pre', off, len, by rw [List.append_assoc]⟩
  · cases rest with
    | nil =>
      rw [List.append_nil] at hacts
      subst hacts
      obtain ⟨hc, pre', off, len, hnil⟩ := h' [] c post hrest.symm
      simp at hnil
    | cons a rest =>
      obtain ⟨rfl, _⟩ := List.cons.inj hrest
      exact h pre _ rest hacts

theorem again (h : WaitsOnEagain fd acts) (off len : ℕ) : WaitsOnEagain fd
    (.write off len (.error EAGAIN) :: .call (.fdwait fd 'w') :: acts) := by
  intro pre c post heq
  cases pre with
  | nil => simp at heq
  | cons x pre =>
    cases pre with
    | nil =>
      simp only [List.cons_append, List.nil_append, List.cons.injEq, FdAct.call.injEq] at heq
      obtain ⟨rfl, rfl, _⟩ := heq
      exact ⟨rfl, [], off, len, rfl⟩
    | cons y pre =>
      simp only [List.cons_append, List.cons.injEq] at heq
      obtain ⟨hc, pre', off', len', rfl⟩ := h pre c post heq.2.2
      exact ⟨hc, x :: y :: pre', off', len', rfl⟩

end WaitsOnEagain

/-- What the inner loop does: it asks for the same bytes until it gets another outcome than
`EAGAIN`. -/
structure Retried (fd : ℤ) (off len : ℕ) (rs : List WriteResult) (r : WriteResult)
    (acts : List FdAct) (rs' : List WriteResult) : Prop where
  result : r ≠ .error EAGAIN
  shorter : rs'.length < rs.length
  asked : ∀ off' len' r', .write off' len' r' ∈ acts → off' = off ∧ len' = len
  last : .write off len r ∈ acts
  accepted : acts.flatMap FdAct.accepted = (FdAct.write off len r).accepted
  waits : WaitsOnEagain fd acts

/-- What the outer loop does from the position `tot` on, `k` being where it stops. -/
structure Written (fd : ℤ) (n tot k : ℕ) (v : ℤ) (acts : List FdAct) : Prop where
  within : tot ≤ k ∧ k ≤ n
  accepted : acts.flatMap FdAct.accepted = List.range' tot (k - tot)
  asked : ∀ off len r, .write off len r ∈ acts → off + len = n
  value : 0 ≤ v → v = k
  short : 0 ≤ v → v < n → ∃ off len, .write off len (.ok 0) ∈ acts
  failed : v < 0 → ∃ off len errno, .write off len (.error errno) ∈ acts ∧ errno ≠ EAGAIN
  waits : WaitsOnEagain fd acts

section
variable {fd : ℤ} {n tot off len fuel : ℕ} {rs rs' : List WriteResult} {r : WriteResult} {v : ℤ}
  {acts : List FdAct}

theorem fdwriteRetry_spec (h : fdwriteRetry fd off len rs = some (r, acts, rs')) :
    Retried fd off len rs r acts rs' := by
  induction rs generalizing acts with
  | nil => cases h
  | cons r₀ rs ih =>
    unfold fdwriteRetry at h
    split at h
    · rename_i hr₀
      obtain ⟨⟨r₁, acts₁, rs₁⟩, h₁, hret⟩ := Option.bind_eq_some_iff.mp h
      cases hret
      have hrest := ih h₁
      subst hr₀
      constructor
      case result => exact hrest.result
      case shorter => exact Nat.lt_succ_of_lt hrest.shorter
      case asked =>
        intro off' len' r' hmem
        simp only [List.mem_cons, FdAct.write.injEq, reduceCtorEq, false_or] at hmem
        rcases hmem with ⟨rfl, rfl, _⟩ | hmem
        · exact ⟨rfl, rfl⟩
        · exact hrest.asked off' len' r' hmem
      case last => exact List.mem_cons_of_mem _ (List.mem_cons_of_mem _ hrest.last)
      case accepted =>
        rw [List.flatMap_cons, List.flatMap_cons, hrest.accepted]
        rfl
      case waits => exact hrest.waits.again off len
    · rename_i hr₀
      cases h
      constructor
      case result => exact hr₀
      case shorter => exact Nat.lt_succ_self _
      case asked =>
        intro off' len' r' hmem
        simp only [List.mem_singleton, FdAct.write.injEq] at hmem
        exact ⟨hmem.1, hmem.2.1⟩
      case last => simp
      case accepted => simp
      case waits => exact .write fd off len r

theorem Written.done (h : ¬tot < n) (hle : tot ≤ n) : Written fd n tot tot tot [] where
  within := ⟨le_refl _, hle⟩
  accepted := by simp
  asked := by simp
  value _ := rfl
  short _ hv := by omega
  failed hv := by omega
  waits := .nil fd

theorem Retried.asked_end (h : Retried fd tot (n - tot) rs r acts rs') (hlt : tot < n) :
    ∀ off len r', .write off len r' ∈ acts → off + len = n := by
  intro off len r' hmem
  obtain ⟨rfl, rfl⟩ := h.asked off len r' hmem
  omega

theorem Written.error {errno : ℕ} (h : Retried fd tot (n - tot) rs (.error errno) acts rs')
    (hlt : tot < n) : Written fd n tot tot (-1) acts where
  within := ⟨le_refl _, hlt.le⟩
  accepted := by
    rw [h.accepted]
    simp [FdAct.accepted]
  asked := h.asked_end hlt
  value hv := by omega
  short hv := by omega
  failed _ := ⟨tot, n - tot, errno, h.last, fun he => h.result (by rw [he])⟩
  waits := h.waits

theorem Written.zero (h : Retried fd tot (n - tot) rs (.ok 0) acts rs') (hlt : tot < n) :
    Written fd n tot tot tot acts where
  within := ⟨le_refl _, hlt.le⟩
  accepted := by
    rw [h.accepted]
    simp [FdAct.accepted]
  asked := h.asked_end hlt
  value _ := rfl
  short _ _ := ⟨tot, n - tot, h.last⟩
  failed hv := by omega
  waits := h.waits

theorem Written.more {m k : ℕ} {acts' : List FdAct}
    (h : Retried fd tot (n - tot) rs (.ok m) acts rs') (hlt : tot < n)
    (h' : Written fd n (tot + m) k v acts') : Written fd n tot k v (acts ++ acts') where
  within := ⟨(Nat.le_add_right tot m).trans h'.within.1, h'.within.2⟩
  accepted := by
    have hm : k - tot = m + (k - (tot + m)) := by
      have hle := h'.within.1
      omega
    rw [List.flatMap_append, h.accepted, h'.accepted, hm, ← List.range'_append_1]
    rfl
  asked off len r' hmem :=
    (List.mem_append.mp hmem).elim (h.asked_end hlt off len r') (h'.asked off len r')
  value := h'.value
  short hv hlt' := by
    obtain ⟨off, len, hmem⟩ := h'.short hv hlt'
    exact ⟨off, len, List.mem_append_right _ hmem⟩
  failed hv := by
    obtain ⟨off, len, errno, hmem, hne⟩ := h'.failed hv
    exact ⟨off, len, errno, List.mem_append_right _ hmem, hne⟩
  waits := h.waits.append h'.waits

theorem fdwriteLoop_written (hle : tot ≤ n) (h : fdwriteLoop fd n fuel tot rs = some (v, acts))
    (hproper : ∀ x ∈ acts, x.Proper) : ∃ k, Written fd n tot k v acts := by
  induction fuel generalizing tot rs v acts with
  | zero => cases h
  | succ fuel ih =>
    unfold fdwriteLoop at h
    split at h
    · rename_i hlt
      obtain ⟨⟨r, acts₁, rs₁⟩, h₁, hrest⟩ := Option.bind_eq_some_iff.mp h
      have hretry := fdwriteRetry_spec h₁
      cases r with
      | error errno =>
        cases hrest
        exact ⟨tot, .error hretry hlt⟩
      | ok m =>
        dsimp only at hrest
        split at hrest
        · rename_i hm
          cases hrest
          exact ⟨tot, .zero (hm ▸ hretry) hlt⟩
        · obtain ⟨⟨v', acts'⟩, hloop, hret⟩ := Option.bind_eq_some_iff.mp hrest
          cases hret
          have hm : m ≤ n - tot := hproper _ (List.mem_append_left _ hretry.last)
          have hproper' : ∀ x ∈ acts', x.Proper :=
            fun x hx => hproper x (List.mem_append_right _ hx)
          obtain ⟨k, hk⟩ := ih (by omega) hloop hproper'
          exact ⟨k, .more hretry hlt hk⟩
    · rename_i hge
      cases h
      exact ⟨tot, .done hge hle⟩

theorem fdwriteLoop_succ (hf : rs.length < fuel) :
    fdwriteLoop fd n (fuel + 1) tot rs = fdwriteLoop fd n fuel tot rs := by
  induction fuel generalizing tot rs with
  | zero => omega
  | succ fuel ih =>
    unfold fdwriteLoop
    split
    · cases h : fdwriteRetry fd tot (n - tot) rs with
      | none => rfl
      | some x =>
        obtain ⟨r, acts, rs'⟩ := x
        have hshort := (fdwriteRetry_spec h).shorter
        cases r with
        | error => rfl
        | ok m =>
          have hrest : fdwriteLoop fd n (fuel + 1) (tot + m) rs' =
              fdwriteLoop fd n fuel (tot + m) rs' :=
            ih (by omega)
          simp only [Option.bind_some, bind, hrest]
    · rfl

/-- The turns `fdwrite` is given are enough for the outcomes there are. -/
theorem fdwriteLoop_eq {k : ℕ} : fdwriteLoop fd n (rs.length + 1 + k) 0 rs = fdwrite fd n rs := by
  induction k with
  | zero => rfl
  | succ k ih => rw [← ih, ← Nat.add_assoc, fdwriteLoop_succ (by omega)]

end

/-- What `fdwrite` has delivered when it returns `v`: the first `k` bytes of the buffer. -/
structure Delivered (fd : ℤ) (n k : ℕ) (v : ℤ) (acts : List FdAct) : Prop where
  within : k ≤ n
  positions : acts.flatMap FdAct.accepted = List.range k
  bytes : ∀ buf : ℕ → UInt8, (acts.flatMap FdAct.accepted).map buf = (List.range k).map buf
  asked : ∀ off len r, .write off len r ∈ acts → off + len = n
  value : 0 ≤ v → v = k
  short : 0 ≤ v → v < n → ∃ off len, .write off len (.ok 0) ∈ acts
  failed : v < 0 → ∃ off len errno, .write off len (.error errno) ∈ acts ∧ errno ≠ EAGAIN
  waits : WaitsOnEagain fd acts

/-- `fdwrite` delivers a prefix of the buffer and reports it, whatever `write` does. -/
theorem fdwrite_delivers {fd : ℤ} {n : ℕ} {rs : List WriteResult} {v : ℤ} {acts : List FdAct}
    (h : fdwrite fd n rs = some (v, acts)) (hproper : ∀ x ∈ acts, x.Proper) :
    ∃ k, Delivered fd n k v acts := by
  obtain ⟨k, hk⟩ := fdwriteLoop_written (Nat.zero_le n) h hproper
  have hpos : acts.flatMap FdAct.accepted = List.range k := by
    rw [hk.accepted, Nat.sub_zero, List.range_eq_range']
  exact ⟨k, hk.within.2, hpos, fun buf => by rw [hpos], hk.asked, hk.value, hk.short, hk.failed,
    hk.waits⟩

/-- Three bytes, of which the descriptor takes one, and two after a wait. -/
theorem fdwrite_delivers_small : ∃ k, Delivered 5 3 k 3
    [.write 0 3 (.ok 1), .write 1 2 (.error EAGAIN), .call (.fdwait 5 'w'),
    .write 1 2 (.ok 2)] := by
  have hrun : fdwrite 5 3 [.ok 1, .error EAGAIN, .ok 2] = some (3,
      [.write 0 3 (.ok 1), .write 1 2 (.error EAGAIN), .call (.fdwait 5 'w'),
      .write 1 2 (.ok 2)]) :=
    rfl
  exact fdwrite_delivers hrun (by simp [FdAct.Proper])

end Libtask
