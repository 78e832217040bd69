import Mathlib.Data.BitVec

/-! A memory of bytes that is read and written in words of several bytes, the low byte first. -/
namespace ByteMemory

variable {w n k i j : ℕ} {m m' : BitVec w → BitVec 8} {a b p x : BitVec w}

/-- The `n` bytes from `a` on as one word. -/
def load (m : BitVec w → BitVec 8) : (n : ℕ) → BitVec w → BitVec (8 * n)
  | 0, _ => 0#0
  | n + 1, a => load m n (a + 1#w) ++ m a

def store (m : BitVec w → BitVec 8) (n : ℕ) (a : BitVec w) (v : BitVec (8 * n)) :
    BitVec w → BitVec 8 := fun x =>
  if (x - a).toNat < n then v.extractLsb' (8 * (x - a).toNat) 8 else m x

/-- The memory with the bytes `f 0`, …, `f (n - 1)` from `a` on. -/
def fill (m : BitVec w → BitVec 8) (a : BitVec w) (n : ℕ) (f : ℕ → BitVec 8) :
    BitVec w → BitVec 8 := fun x =>
  if (x - a).toNat < n then f (x - a).toNat else m x

/-- `x` is one of the `n` bytes from `a` on, which go round at the end of the memory. -/
def Within (a : BitVec w) (n : ℕ) (x : BitVec w) : Prop := (x - a).toNat < n

instance : Decidable (Within a n x) := by unfold Within; infer_instance

/-- Two ranges that share no byte. -/
def Apart (a : BitVec w) (n : ℕ) (b : BitVec w) (k : ℕ) : Prop :=
  ∀ x, Within a n x → ¬ Within b k x

theorem Apart.symm (h : Apart a n b k) : Apart b k a n := fun x hb ha => h x ha hb

theorem add_ofNat_sub (a : BitVec w) (i : ℕ) :
    a + BitVec.ofNat w i - a = BitVec.ofNat w i := by
  rw [BitVec.add_comm, BitVec.add_sub_cancel]

theorem add_ofNat_add (a : BitVec w) (i j : ℕ) :
    a + BitVec.ofNat w i + BitVec.ofNat w j = a + BitVec.ofNat w (i + j) := by
  rw [BitVec.add_assoc, ← BitVec.ofNat_add]

theorem within_add (hi : i < n) : Within a n (a + BitVec.ofNat w i) := by
  unfold Within
  rw [add_ofNat_sub, BitVec.toNat_ofNat]
  exact Nat.lt_of_le_of_lt (Nat.mod_le _ _) hi

theorem Within.exists_add (h : Within a n x) : ∃ i < n, x = a + BitVec.ofNat w i := by
  refine ⟨(x - a).toNat, h, ?_⟩
  rw [BitVec.ofNat_toNat, BitVec.setWidth_eq, BitVec.add_comm, BitVec.sub_add_cancel]

theorem Within.of_add (h : Within (a + BitVec.ofNat w i) n x) (hk : i + n ≤ k) : Within a k x := by
  obtain ⟨r, hr, hx⟩ := h.exists_add
  rw [hx, add_ofNat_add]
  exact within_add (by omega)

/-- A range that is apart from one is apart from each part of it. -/
theorem Apart.add (h : Apart a n b k) (hij : i + j ≤ k) : Apart a n (b + BitVec.ofNat w i) j :=
  fun x hx hi => h x hx (hi.of_add hij)

/-- Two ranges at different places behind `p`. -/
theorem apart_add (p : BitVec w) (h : i + n ≤ j ∧ j + k ≤ 2 ^ w ∨ j + k ≤ i ∧ i + n ≤ 2 ^ w) :
    Apart (p + BitVec.ofNat w i) n (p + BitVec.ofNat w j) k := by
  intro x hi hj
  obtain ⟨r, hr, hxr⟩ := hi.exists_add
  obtain ⟨s, hs, hxs⟩ := hj.exists_add
  rw [hxr, add_ofNat_add, add_ofNat_add, BitVec.add_right_inj] at hxs
  have heq := congrArg BitVec.toNat hxs
  rw [BitVec.toNat_ofNat, BitVec.toNat_ofNat, Nat.mod_eq_of_lt (by omega),
    Nat.mod_eq_of_lt (by omega)] at heq
  omega

theorem getLsbD_load : (load m n a).getLsbD i =
    (decide (i < 8 * n) && (m (a + BitVec.ofNat w (i / 8))).getLsbD (i % 8)) := by
  induction n generalizing a i with
  | zero => simp [load]
  | succ n ih =>
    have happ : (load m (n + 1) a).getLsbD i =
        if i < 8 then (m a).getLsbD i else (load m n (a + 1#w)).getLsbD (i - 8) :=
      BitVec.getLsbD_append
    rw [happ]
    by_cases hi : i < 8
    · rw [if_pos hi, Nat.div_eq_of_lt hi, Nat.mod_eq_of_lt hi, BitVec.add_zero]
      simp [show i < 8 * (n + 1) by omega]
    · have hmod : (i - 8) % 8 = i % 8 := by omega
      have hdiv : 1 + (i - 8) / 8 = i / 8 := by omega
      have hlt : i - 8 < 8 * n ↔ i < 8 * (n + 1) := by omega
      rw [if_neg hi, ih, BitVec.add_assoc, ← BitVec.ofNat_add, hdiv, hmod]
      simp only [hlt]

theorem load_congr (h : ∀ x, Within a n x → m x = m' x) : load m n a = load m' n a := by
  apply BitVec.eq_of_getLsbD_eq
  intro i hi
  rw [getLsbD_load, getLsbD_load, h _ (within_add (by omega))]

theorem store_of_not_within {v : BitVec (8 * n)} (h : ¬ Within a n x) : store m n a v x = m x :=
  if_neg h

theorem fill_of_not_within {f : ℕ → BitVec 8} (h : ¬ Within a n x) : fill m a n f x = m x :=
  if_neg h

theorem load_store_self (hn : n ≤ 2 ^ w) (v : BitVec (8 * n)) : load (store m n a v) n a = v := by
  apply BitVec.eq_of_getLsbD_eq
  intro i hi
  have hlt : i / 8 < n := by omega
  have hmod : i / 8 % 2 ^ w = i / 8 := Nat.mod_eq_of_lt (by omega)
  have hsplit : 8 * (i / 8) + i % 8 = i := by omega
  rw [getLsbD_load]
  unfold store
  rw [add_ofNat_sub, BitVec.toNat_ofNat, hmod, if_pos hlt,
    BitVec.getLsbD_extractLsb', hsplit]
  simp [hi, Nat.mod_lt]

theorem load_store_of_apart {v : BitVec (8 * k)} (h : Apart a n b k) :
    load (store m k b v) n a = load m n a :=
  load_congr fun x hx => store_of_not_within (h x hx)

end ByteMemory
