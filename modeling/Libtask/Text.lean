import Mathlib.Data.List.TakeWhile
import Mathlib.Data.BitVec

/-! C strings and `int` arithmetic, for print.c and net.c. -/
namespace Libtask

/-- The character that ends a C string. -/
def NUL : Char := '\x00'

/-- The largest size of an object: the difference of two pointers is an `int`. -/
def PTRDIFF_MAX : ℕ := 2 ^ 31 - 1

/-- A C string, without its NUL; the NUL too is in the object. -/
structure CString where
  chars : List Char
  nul_notMem : NUL ∉ chars
  length_lt : chars.length < PTRDIFF_MAX
  deriving DecidableEq

/-- The string that starts with the first of the cells. -/
def cstr (cells : List Char) : List Char := cells.takeWhile (· ≠ NUL)

/-- What a 32-bit `int` holds after an operation with this result. -/
def int32 (x : ℤ) : ℤ := (x + 2 ^ 31) % 2 ^ 32 - 2 ^ 31

/-- An `int` converted to `size_t`. -/
def size_t (x : ℤ) : ℕ := (x % 2 ^ 32).toNat

theorem int32_eq {x : ℤ} (hlo : -2 ^ 31 ≤ x) (hhi : x < 2 ^ 31) : int32 x = x := by
  unfold int32
  omega

theorem le_int32 (x : ℤ) : -2 ^ 31 ≤ int32 x := by
  unfold int32
  omega

theorem int32_lt (x : ℤ) : int32 x < 2 ^ 31 := by
  unfold int32
  omega

theorem size_t_eq {x : ℤ} (hlo : 0 ≤ x) (hhi : x < 2 ^ 32) : size_t x = x.toNat := by
  unfold size_t
  omega

theorem cstr_append_nul {t : List Char} (h : NUL ∉ t) (rest : List Char) :
    cstr (t ++ NUL :: rest) = t := by
  unfold cstr
  rw [List.takeWhile_append_of_pos]
  · simp
  · intro c hc
    have hne : c ≠ NUL := fun heq => h (heq ▸ hc)
    simpa using hne

theorem nul_notMem_cstr (cells : List Char) : NUL ∉ cstr cells := by
  intro h
  simpa using List.mem_takeWhile_imp h

theorem length_cstr_le (cells : List Char) : (cstr cells).length ≤ cells.length :=
  (List.takeWhile_sublist _).length_le

theorem CString.length_lt_pow (s : CString) : s.chars.length < 2 ^ 31 := by
  have h := s.length_lt
  unfold PTRDIFF_MAX at h
  omega

end Libtask
