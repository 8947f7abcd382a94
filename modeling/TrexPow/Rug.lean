import Mathlib.Algebra.Order.Group.Unbundled.Int
import Mathlib.Data.Int.GCD
import Mathlib.Data.Nat.Sqrt
import TrexPow.Constants
import TrexPow.Lib.LittleEndian

/-!
# Big integers and their partial operations

The code computes with arbitrary-precision integers and converts them to and
from 128-bit and 256-bit words. Operations that panic outside their domain
return a `Fault`, so that the absence of panics is a statement of the model.
-/

namespace TrexPow

/-- Why a computation stopped: a panic, or an error that its caller unwraps. -/
inductive Fault
  /-- `unwrap` of an absent value. -/
  | unwrapNone
  /-- The mapping functions met a residue other than 0, 1, 2. -/
  | mappingError
  /-- Division or remainder by zero. -/
  | divisionByZero
  /-- A random number below a bound that is not positive. -/
  | emptyRange
  /-- Arithmetic outside the range of its integer type. -/
  | overflow
  /-- An index at or past the end of an array. -/
  | indexOutOfBounds
  /-- The square root of a negative number. -/
  | negativeSqrt
  /-- More bytes than the word to be filled has. -/
  | tooManyBytes
  /-- No panic: the schedule given to a parallel search ends before its threads do. -/
  | unfinished
  deriving DecidableEq, Repr

/-- A computation that may panic. -/
abbrev Rust := Except Fault

@[simp] theorem Rust.ok_bind {α β : Type} (a : α) (f : α → Rust β) :
    (Except.ok a >>= f) = f a := rfl

@[simp] theorem Rust.error_bind {α β : Type} (e : Fault) (f : α → Rust β) :
    ((Except.error e : Rust α) >>= f) = .error e := rfl

@[simp] theorem Rust.pure_eq_ok {α : Type} (a : α) : (pure a : Rust α) = .ok a := rfl

/-- A sequence succeeds when both of its parts do. -/
theorem Rust.bind_eq_ok {α β : Type} {x : Rust α} {f : α → Rust β} {b : β} :
    (x >>= f) = .ok b ↔ ∃ a, x = .ok a ∧ f a = .ok b := by
  cases x <;> simp

/-- A computation whose result passes a test has a result. -/
theorem Rust.exists_ok_of_any {α : Type} {x : Rust α} {p : α → Bool}
    (h : x.toOption.any p = true) : ∃ a, x = .ok a ∧ p a = true := by
  cases x with
  | error fault => cases h
  | ok a => exact ⟨a, rfl, h⟩

/-- `Option::unwrap`. -/
def unwrap {α : Type} : Option α → Rust α
  | some a => .ok a
  | none => .error .unwrapNone

@[simp] theorem unwrap_some {α : Type} (a : α) : unwrap (some a) = .ok a := rfl

@[simp] theorem unwrap_none {α : Type} : unwrap (none : Option α) = .error .unwrapNone := rfl

namespace Rug

/-- The modular inverse in `[0, |m|)`, when it exists. -/
def invertRef (x m : ℤ) : Option ℤ :=
  if m ≠ 0 ∧ Int.gcd x m = 1 then some (Int.gcdA x m % m) else none

/-- Modular power. There is no value for modulus zero, nor for a negative
exponent of a base without an inverse. -/
def powModRef (base exponent modulus : ℤ) : Option ℤ :=
  if modulus = 0 then none
  else if 0 ≤ exponent then some (base ^ exponent.toNat % modulus)
  else (invertRef base modulus).map fun inverse => inverse ^ (-exponent).toNat % modulus

/-- The remainder of a Euclidean division. -/
def divRemEuc (x y : ℤ) : Rust ℤ := if y = 0 then .error .divisionByZero else .ok (x % y)

/-- The remainder by a machine word, rounded towards negative infinity. -/
def modU (x : ℤ) (modulo : ℕ) : ℕ := (x % modulo).toNat

/-- The quotient of a truncating division. -/
def divTrunc (x y : ℤ) : Rust ℤ := if y = 0 then .error .divisionByZero else .ok (x.tdiv y)

/-- The integer square root. -/
def sqrtRef (x : ℤ) : Rust ℕ := if x < 0 then .error .negativeSqrt else .ok x.toNat.sqrt

/-- The shortest little-endian digits of the absolute value. -/
def toDigits (x : ℤ) : List UInt8 := LittleEndian.digits x.natAbs

/-- The integer with the given little-endian digits. -/
def fromDigits (digits : List UInt8) : ℤ := LittleEndian.toNat digits

/-- Powers with a nonnegative exponent exist for every modulus but zero. -/
theorem powModRef_of_nonneg {b e m : ℤ} (hm : m ≠ 0) (he : 0 ≤ e) :
    powModRef b e m = some (b ^ e.toNat % m) := by
  rw [powModRef, if_neg hm, if_pos he]

@[simp] theorem powModRef_zero_modulus (b e : ℤ) : powModRef b e 0 = none := by
  simp [powModRef]

theorem divRemEuc_of_ne_zero {x y : ℤ} (hy : y ≠ 0) : divRemEuc x y = .ok (x % y) := if_neg hy

/-- The inverse that is returned inverts, and lies in the range of the remainders. -/
theorem invertRef_spec {x m y : ℤ} (h : invertRef x m = some y) :
    x * y ≡ 1 [ZMOD m] ∧ 0 ≤ y ∧ y < |m| := by
  unfold invertRef at h
  split_ifs at h with hcond
  obtain ⟨hm, hgcd⟩ := hcond
  obtain rfl := Option.some.inj h
  have hbezout := Int.gcd_eq_gcd_ab x m
  rw [hgcd] at hbezout
  refine ⟨?_, Int.emod_nonneg _ hm, Int.emod_lt_abs _ hm⟩
  have hmod : x * (Int.gcdA x m % m) ≡ x * Int.gcdA x m [ZMOD m] := (Int.mod_modEq _ _).mul_left x
  refine hmod.trans (Int.modEq_iff_dvd.mpr ⟨Int.gcdB x m, ?_⟩)
  push_cast at hbezout
  linarith

/-- An inverse exists exactly for the numbers coprime to a nonzero modulus. -/
theorem invertRef_eq_none_iff {x m : ℤ} (hm : m ≠ 0) :
    invertRef x m = none ↔ Int.gcd x m ≠ 1 := by
  simp [invertRef, hm]

end Rug

/-- `U256::from_little_endian`, which asserts that at most 32 bytes are given. -/
def u256FromLittleEndian (slice : List UInt8) : Rust U256 :=
  if 32 < slice.length then .error .tooManyBytes
  else .ok (BitVec.ofNat 256 (LittleEndian.toNat slice))

/-- `U256::overflowing_mul`: the wrapped product, and whether it wrapped. -/
def overflowingMul (x y : U256) : U256 × Bool := (x * y, decide (2 ^ 256 ≤ x.toNat * y.toNat))

/-- Convert big integer to U256 type. -/
def bigintU256 (int : ℤ) : Rust U256 := u256FromLittleEndian (Rug.toDigits int)

/-- Convert U256 to big integer. -/
def u256Bigint (unsigned : U256) : ℤ := Rug.fromDigits (LittleEndian.padded 32 unsigned.toNat)

/-- Convert big integer to u128, or to 0 when it is out of range. -/
def bigintU128 (int : ℤ) : U128 :=
  if 0 ≤ int ∧ int < 2 ^ 128 then BitVec.ofNat 128 int.toNat else 0

/-- Convert u128 to big integer. -/
def u128Bigint (unsigned : U128) : ℤ := unsigned.toNat

@[simp] theorem u256Bigint_eq (u : U256) : u256Bigint u = u.toNat := by
  simp [u256Bigint, Rug.fromDigits]

/-- Conversion to a word succeeds exactly within its range, and keeps the value. -/
theorem bigintU256_of_lt {x : ℤ} (h0 : 0 ≤ x) (hx : x < 2 ^ 256) :
    bigintU256 x = .ok (BitVec.ofNat 256 x.toNat) := by
  have hlen : (Rug.toDigits x).length ≤ 32 := by
    rw [Rug.toDigits, LittleEndian.length_digits_le_iff]
    omega
  have habs : x.natAbs = x.toNat := by omega
  rw [bigintU256, u256FromLittleEndian, if_neg (by omega), Rug.toDigits, LittleEndian.toNat_digits,
    habs]

/-- A number in range survives the way through a 256-bit word. -/
theorem u256Bigint_ofNat {x : ℤ} (h0 : 0 ≤ x) (hx : x < 2 ^ 256) :
    u256Bigint (BitVec.ofNat 256 x.toNat) = x := by
  rw [u256Bigint_eq, BitVec.toNat_ofNat, Nat.mod_eq_of_lt (by omega)]
  omega

theorem u256Bigint_bounds (u : U256) : 0 ≤ u256Bigint u ∧ u256Bigint u < 2 ^ 256 := by
  have := u.isLt
  rw [u256Bigint_eq]
  omega

end TrexPow
