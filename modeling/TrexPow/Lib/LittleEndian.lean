import Mathlib.Data.List.GetD
import Mathlib.Data.List.MinMax
import Mathlib.Data.Nat.Digits.Lemmas

/-!
# Little-endian byte strings

A natural number has two byte forms: the shortest one, without high zero bytes,
and the one of a fixed width. Both are base-256 digit lists, so the round trips
below rest on the digit bijection of the library.
-/

namespace LittleEndian

/-- The number a byte string denotes, least significant byte first. -/
def toNat (bytes : List UInt8) : ℕ := Nat.ofDigits 256 (bytes.map UInt8.toNat)

/-- The shortest byte string of a number: no high zero bytes, and empty for zero. -/
def digits (x : ℕ) : List UInt8 := (Nat.digits 256 x).map UInt8.ofNat

/-- The byte string of a number padded with high zero bytes to a width. -/
def padded (width x : ℕ) : List UInt8 := (Nat.digitsAppend 256 width x).map UInt8.ofNat

private theorem map_toNat_map_ofNat {l : List ℕ} (h : ∀ d ∈ l, d < 256) :
    (l.map UInt8.ofNat).map UInt8.toNat = l := by
  rw [List.map_map]
  conv_rhs => rw [← List.map_id l]
  apply List.map_congr_left
  intro d hd
  simp [Nat.mod_eq_of_lt (h d hd)]

private theorem map_ofNat_map_toNat (l : List UInt8) :
    (l.map UInt8.toNat).map UInt8.ofNat = l := by
  simp [List.map_map, Function.comp_def]

private theorem lt_of_mem_map_toNat {l : List UInt8} :
    ∀ d ∈ l.map UInt8.toNat, d < 256 := by
  intro d hd
  obtain ⟨b, _, rfl⟩ := List.mem_map.mp hd
  exact b.toNat_lt

/-- Reading the shortest byte string of a number gives the number back. -/
@[simp] theorem toNat_digits (x : ℕ) : toNat (digits x) = x := by
  have hdigits : ∀ d ∈ Nat.digits 256 x, d < 256 := fun d => Nat.digits_lt_base (by omega)
  rw [toNat, digits, map_toNat_map_ofNat hdigits, Nat.ofDigits_digits]

/-- Padding does not change the number denoted. -/
@[simp] theorem toNat_padded (width x : ℕ) : toNat (padded width x) = x := by
  have hdigits : ∀ d ∈ Nat.digitsAppend 256 width x, d < 256 :=
    fun d => Nat.lt_of_mem_digitsAppend (by omega) width d
  rw [toNat, padded, map_toNat_map_ofNat hdigits, Nat.digitsAppend,
    Nat.ofDigits_append_replicate_zero, Nat.ofDigits_digits]

/-- A number that fits takes exactly the requested width. -/
theorem length_padded {width x : ℕ} (hx : x < 256 ^ width) : (padded width x).length = width := by
  rw [padded, List.length_map, Nat.length_digitsAppend (by omega) width hx]

/-- The padded byte string is the shortest one with zero bytes behind it. -/
theorem padded_eq_append (width x : ℕ) :
    padded width x = digits x ++ List.replicate (width - (digits x).length) 0 := by
  simp only [padded, digits, Nat.digitsAppend, List.map_append, List.map_replicate,
    List.length_map]
  rfl

/-- The bytes of the padded byte string, with zero bytes behind it. -/
theorem toNat_getD_padded (width x i : ℕ) :
    ((padded width x).getD i 0).toNat = x / 256 ^ i % 256 := by
  have hpadding : (Nat.digitsAppend 256 width x).getD i 0 = (Nat.digits 256 x).getD i 0 := by
    rw [Nat.digitsAppend]
    rcases lt_or_ge i (Nat.digits 256 x).length with hi | hi
    · rw [List.getD_append _ _ _ _ hi]
    · rw [List.getD_append_right _ _ _ _ hi, List.getD_eq_getElem?_getD,
        List.getElem?_getD_replicate_default_eq, List.getD_eq_default _ _ hi]
  have hmap : (padded width x).getD i 0 = UInt8.ofNat ((Nat.digitsAppend 256 width x).getD i 0) :=
    List.getD_map ..
  rw [hmap, hpadding, Nat.getD_digits x i (by omega), UInt8.toNat_ofNat', Nat.mod_mod]

/-- The shortest byte string fits a width exactly when the number does. -/
theorem length_digits_le_iff {width x : ℕ} : (digits x).length ≤ width ↔ x < 256 ^ width := by
  rw [digits, List.length_map, Nat.digits_length_le_iff (by omega)]

/-- A byte string denotes a number below the power of its length. -/
theorem toNat_lt (bytes : List UInt8) : toNat bytes < 256 ^ bytes.length := by
  have h := Nat.ofDigits_lt_base_pow_length (b := 256) (by omega) (lt_of_mem_map_toNat (l := bytes))
  rwa [List.length_map] at h

/-- A byte string is the padded form of the number it denotes, at its own width. -/
theorem padded_toNat (bytes : List UInt8) : padded bytes.length (toNat bytes) = bytes := by
  have hset := Nat.setInvOn_digitsAppend_ofDigits (b := 256) (by omega) bytes.length
  have hinv : Nat.digitsAppend 256 bytes.length (toNat bytes) = bytes.map UInt8.toNat :=
    hset.1 ⟨List.length_map .., lt_of_mem_map_toNat⟩
  rw [padded, hinv, map_ofNat_map_toNat]

/-- The bytes behind others count by the power of the others' length. -/
theorem toNat_append (bytes bytes' : List UInt8) :
    toNat (bytes ++ bytes') = toNat bytes + 256 ^ bytes.length * toNat bytes' := by
  rw [toNat, List.map_append, Nat.ofDigits_append, List.length_map]
  rfl

/-- Byte strings of one length that denote one number are equal. -/
theorem eq_of_toNat_eq {bytes bytes' : List UInt8} (hlength : bytes.length = bytes'.length)
    (h : toNat bytes = toNat bytes') : bytes = bytes' := by
  rw [← padded_toNat bytes, ← padded_toNat bytes', hlength, h]

end LittleEndian
