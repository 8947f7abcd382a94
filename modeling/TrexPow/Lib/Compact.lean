import TrexPow.Lib.Codec

/-!
# Compact integers and length-prefixed byte strings

A 32-bit integer takes one, two, four or five bytes, and the two low bits of the first
byte tell which. A reader accepts the shortest form only, so the format is lawful. With
the length of a byte string in front of it, a byte string is self-delimiting.
-/

namespace Compact

open LittleEndian

/-- The bytes of an integer: the length class in the two low bits, or the integer behind a
byte for the largest class. -/
def encode (x : BitVec 32) : List UInt8 :=
  if x.toNat < 2 ^ 6 then padded 1 (4 * x.toNat)
  else if x.toNat < 2 ^ 14 then padded 2 (4 * x.toNat + 1)
  else if x.toNat < 2 ^ 30 then padded 4 (4 * x.toNat + 2)
  else 3 :: padded 4 x.toNat

/-- Read a number of the given width. -/
def readWord (width : ℕ) (input : List UInt8) : Option (ℕ × List UInt8) :=
  if width ≤ input.length then some (toNat (input.take width), input.drop width) else none

/-- Keep an integer that lies above the smaller length classes. -/
def above (bound x : ℕ) (rest : List UInt8) : Option (BitVec 32 × List UInt8) :=
  if bound ≤ x then some (BitVec.ofNat 32 x, rest) else none

/-- Read an integer. A form that is longer than necessary is turned down. -/
def decode (input : List UInt8) : Option (BitVec 32 × List UInt8) :=
  match input with
  | [] => none
  | first :: input' =>
    if first.toNat % 4 = 0 then
      (readWord 1 input).bind fun (w, rest) => above 0 (w / 4) rest
    else if first.toNat % 4 = 1 then
      (readWord 2 input).bind fun (w, rest) => above (2 ^ 6) (w / 4) rest
    else if first.toNat % 4 = 2 then
      (readWord 4 input).bind fun (w, rest) => above (2 ^ 14) (w / 4) rest
    else if first.toNat / 4 = 0 then
      (readWord 4 input').bind fun (w, rest) => above (2 ^ 30) w rest
    else none

/-- Exactly the bytes of a number of the width are read as the number. -/
theorem readWord_eq_some_iff {width w : ℕ} {input rest : List UInt8} :
    readWord width input = some (w, rest) ↔ w < 256 ^ width ∧ padded width w ++ rest = input := by
  unfold readWord
  constructor
  · intro h
    split_ifs at h with hlen
    obtain ⟨rfl, rfl⟩ := Prod.mk.inj (Option.some.inj h)
    have htake : (input.take width).length = width := List.length_take_of_le hlen
    have hlt := toNat_lt (input.take width)
    have hpadded := padded_toNat (input.take width)
    rw [htake] at hlt hpadded
    exact ⟨hlt, by rw [hpadded, List.take_append_drop]⟩
  · rintro ⟨hlt, rfl⟩
    have hlen := length_padded hlt
    rw [if_pos (by rw [List.length_append]; omega), List.take_left' hlen, List.drop_left' hlen,
      toNat_padded]

/-- The first byte of a number is its remainder. -/
theorem padded_append_eq_cons {width w : ℕ} (hwidth : 0 < width) (hw : w < 256 ^ width)
    (rest : List UInt8) :
    ∃ first tail, padded width w ++ rest = first :: tail ∧ first.toNat = w % 256 := by
  have hlen := length_padded hw
  have hfirst := toNat_getD_padded width w 0
  cases hbytes : padded width w with
  | nil =>
    rw [hbytes, List.length_nil] at hlen
    omega
  | cons first tail =>
    rw [hbytes, List.getD_cons_zero, pow_zero, Nat.div_one] at hfirst
    exact ⟨first, tail ++ rest, rfl, hfirst⟩

theorem above_eq_some_iff {bound w : ℕ} {x : BitVec 32} {rest rest' : List UInt8} :
    above bound w rest = some (x, rest') ↔ bound ≤ w ∧ BitVec.ofNat 32 w = x ∧ rest = rest' := by
  unfold above
  split_ifs with h
  · simp [h]
  · simp [h]

/-- What is written is read, whatever follows it. -/
theorem decode_encode (x : BitVec 32) (rest : List UInt8) :
    decode (encode x ++ rest) = some (x, rest) := by
  have hx := x.isLt
  have hself : BitVec.ofNat 32 x.toNat = x := by simp
  -- a word of one of the three short classes is read back from its first byte on
  have hshort (width w bound : ℕ) (hwidth : 0 < width) (hw : w < 256 ^ width)
      (hquot : w / 4 = x.toNat) (hbound : bound ≤ x.toNat) :
      (readWord width (padded width w ++ rest)).bind
        (fun (w, rest) => above bound (w / 4) rest) = some (x, rest) := by
    rw [readWord_eq_some_iff.mpr ⟨hw, rfl⟩, Option.bind_some]
    exact above_eq_some_iff.mpr ⟨by omega, by rw [hquot, hself], rfl⟩
  unfold encode
  split_ifs with h6 h14 h30
  · have hread := hshort 1 (4 * x.toNat) 0 (by omega) (by omega) (by omega) (by omega)
    obtain ⟨first, tail, hcons, hfirst⟩ :=
      padded_append_eq_cons (by omega : 0 < 1) (by omega : 4 * x.toNat < 256 ^ 1) rest
    rw [hcons] at hread ⊢
    rw [decode, if_pos (by omega), hread]
  · have hread := hshort 2 (4 * x.toNat + 1) (2 ^ 6) (by omega) (by omega) (by omega) (by omega)
    obtain ⟨first, tail, hcons, hfirst⟩ :=
      padded_append_eq_cons (by omega : 0 < 2) (by omega : 4 * x.toNat + 1 < 256 ^ 2) rest
    rw [hcons] at hread ⊢
    rw [decode, if_neg (by omega), if_pos (by omega), hread]
  · have hread := hshort 4 (4 * x.toNat + 2) (2 ^ 14) (by omega) (by omega) (by omega) (by omega)
    obtain ⟨first, tail, hcons, hfirst⟩ :=
      padded_append_eq_cons (by omega : 0 < 4) (by omega : 4 * x.toNat + 2 < 256 ^ 4) rest
    rw [hcons] at hread ⊢
    rw [decode, if_neg (by omega), if_neg (by omega), if_pos (by omega), hread]
  · have hthree : (3 : UInt8).toNat = 3 := rfl
    rw [List.cons_append, decode, hthree, if_neg (by omega), if_neg (by omega), if_neg (by omega),
      if_pos (by omega), readWord_eq_some_iff.mpr ⟨by omega, rfl⟩, Option.bind_some]
    exact above_eq_some_iff.mpr ⟨by omega, hself, rfl⟩

/-- What is read is written as what was read. -/
theorem encode_decode (input : List UInt8) (x : BitVec 32) (rest : List UInt8)
    (h : decode input = some (x, rest)) : encode x ++ rest = input := by
  cases input with
  | nil => cases h
  | cons first input =>
    -- the number that a short class reads has the low bits of the first byte
    have hshort (width bound : ℕ) (hwidth : 0 < width)
        (hread : (readWord width (first :: input)).bind
          (fun (w, rest) => above bound (w / 4) rest) = some (x, rest)) :
        ∃ w, w < 256 ^ width ∧ padded width w ++ rest = first :: input ∧
          w % 256 = first.toNat ∧ bound ≤ w / 4 ∧ BitVec.ofNat 32 (w / 4) = x := by
      obtain ⟨⟨w, rest'⟩, hw, habove⟩ := Option.bind_eq_some_iff.mp hread
      obtain ⟨hbound, hx, rfl⟩ := above_eq_some_iff.mp habove
      obtain ⟨hlt, heq⟩ := readWord_eq_some_iff.mp hw
      obtain ⟨first', tail, hcons, hfirst⟩ := padded_append_eq_cons hwidth hlt rest'
      obtain ⟨rfl, -⟩ := List.cons.inj (hcons.symm.trans heq)
      exact ⟨w, hlt, heq, hfirst.symm, hbound, hx⟩
    unfold decode at h
    dsimp only at h
    split_ifs at h with h0 h1 h2 h3
    · obtain ⟨w, hlt, heq, hfirst, -, rfl⟩ := hshort 1 0 (by omega) h
      rw [encode, BitVec.toNat_ofNat, Nat.mod_eq_of_lt (by omega), if_pos (by omega),
        (by omega : 4 * (w / 4) = w), heq]
    · obtain ⟨w, hlt, heq, hfirst, hbound, rfl⟩ := hshort 2 (2 ^ 6) (by omega) h
      rw [encode, BitVec.toNat_ofNat, Nat.mod_eq_of_lt (by omega), if_neg (by omega),
        if_pos (by omega), (by omega : 4 * (w / 4) + 1 = w), heq]
    · obtain ⟨w, hlt, heq, hfirst, hbound, rfl⟩ := hshort 4 (2 ^ 14) (by omega) h
      rw [encode, BitVec.toNat_ofNat, Nat.mod_eq_of_lt (by omega), if_neg (by omega),
        if_neg (by omega), if_pos (by omega), (by omega : 4 * (w / 4) + 2 = w), heq]
    · obtain ⟨⟨w, rest'⟩, hw, habove⟩ := Option.bind_eq_some_iff.mp h
      obtain ⟨hbound, rfl, rfl⟩ := above_eq_some_iff.mp habove
      obtain ⟨hlt, heq⟩ := readWord_eq_some_iff.mp hw
      have hthree : first = 3 := UInt8.toNat_inj.mp (by
        change first.toNat = 3
        have := first.toNat_lt
        omega)
      rw [encode, BitVec.toNat_ofNat, Nat.mod_eq_of_lt (by omega), if_neg (by omega),
        if_neg (by omega), if_neg (by omega), List.cons_append, heq, hthree]

/-- Compact integers as a codec. -/
def codec : Codec (BitVec 32) := ⟨encode, decode, decode_encode, encode_decode⟩

/-- The byte strings whose length a compact integer holds. -/
def Bytes : Type := { bytes : List UInt8 // bytes.length < 2 ^ 32 }

/-- A byte string is a length and as many bytes. -/
def bytesEquiv : (Σ length : BitVec 32, List.Vector UInt8 length.toNat) ≃ Bytes where
  toFun x := ⟨x.2.toList, by rw [x.2.toList_length]; exact x.1.isLt⟩
  invFun bytes := ⟨BitVec.ofNat 32 bytes.1.length, bytes.1, by
    rw [BitVec.toNat_ofNat, Nat.mod_eq_of_lt bytes.2]⟩
  left_inv := by
    rintro ⟨length, bytes, hlength⟩
    have hsame : BitVec.ofNat 32 bytes.length = length := by rw [hlength]; simp
    subst hsame
    rfl
  right_inv _ := rfl

/-- A byte string behind its length. -/
def bytes : Codec Bytes := .equiv bytesEquiv (.dependent codec fun length => .bytes length.toNat)

end Compact
