import Mathlib.Algebra.BigOperators.Fin
import Mathlib.Data.Vector.Basic
import Mathlib.Logic.Equiv.Prod
import TrexPow.Lib.LittleEndian

/-!
# Lawful byte codecs

A codec writes a value as bytes and reads a value from the front of a byte
string. It carries both round trips as fields, so a format assembled from the
combinators below is lossless and reads only what it would have written.
-/

/-- A self-delimiting byte format together with its two round trips. -/
structure Codec (α : Type) where
  /-- The bytes of a value. -/
  encode : α → List UInt8
  /-- Read one value from the front and return the unread bytes. -/
  decode : List UInt8 → Option (α × List UInt8)
  /-- Reading recovers what was written, whatever follows it. -/
  decode_encode : ∀ a rest, decode (encode a ++ rest) = some (a, rest)
  /-- What was read is what the value is written as. -/
  encode_decode : ∀ bytes a rest, decode bytes = some (a, rest) → encode a ++ rest = bytes

namespace Codec

variable {α β : Type}

/-- Reading a value written with nothing after it. -/
@[simp] theorem decode_encode_nil (c : Codec α) (a : α) : c.decode (c.encode a) = some (a, []) := by
  simpa using c.decode_encode a []

/-- Different values are written as different bytes. -/
theorem encode_injective (c : Codec α) : Function.Injective c.encode := by
  intro a b h
  have hread := c.decode_encode_nil a
  rw [h, c.decode_encode_nil b] at hread
  exact (Prod.mk.inj (Option.some.inj hread)).1.symm

/-- Exactly the bytes of a value, whatever follows them, are read as the value. -/
theorem decode_eq_some_iff (c : Codec α) {input rest : List UInt8} {a : α} :
    c.decode input = some (a, rest) ↔ input = c.encode a ++ rest := by
  constructor
  · intro h
    exact (c.encode_decode _ _ _ h).symm
  · rintro rfl
    exact c.decode_encode a rest

/-- What was read is all that the value is written as when nothing is left unread. -/
theorem eq_encode_iff (c : Codec α) {input rest : List UInt8} {a : α}
    (h : c.decode input = some (a, rest)) : input = c.encode a ↔ rest = [] := by
  rw [c.decode_eq_some_iff] at h
  rw [h]
  exact List.append_right_eq_self

/-- No proper part of the bytes of a value is read from their front. -/
theorem decode_truncated (c : Codec α) {input rest : List UInt8} {a : α} (hrest : rest ≠ [])
    (h : input ++ rest = c.encode a) : c.decode input = none := by
  cases hread : c.decode input with
  | none => rfl
  | some x =>
    obtain ⟨b, rest'⟩ := x
    rw [c.decode_eq_some_iff] at hread
    have hself := c.decode_encode_nil a
    rw [← h, hread, List.append_assoc, c.decode_encode, Option.some.injEq, Prod.mk.injEq,
      List.append_eq_nil_iff] at hself
    exact absurd hself.2.2 hrest

/-- A fixed number of raw bytes. -/
def bytes (n : ℕ) : Codec (List.Vector UInt8 n) where
  encode v := v.toList
  decode input :=
    if h : n ≤ input.length then some (⟨input.take n, by simp [h]⟩, input.drop n) else none
  decode_encode v rest := by
    have hlen := v.toList_length
    have htake : (v.toList ++ rest).take n = v.toList := by
      rw [List.take_append_of_le_length (by omega), List.take_of_length_le (by omega)]
    have hdrop : (v.toList ++ rest).drop n = rest := by
      rw [List.drop_append_of_le_length (by omega), List.drop_of_length_le (by omega),
        List.nil_append]
    rw [dif_pos (by simp)]
    exact congrArg some (Prod.ext (Subtype.ext htake) hdrop)
  encode_decode input v rest h := by
    split at h
    · obtain ⟨rfl, rfl⟩ := Prod.mk.inj (Option.some.inj h)
      exact List.take_append_drop n input
    · simp at h

/-- The same bytes read as another, equivalent type. -/
def equiv (e : α ≃ β) (c : Codec α) : Codec β where
  encode b := c.encode (e.symm b)
  decode input := (c.decode input).map fun (a, rest) => (e a, rest)
  decode_encode b rest := by simp [c.decode_encode]
  encode_decode input b rest h := by
    obtain ⟨⟨a, rest'⟩, ha, heq⟩ := Option.map_eq_some_iff.mp h
    simp only [Prod.mk.injEq] at heq
    obtain ⟨rfl, rfl⟩ := heq
    simpa using c.encode_decode _ _ _ ha

/-- One value after the other. -/
def pair (c : Codec α) (d : Codec β) : Codec (α × β) where
  encode x := c.encode x.1 ++ d.encode x.2
  decode input := (c.decode input).bind fun (a, input) =>
    (d.decode input).map fun (b, rest) => ((a, b), rest)
  decode_encode x rest := by simp [List.append_assoc, c.decode_encode, d.decode_encode]
  encode_decode input x rest h := by
    obtain ⟨⟨a, input'⟩, ha, hd⟩ := Option.bind_eq_some_iff.mp h
    obtain ⟨⟨b, rest'⟩, hb, heq⟩ := Option.map_eq_some_iff.mp hd
    simp only [Prod.mk.injEq] at heq
    obtain ⟨rfl, rfl⟩ := heq
    rw [List.append_assoc, d.encode_decode _ _ _ hb, c.encode_decode _ _ _ ha]

/-- One value, and then another whose format depends on it. -/
def dependent {β : α → Type} (c : Codec α) (d : (a : α) → Codec (β a)) : Codec (Σ a, β a) where
  encode x := c.encode x.1 ++ (d x.1).encode x.2
  decode input := (c.decode input).bind fun (a, input) =>
    ((d a).decode input).map fun (b, rest) => (⟨a, b⟩, rest)
  decode_encode x rest := by simp [List.append_assoc, c.decode_encode, (d x.1).decode_encode]
  encode_decode input x rest h := by
    obtain ⟨⟨a, input'⟩, ha, hd⟩ := Option.bind_eq_some_iff.mp h
    obtain ⟨⟨b, rest'⟩, hb, heq⟩ := Option.map_eq_some_iff.mp hd
    simp only [Prod.mk.injEq] at heq
    obtain ⟨rfl, rfl⟩ := heq
    rw [List.append_assoc, (d a).encode_decode _ _ _ hb, c.encode_decode _ _ _ ha]

/-- Two alternatives told apart by a tag byte, `0` for the first and `1` for the second. -/
def alternative (c : Codec α) (d : Codec β) : Codec (α ⊕ β) where
  encode
    | .inl a => 0 :: c.encode a
    | .inr b => 1 :: d.encode b
  decode
    | [] => none
    | tag :: input =>
      if tag = 0 then (c.decode input).map fun (a, rest) => (.inl a, rest)
      else if tag = 1 then (d.decode input).map fun (b, rest) => (.inr b, rest)
      else none
  decode_encode x rest := by
    cases x with
    | inl a => simp [c.decode_encode]
    | inr b => simp [d.decode_encode]
  encode_decode input x rest h := by
    cases input with
    | nil => simp at h
    | cons tag input =>
      dsimp only at h
      split_ifs at h with h0 h1
      · obtain ⟨⟨a, rest'⟩, ha, heq⟩ := Option.map_eq_some_iff.mp h
        simp only [Prod.mk.injEq] at heq
        obtain ⟨rfl, rfl⟩ := heq
        simp [h0, c.encode_decode _ _ _ ha]
      · obtain ⟨⟨b, rest'⟩, hb, heq⟩ := Option.map_eq_some_iff.mp h
        simp only [Prod.mk.injEq] at heq
        obtain ⟨rfl, rfl⟩ := heq
        simp [h1, d.encode_decode _ _ _ hb]

/-- Write the entries of an array one after the other. -/
def encodeVector (c : Codec α) : {n : ℕ} → List.Vector α n → List UInt8
  | 0, _ => []
  | _ + 1, v => c.encode v.head ++ encodeVector c v.tail

/-- An array is as long as its entries together. -/
theorem length_encodeVector (c : Codec α) {n : ℕ} (v : List.Vector α n) :
    (encodeVector c v).length = ∑ i, (c.encode (v.get i)).length := by
  induction n with
  | zero => rfl
  | succ n ih =>
    rw [encodeVector, List.length_append, ih, Fin.sum_univ_succ, List.Vector.get_zero]
    simp only [List.Vector.get_tail_succ]

/-- Read a fixed number of entries. -/
def decodeVector (c : Codec α) : (n : ℕ) → List UInt8 → Option (List.Vector α n × List UInt8)
  | 0, input => some (.nil, input)
  | n + 1, input => (c.decode input).bind fun (a, input) =>
      (decodeVector c n input).map fun (v, rest) => (a ::ᵥ v, rest)

/-- An array of a fixed length, written without a length prefix. -/
def vector (c : Codec α) (n : ℕ) : Codec (List.Vector α n) where
  encode v := encodeVector c v
  decode := decodeVector c n
  decode_encode v rest := by
    induction n with
    | zero => simp [encodeVector, decodeVector, List.Vector.eq_nil v]
    | succ n ih =>
      simp [encodeVector, decodeVector, List.append_assoc, c.decode_encode, ih v.tail]
  encode_decode input v rest h := by
    induction n generalizing input with
    | zero =>
      simp only [decodeVector, Option.some.injEq, Prod.mk.injEq] at h
      simp [encodeVector, h.2]
    | succ n ih =>
      obtain ⟨⟨a, input'⟩, ha, hv⟩ := Option.bind_eq_some_iff.mp h
      obtain ⟨⟨tail, rest'⟩, htail, heq⟩ := Option.map_eq_some_iff.mp hv
      simp only [Prod.mk.injEq] at heq
      obtain ⟨rfl, rfl⟩ := heq
      simp only [encodeVector, List.Vector.head_cons, List.Vector.tail_cons, List.append_assoc]
      rw [ih _ _ htail, c.encode_decode _ _ _ ha]

/-- Fixed-width words and their little-endian bytes are in bijection. -/
def wordBytes (n : ℕ) : List.Vector UInt8 n ≃ BitVec (8 * n) where
  toFun v := BitVec.ofNat _ (LittleEndian.toNat v.toList)
  invFun w := ⟨LittleEndian.padded n w.toNat, LittleEndian.length_padded
    (by have hw := w.isLt; rwa [pow_mul] at hw)⟩
  left_inv v := by
    have hlt := LittleEndian.toNat_lt v.toList
    have hlen := v.toList_length
    apply Subtype.ext
    have hmod : LittleEndian.toNat v.toList % 2 ^ (8 * n) = LittleEndian.toNat v.toList := by
      apply Nat.mod_eq_of_lt
      rw [pow_mul]
      rwa [hlen] at hlt
    have hpad := LittleEndian.padded_toNat v.toList
    rw [hlen] at hpad
    exact (congrArg (LittleEndian.padded n) hmod).trans hpad
  right_inv w := by
    apply BitVec.eq_of_toNat_eq
    simp only [List.Vector.toList_mk, LittleEndian.toNat_padded, BitVec.ofNat_toNat,
      BitVec.setWidth_eq]

/-- A fixed-width unsigned integer of `n` little-endian bytes. -/
def word (n : ℕ) : Codec (BitVec (8 * n)) := equiv (wordBytes n) (bytes n)

@[simp] theorem length_encode_word (n : ℕ) (w : BitVec (8 * n)) :
    ((word n).encode w).length = n := ((wordBytes n).symm w).toList_length

end Codec
