import TrexPow.Hash

/-!
# Conversions between integers and words

In one direction the conversions go through the shortest digits of an integer, which are
padded with zero bytes or read as they are, and in the other through all the bytes of a
word. On the range of the words no byte is lost either way, so that solutions survive
their storage in a seal and a header tells its nonces apart.
-/

namespace TrexPow

/-- `H256::from_slice`, which asserts that exactly 32 bytes are given. -/
def h256FromSlice (slice : List UInt8) : Rust H256 :=
  if h : slice.length = 32 then .ok ⟨slice, h⟩ else .error .tooManyBytes

/-- Convert big integer to H256 type. A zero byte is pushed for each missing one. -/
def bigintH256 (int : ℤ) : Rust H256 :=
  let slice := Rug.toDigits int
  let slice := (List.range' slice.length (32 - slice.length)).foldl (fun slice _ => slice ++ [0])
    slice
  h256FromSlice slice

/-- Pushing one byte after the other appends as many as there are passes. -/
theorem foldl_push {α : Type} (passes : List ℕ) (byte : α) (slice : List α) :
    passes.foldl (fun slice _ => slice ++ [byte]) slice =
      slice ++ List.replicate passes.length byte := by
  induction passes generalizing slice with
  | nil => simp
  | cons pass passes ih =>
    rw [List.foldl_cons, ih, List.length_cons, List.replicate_succ, List.append_assoc,
      List.singleton_append]

/-- An integer in range becomes the bytes of a word, all of them. -/
theorem bigintH256_of_lt {x : ℤ} (h0 : 0 ≤ x) (hx : x < 2 ^ 256) :
    ∃ digest, bigintH256 x = .ok digest ∧ digest.toList = LittleEndian.padded 32 x.toNat := by
  have habs : x.natAbs = x.toNat := by omega
  have hlen : (LittleEndian.padded 32 x.toNat).length = 32 := LittleEndian.length_padded (by omega)
  have hpadded : (List.range' (Rug.toDigits x).length (32 - (Rug.toDigits x).length)).foldl
      (fun slice _ => slice ++ [0]) (Rug.toDigits x) = LittleEndian.padded 32 x.toNat := by
    rw [foldl_push, List.length_range', LittleEndian.padded_eq_append, Rug.toDigits, habs]
  refine ⟨⟨LittleEndian.padded 32 x.toNat, hlen⟩, ?_, rfl⟩
  simp only [bigintH256, hpadded]
  exact dif_pos hlen

/-- A word survives the way through an integer. -/
theorem bigintU256_u256Bigint (u : U256) : bigintU256 (u256Bigint u) = .ok u := by
  obtain ⟨h0, hlt⟩ := u256Bigint_bounds u
  rw [bigintU256_of_lt h0 hlt, u256Bigint_eq, Int.toNat_natCast, BitVec.ofNat_toNat,
    BitVec.setWidth_eq]

/-- An integer in range survives the way through a 128-bit word. -/
theorem u128Bigint_bigintU128 {x : ℤ} (h0 : 0 ≤ x) (hx : x < 2 ^ 128) :
    u128Bigint (bigintU128 x) = x := by
  rw [bigintU128, if_pos ⟨h0, hx⟩, u128Bigint, BitVec.toNat_ofNat, Nat.mod_eq_of_lt (by omega)]
  omega

/-- Different integers in range become different words. -/
theorem ofNat_toNat_ne {x y : ℤ} (hx : 0 ≤ x ∧ x < 2 ^ 256) (hy : 0 ≤ y ∧ y < 2 ^ 256)
    (hne : x ≠ y) : BitVec.ofNat 256 x.toNat ≠ BitVec.ofNat 256 y.toNat := by
  intro hword
  have hint := congrArg u256Bigint hword
  rw [u256Bigint_ofNat hx.1 hx.2, u256Bigint_ofNat hy.1 hy.2] at hint
  exact hne hint

/-- **Conversions are lossless on their range.** An integer below `2 ^ 256` survives the way
through a word, and its digest has the bytes of that word; every word survives the way
through an integer; the same holds for integers below `2 ^ 128`. So a solution in range is
stored and read back unchanged, and different nonces in range give different encodings of
the header. -/
theorem conversions_lossless [Deps] :
    (∀ x : ℤ, 0 ≤ x → x < 2 ^ 256 → ∃ word digest, bigintU256 x = .ok word ∧
      u256Bigint word = x ∧ bigintH256 x = .ok digest ∧
      digest.toList = LittleEndian.padded 32 word.toNat ∧
      ∀ i, (digest.toList.getD i 0).toNat = word.toNat / 256 ^ i % 256) ∧
    (∀ u : U256, bigintU256 (u256Bigint u) = .ok u) ∧
    (∀ x : ℤ, 0 ≤ x → x < 2 ^ 128 → u128Bigint (bigintU128 x) = x) ∧
    (∀ solution : Solution ℤ, solution.InRange →
      ∃ stored, solution.toU256 = .ok stored ∧ stored.fromU256 = solution) ∧
    ∀ (header header' : Compute) (x y : ℤ), 0 ≤ x ∧ x < 2 ^ 256 → 0 ≤ y ∧ y < 2 ^ 256 → x ≠ y →
      ∃ next next', Hash.setNonce header x = .ok next ∧ Hash.setNonce header' y = .ok next' ∧
        Blake3Compute.codec.encode next ≠ Blake3Compute.codec.encode next' := by
  refine ⟨?_, bigintU256_u256Bigint, fun x => u128Bigint_bigintU128,
    fun solution => Solution.fromU256_toU256, ?_⟩
  · intro x h0 hx
    obtain ⟨digest, hdigest, hbytes⟩ := bigintH256_of_lt h0 hx
    have hword : (BitVec.ofNat 256 x.toNat).toNat = x.toNat := by
      rw [BitVec.toNat_ofNat, Nat.mod_eq_of_lt (by omega)]
    refine ⟨_, digest, bigintU256_of_lt h0 hx, u256Bigint_ofNat h0 hx, hdigest, ?_, ?_⟩
    · rw [hword, hbytes]
    · intro i
      rw [hword, hbytes, LittleEndian.toNat_getD_padded]
  · intro header header' x y hx hy hne
    refine ⟨_, _, setNonce_of_lt header hx.1 hx.2, setNonce_of_lt header' hy.1 hy.2, ?_⟩
    intro hencode
    have hsame := Blake3Compute.codec.encode_injective hencode
    exact ofNat_toNat_ne hx hy hne (congrArg Blake3Compute.nonce hsame)

section Sample

attribute [local instance] Deps.sample

/-- The digest of 513 has two digits and thirty zero bytes, and the header tells the nonces
1 and 256 apart. -/
theorem conversions_sample :
    (∃ digest, bigintH256 513 = .ok digest ∧ digest.toList = 1 :: 2 :: List.replicate 30 0) ∧
      u128Bigint (bigintU128 513) = 513 ∧
      (∃ stored, (⟨2, 0, 3⟩ : Solution ℤ).toU256 = .ok stored ∧ stored.fromU256 = ⟨2, 0, 3⟩) ∧
      ∃ next next', Hash.setNonce (⟨48, .replicate 32 0, 0⟩ : Compute) 1 = .ok next ∧
        Hash.setNonce (⟨48, .replicate 32 0, 0⟩ : Compute) 256 = .ok next' ∧
        Blake3Compute.codec.encode next ≠ Blake3Compute.codec.encode next' := by
  obtain ⟨hword, -, hsmall, hsolution, hheader⟩ := conversions_lossless
  refine ⟨?_, hsmall 513 (by decide) (by decide), hsolution _ ?_, ?_⟩
  · obtain ⟨word, digest, -, hback, hdigest, hbytes, -⟩ := hword 513 (by decide) (by decide)
    have hvalue : word.toNat = 513 := by
      rw [u256Bigint_eq] at hback
      exact_mod_cast hback
    refine ⟨digest, hdigest, ?_⟩
    rw [hbytes, hvalue]
    decide +kernel
  · exact ⟨by decide, by decide, by decide⟩
  · exact hheader _ _ 1 256 (by decide) (by decide) (by decide)

end Sample

end TrexPow
