import SolanaWinternitz.Properties.HashInputs

/-!
# The target-sum code and its cost

* `testBit_digits` — each of the first 144 bits of the hash is one bit of one digit
* `ends_cost` — `Chain::ends` makes 243 chain steps on every codeword
* `verify_cost` — **every signature that passes the encoding costs the same number of hashes**
* `target_sum_code` — these and the incomparability of codewords, for any two accepted inputs
-/

namespace SolanaWinternitz

open Infra

/-! ## Bits -/

/-- Bit `b` of a byte is bit `b % 4` of its low or its high half. -/
theorem testBit_half (n b : Nat) (hb : b < 8) :
    n.testBit b = (if b < 4 then n % 16 else n / 16 % 16).testBit (b % 4) := by
  by_cases h : b < 4
  · rw [if_pos h, Nat.mod_eq_of_lt h, show 16 = 2 ^ 4 from rfl, Nat.testBit_mod_two_pow]
    simp [h]
  · rw [if_neg h, show 16 = 2 ^ 4 from rfl, Nat.testBit_mod_two_pow, Nat.testBit_div_two_pow]
    have hlt : b % 4 < 4 := Nat.mod_lt b (by omega)
    rw [show b % 4 + 4 = b by omega]
    simp [hlt]

/-- **Bit `b` of byte `j` is bit `b % 4` of digit `2 * j + b / 4`.** -/
theorem testBit_digits (d : Block hashLength) (j : Fin hashLength) (hj : j.val < 18) (b : Nat)
    (hb : b < 8) :
    ((digits d).get ⟨2 * j + b / 4, show 2 * j.val + b / 4 < 36 by omega⟩).toNat.testBit (b % 4)
      = (d.get j).toNat.testBit b := by
  obtain ⟨hlow, hhigh⟩ := digits_get_pair d j hj
  have hbyte := (d.get j).toNat_lt
  rw [testBit_half (d.get j).toNat b hb]
  by_cases h : b < 4
  · simp only [if_pos h, ← hlow, Nat.div_eq_of_lt h, Nat.add_zero]
  · have h1 : b / 4 = 1 := by omega
    rw [if_neg h, Nat.mod_eq_of_lt (show (d.get j).toNat / 16 < 16 by omega), ← hhigh]
    simp only [h1]

variable [Keccak]

/-! ## Cost -/

theorem walkInputs_length (parameter : Parameter) (leaf : UInt32) (i : UInt8) (a b : Nat)
    (v : Element) : (Chain.walkInputs parameter leaf i a b v).length = b - a := by
  simp [Chain.walkInputs]

/-- The chain steps of a verifier: what the digits leave of 36 chains of 15 steps. -/
theorem verifiedChains_length (parameter : Parameter) (leaf : UInt32) {x : Block chains}
    (hx : ∀ i, x.get i ≤ 15) (elements : Block elementsLength) :
    (verifiedChains parameter leaf x elements).length = 540 - ∑ i, (x.get i).toNat := by
  have hsteps : ∀ i : Fin chains, (x.get i).toNat ≤ 15 := fun i => UInt8.le_iff_toNat_le.mp (hx i)
  unfold verifiedChains
  rw [List.length_flatMap]
  simp only [walkInputs_length]
  rw [← Fin.sum_univ_def, Finset.sum_tsub_distrib Finset.univ fun i _ => hsteps i]
  simp only [Finset.sum_const, Finset.card_univ, Fintype.card_fin]
  rfl

/-- **`Chain::ends` makes 243 chain steps on every codeword**, and hashes nothing else. -/
theorem ends_cost {salt : Salt} {parameter : Parameter} {leaf : UInt32} {message : Message}
    {x : Block chains} (h : (encode salt parameter leaf message).eval keccak256 = some x)
    (elements : Block elementsLength) :
    (((Chain.new parameter leaf).ends x elements).asked keccak256).length = 243 ∧
      ∀ q ∈ ((Chain.new parameter leaf).ends x elements).asked keccak256,
        ∃ i k v, q = chainInput parameter leaf i k v := by
  rw [asked_chainEnds]
  constructor
  · rw [verifiedChains_length parameter leaf (digit_le_of_encode h), (eq_codeword_of_encode h).2]
  · intro q hq
    obtain ⟨i, -, hq⟩ := List.mem_flatMap.mp hq
    obtain ⟨k, -, rfl⟩ := List.mem_map.mp hq
    exact ⟨_, _, _, rfl⟩

/-- The hash calls of a verification: the message, the chains, the leaf and the nodes. -/
def verificationCost : Instance → Nat
  | .winternitz => 1 + 243 + 1
  | .xmss => 1 + 243 + 1 + 8

/--
**Every signature that passes the encoding costs the same number of hashes in verification**,
whatever its bytes and whether it is accepted.
-/
theorem verify_cost (k : Instance) {key : VerifyingKey} {message : Message}
    {sig : OneTime.Signature k.SecretKey} {x : Block chains}
    (hleaf : SealedSignature.leaf sig < OneTime.leaves k.SecretKey)
    (hx : (encode (SealedSignature.salt sig) key.parameter (SealedSignature.leaf sig)
      message).eval keccak256 = some x) :
    ((key.verify message sig).asked keccak256).length = verificationCost k := by
  cases k with
  | winternitz =>
    change Winternitz.Signature at sig
    change (encode sig.salt key.parameter 0 message).eval keccak256 = some x at hx
    have hends := (ends_cost hx sig.elements).1
    rw [asked_chainEnds] at hends
    show (Oracle.asked keccak256 (VerifyingKey.verify key message sig)).length = _
    rw [Winternitz.verify_eq, Winternitz.asked_verify hx]
    simp only [List.length_append, hends, List.length_singleton]
    rfl
  | xmss =>
    change Xmss.Signature at sig
    change (encode sig.salt key.parameter sig.leaf message).eval keccak256 = some x at hx
    have hends := (ends_cost hx sig.elements).1
    rw [asked_chainEnds] at hends
    have hlt : ¬ sig.leaf ≥ UInt32.ofNat Xmss.leaves := UInt32.not_le.mpr hleaf
    show (Oracle.asked keccak256 (VerifyingKey.verify key message sig)).length = _
    rw [Xmss.verify_eq, Xmss.asked_verify hlt hx]
    simp only [List.length_append, hends, Xmss.climbInputs, List.length_map, List.length_singleton,
      List.length_range]
    rfl

/-! ## The code -/

/--
**The target-sum code.** Of any two inputs that `encode` accepts: every digit is below 16; each of
the first 144 bits of the hash is one bit of one digit, so the codewords are equal iff the hashes
agree on 18 bytes; two different codewords are incomparable, so that neither signature can be walked
forward into the other; and `Chain::ends` makes 243 chain steps, so that every signature with a
leaf of the instance that passes the encoding costs the same number of hashes in verification.
-/
theorem target_sum_code {salt salt' : Salt} {parameter parameter' : Parameter} {leaf leaf' : UInt32}
    {message message' : Message} {x x' : Block chains}
    (h : (encode salt parameter leaf message).eval keccak256 = some x)
    (h' : (encode salt' parameter' leaf' message').eval keccak256 = some x') :
    let d := keccak256 (messageInput salt parameter leaf message)
    let d' := keccak256 (messageInput salt' parameter' leaf' message')
    (∀ i, (x.get i).toNat < 16) ∧
    (∀ (j : Fin hashLength) (hj : j.val < 18) (b : Nat) (hb : b < 8),
      (x.get ⟨2 * j + b / 4, show 2 * j.val + b / 4 < 36 by omega⟩).toNat.testBit (b % 4)
        = (d.get j).toNat.testBit b) ∧
    (x = x' ↔ d.toList.take 18 = d'.toList.take 18) ∧
    (x ≠ x' → (∃ i, x.get i < x'.get i) ∧ (∃ j, x'.get j < x.get j) ∧
      ¬ (∀ i, x.get i ≤ x'.get i) ∧ ¬ ∀ i, x'.get i ≤ x.get i) ∧
    (∀ elements : Block elementsLength,
      (((Chain.new parameter leaf).ends x elements).asked keccak256).length = 243 ∧
      ∀ q ∈ ((Chain.new parameter leaf).ends x elements).asked keccak256,
        ∃ i k v, q = chainInput parameter leaf i k v) ∧
    ∀ (k : Instance) (key : VerifyingKey) (sig : OneTime.Signature k.SecretKey),
      key.parameter = parameter → SealedSignature.salt sig = salt →
      SealedSignature.leaf sig = leaf →
      leaf < OneTime.leaves k.SecretKey →
      ((key.verify message sig).asked keccak256).length = verificationCost k := by
  have hx := (eq_codeword_of_encode h).1
  have hx' := (eq_codeword_of_encode h').1
  dsimp only
  refine ⟨fun i => ?_, fun j hj b hb => ?_, ?_, fun hne => ?_, ends_cost h, ?_⟩
  · have hi := UInt8.le_iff_toNat_le.mp (digit_le_of_encode h i)
    exact Nat.lt_succ_of_le hi
  · rw [hx]
    exact testBit_digits _ j hj b hb
  · rw [hx, hx']
    exact digits_eq_iff
  · obtain ⟨i, hi⟩ := exists_digit_lt h h' hne
    obtain ⟨j, hj⟩ := exists_digit_lt h' h hne.symm
    exact ⟨⟨i, hi⟩, ⟨j, hj⟩, fun hall => UInt8.not_le.mpr hj (hall j),
      fun hall => UInt8.not_le.mpr hi (hall i)⟩
  · rintro k key sig rfl rfl rfl hleaf
    exact verify_cost k hleaf h

omit [Keccak] in
/-- Two messages that are encoded differently. -/
theorem target_sum_code_lastByteHash :
    letI := lastByteHash
    ∃ x x', (encode (zeros _) (zeros _) 0 (zeros _)).eval keccak256 = some x ∧
      (encode (zeros _) (zeros _) 0 (copyInto (zeros _) 31 [1])).eval keccak256 = some x' ∧
      x ≠ x' ∧ (∃ i, x.get i < x'.get i) ∧ (∃ j, x'.get j < x.get j) ∧
      ¬ (∀ i, x.get i ≤ x'.get i) ∧ ¬ ∀ i, x'.get i ≤ x.get i := by
  let _ := lastByteHash
  have hx : (encode (zeros _) (zeros _) 0 (zeros _)).eval keccak256
      = some (digits (keccak256 [])) := by decide +kernel
  have hx' : (encode (zeros _) (zeros _) 0 (copyInto (zeros _) 31 [1])).eval keccak256
      = some (digits (keccak256 [1])) := by decide +kernel
  have hne : digits (keccak256 []) ≠ digits (keccak256 [1]) := by decide +kernel
  exact ⟨_, _, hx, hx', hne, (target_sum_code hx hx').2.2.2.1 hne⟩

end SolanaWinternitz
