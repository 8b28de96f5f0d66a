import SolanaWinternitz.Properties.Chain

/-!
# The target-sum code

* `digits_eq_iff` — the digits determine the first 18 bytes of the hash, and nothing else
* `eval_encode` — `encode` as a function of one hash
* `exists_digit_lt` — two different codewords are incomparable
-/

namespace SolanaWinternitz

open Infra

/-! ## Digits -/

theorem digits_get (digest : Block hashLength) (i : Fin chains) :
    (digits digest).get i = (digest.get ⟨i / 2, half_lt i⟩
      >>> UInt8.ofNat (4 * (i % 2))) &&& 0x0f := by
  unfold digits
  rw [List.Vector.get_ofFn]

/-- Every digit is below 16. -/
theorem digit_le (digest : Block hashLength) (i : Fin chains) : (digits digest).get i ≤ 15 := by
  unfold digits
  rw [List.Vector.get_ofFn, UInt8.le_iff_toNat_le, UInt8.toNat_and]
  exact Nat.and_le_right

/-- The two digits of a byte: its low half and its high half. -/
theorem digit_pair (b : UInt8) :
    ((b >>> UInt8.ofNat (4 * 0)) &&& 0x0f).toNat = b.toNat % 16 ∧
      ((b >>> UInt8.ofNat (4 * 1)) &&& 0x0f).toNat = b.toNat / 16 := by
  revert b
  decide +kernel

theorem digits_get_pair (d : Block hashLength) (j : Fin hashLength) (hj : j.val < 18) :
    ((digits d).get ⟨2 * j, show 2 * j.val < 36 by omega⟩).toNat = (d.get j).toNat % 16 ∧
      ((digits d).get ⟨2 * j + 1, show 2 * j.val + 1 < 36 by omega⟩).toNat
        = (d.get j).toNat / 16 := by
  obtain ⟨hlow, hhigh⟩ := digit_pair (d.get j)
  rw [digits_get, digits_get, ← hlow, ← hhigh]
  have h0 : 2 * j.val / 2 = j.val ∧ 2 * j.val % 2 = 0 := by omega
  have h1 : (2 * j.val + 1) / 2 = j.val ∧ (2 * j.val + 1) % 2 = 1 := by omega
  simp only [h0, h1, and_self]

/-- **The digits are the first 18 bytes of the hash**, two for each byte. -/
theorem digits_eq_iff {d d' : Block hashLength} :
    digits d = digits d' ↔ d.toList.take 18 = d'.toList.take 18 := by
  rw [take_eq_take_iff]
  constructor
  · intro h j hj
    obtain ⟨hlow, hhigh⟩ := digits_get_pair d j hj
    obtain ⟨hlow', hhigh'⟩ := digits_get_pair d' j hj
    rw [h] at hlow hhigh
    exact UInt8.toNat_inj.mp (by omega)
  · intro h
    refine List.Vector.ext fun i => ?_
    have hi : i.val < 36 := i.isLt
    rw [digits_get, digits_get, h ⟨i / 2, _⟩ (show i.val / 2 < 18 by omega)]

/-! ## Sums -/

/-- The sum of at most 257 bytes does not overflow 16 bits. -/
theorem sum_toNat : ∀ l : List UInt8, l.length ≤ 257 →
    ((l.map UInt8.toUInt16).sum).toNat = (l.map UInt8.toNat).sum ∧
      (l.map UInt8.toNat).sum ≤ 255 * l.length
  | [], _ => ⟨rfl, le_refl _⟩
  | b :: l, h => by
    rw [List.length_cons] at h
    obtain ⟨hsum, hle⟩ := sum_toNat l (by omega)
    have hb := b.toNat_lt
    rw [List.map_cons, List.map_cons, List.sum_cons, List.sum_cons, UInt16.toNat_add, hsum,
      UInt8.toNat_toUInt16, List.length_cons]
    constructor <;> omega

/-- The sum of the digits of a codeword. -/
theorem sum_get (x : Block chains) :
    ((x.toList.map UInt8.toUInt16).sum).toNat = ∑ i, (x.get i).toNat := by
  have hlist : x.toList = List.ofFn x.get := by
    rw [← List.Vector.toList_ofFn, List.Vector.ofFn_get]
  rw [(sum_toNat x.toList (by simp; decide)).1, hlist, List.map_ofFn, List.sum_ofFn]
  rfl

section Code

variable [Keccak]

/-- The digits of a salted message, before the sum is tested. -/
def codeword (salt : Salt) (parameter : Parameter) (leaf : UInt32) (message : Message) :
    Block chains :=
  digits (keccak256 (messageInput salt parameter leaf message))

theorem eval_encode (salt : Salt) (parameter : Parameter) (leaf : UInt32) (message : Message) :
    (encode salt parameter leaf message).eval keccak256
      = if ((codeword salt parameter leaf message).toList.map UInt8.toUInt16).sum = targetSum
        then some (codeword salt parameter leaf message) else none := by
  have hinput : [salt.toList, parameter.toList, roleMessage :: (u32Le leaf).toList,
      message.toList].flatten = messageInput salt parameter leaf message := by
    simp [messageInput]
  unfold encode
  rw [Oracle.eval_bind, eval_hashv, hinput]
  exact Oracle.eval_pure _ _

theorem digit_le_of_encode {salt : Salt} {parameter : Parameter} {leaf : UInt32}
    {message : Message} {x : Block chains}
    (h : (encode salt parameter leaf message).eval keccak256 = some x) (i : Fin chains) :
    x.get i ≤ 15 := by
  rw [eval_encode] at h
  split at h
  · rw [← Option.some.inj h]
    exact digit_le _ i
  · cases h

theorem eq_codeword_of_encode {salt : Salt} {parameter : Parameter} {leaf : UInt32}
    {message : Message} {x : Block chains}
    (h : (encode salt parameter leaf message).eval keccak256 = some x) :
    x = codeword salt parameter leaf message ∧ ∑ i, (x.get i).toNat = 297 := by
  rw [eval_encode] at h
  split at h
  · next hsum =>
    have hx := (Option.some.inj h).symm
    refine ⟨hx, ?_⟩
    rw [← sum_get, hx, hsum]
    rfl
  · cases h

/-- **Two different codewords are incomparable**: each has a digit below the other's. -/
theorem exists_digit_lt {salt salt' : Salt} {parameter parameter' : Parameter} {leaf leaf' : UInt32}
    {message message' : Message} {x x' : Block chains}
    (h : (encode salt parameter leaf message).eval keccak256 = some x)
    (h' : (encode salt' parameter' leaf' message').eval keccak256 = some x') (hne : x ≠ x') :
    ∃ i, x.get i < x'.get i := by
  have hsum := (eq_codeword_of_encode h).2.trans (eq_codeword_of_encode h').2.symm
  have hdigits : (fun i => (x.get i).toNat) ≠ fun i => (x'.get i).toNat := by
    intro he
    exact hne (List.Vector.ext fun i => UInt8.toNat_inj.mp (congrFun he i))
  obtain ⟨i, hi⟩ := exists_lt_of_sum_eq hsum hdigits
  exact ⟨i, UInt8.lt_iff_toNat_lt.mpr hi⟩

end Code

/-! ## A hash that accepts every message -/

/-- A constant hash whose digits have the target sum, for runs on concrete inputs. -/
@[reducible] def constantHash : Keccak where
  keccak256 _ := ⟨List.replicate 9 0xff ++ 0xfc :: List.replicate 22 0, rfl⟩

theorem encode_constantHash (salt : Salt) (parameter : Parameter) (leaf : UInt32)
    (message : Message) :
    letI := constantHash
    ((encode salt parameter leaf message).eval keccak256).isSome := by
  let _ := constantHash
  have hcode : codeword salt parameter leaf message = digits (keccak256 []) := rfl
  have hsum : ((digits (keccak256 [])).toList.map UInt8.toUInt16).sum = targetSum := by decide
  rw [eval_encode, hcode, if_pos hsum]
  rfl

/-- A hash with two values, which depend on the last byte. Both have the target sum. -/
@[reducible] def lastByteHash : Keccak where
  keccak256 b :=
    if b.getLast? = some 1 then ⟨0xfc :: List.replicate 9 0xff ++ List.replicate 22 0, rfl⟩
    else ⟨List.replicate 9 0xff ++ 0xfc :: List.replicate 22 0, rfl⟩

end SolanaWinternitz
