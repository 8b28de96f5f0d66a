import SolanaWinternitz.Properties.SignVerify
import SolanaWinternitz.Ts.Hazmat

/-!
# The TypeScript functions compute what the Rust functions compute

The two are written differently: parts are concatenated here and written into a buffer there, digits
are extracted with 32-bit operators here and with byte operators there. On the same arguments they
hash the same bytes.

* `encode_eq`, `walk_eq`, `leafHash_eq`, `node_eq` — the functions of `core.ts`
* `signLeaf_eq` — a signature without the leaf and the path
-/

namespace SolanaWinternitz.Ts

open Infra Infra.Js

/-! ## Byte strings -/

theorem concat_loop : ∀ (parts : List Bytes) (pre post : Bytes),
    post.length = parts.flatten.length →
    (parts.foldl (fun (out, offset) p => (setBytes out offset p, offset + p.length))
      (pre ++ post, pre.length)).1 = pre ++ parts.flatten
  | [], pre, post, h => by
    rw [List.length_eq_zero_iff.mp h]
    rfl
  | p :: parts, pre, post, h => by
    rw [List.flatten_cons, List.length_append] at h
    have hlen : (post.take p.length).length = p.length := by
      rw [List.length_take]
      omega
    have hset : setBytes (pre ++ post) pre.length p = (pre ++ p) ++ post.drop p.length := by
      have hsplit : setBytes (pre ++ (post.take p.length ++ post.drop p.length)) pre.length p
          = pre ++ (p ++ post.drop p.length) := setBytes_append rfl hlen
      rw [List.take_append_drop] at hsplit
      rw [hsplit, List.append_assoc]
    rw [List.foldl_cons]
    dsimp only
    rw [hset, ← List.length_append,
      concat_loop parts (pre ++ p) (post.drop p.length) (by rw [List.length_drop]; omega),
      List.flatten_cons, List.append_assoc]

theorem length_loop : ∀ (parts : List Bytes) (n : Nat),
    parts.foldl (fun n p => n + p.length) n = n + parts.flatten.length
  | [], n => rfl
  | p :: parts, n => by
    rw [List.foldl_cons, length_loop parts, List.flatten_cons, List.length_append, Nat.add_assoc]

/-- The loop of `concat` writes the parts one after the other. -/
@[simp] theorem concat_eq (parts : List Bytes) : concat parts = parts.flatten := by
  unfold concat
  refine concat_loop parts [] _ ?_
  rw [length_loop, Nat.zero_add, List.length_replicate]

@[simp] theorem u32be_natCast (u : UInt32) : u32be u.toNat = (u32Be u).toList := by
  simp [u32be]

@[simp] theorem u32le_natCast (u : UInt32) : u32le u.toNat = (u32Le u).toList := by
  simp [u32le]

theorem bytes_eq {value : Bytes} {length : Nat} (h : value.length = length) (what : String) :
    bytes value length what = .ok ⟨value, h⟩ := dif_pos h

@[simp] theorem bytes_toList {n : Nat} (b : Block n) (what : String) :
    bytes b.toList n what = .ok b := by
  rw [bytes_eq (List.Vector.toList_length b), mk_toList]

theorem VerifyingKey.fromBytes_toList (key : Block publicKeyLen) :
    VerifyingKey.fromBytes key.toList = .ok ⟨key⟩ := by
  rw [VerifyingKey.fromBytes, bytes_toList]
  rfl

/-- The blocks of an array in one byte string. -/
theorem flattenList_eq {n : Nat} : ∀ (k : Nat) (a : Fin k → Block n),
    flattenList k a = (List.ofFn fun i => (a i).toList).flatten
  | 0, _ => rfl
  | k + 1, a => by
    rw [flattenList, flattenList_eq k, List.ofFn_succ, List.flatten_cons]

theorem map_range {α : Type} (n : Nat) (f : Nat → α) :
    (List.range n).map f = List.ofFn fun i : Fin n => f i := by
  rw [List.ofFn_eq_map, ← List.map_coe_finRange_eq_range, List.map_map]
  rfl

variable [Keccak]

/-- A truncated hash. -/
theorem subarray_keccak (data : Bytes) :
    subarray (keccak data) 0 elementLength = (truncatedHash data).toList := by
  unfold keccak truncatedHash
  rw [subarray_zero _ (by rw [List.Vector.toList_length]; decide)]
  rfl

/-! ## Encoding -/

omit [Keccak] in
theorem byteAt_toList {n : Nat} (b : Block n) (i : Fin n) :
    byteAt b.toList i = (b.get i).toNat := by
  rw [byteAt_natCast, getElem?_toList]
  rfl

omit [Keccak] in
theorem digit_eq (digest : Block hashLength) (i : Fin chains) :
    toUint8 (digit digest.toList i) = (digits digest).get i := by
  have hi : i.val < 36 := i.isLt
  -- A digit is the low or the high half of a byte.
  have hhalf : ∀ (b : UInt8), ∀ r < 2, toUint8 (bitAnd (shiftRight b.toNat (4 * (r : Nat))) 0x0f)
      = (b >>> UInt8.ofNat (4 * r)) &&& 0x0f := by decide +kernel
  have hindex : shiftRight i 1 = (i / 2 : Nat) := by
    have h := shiftRight_natCast (n := i) (k := 1) (by omega) (by omega)
    rwa [Nat.pow_one] at h
  have hbit : bitAnd i 1 = (i % 2 : Nat) := by
    have h := bitAnd_natCast (n := i) (m := 1) (by omega)
    rwa [Nat.and_one_is_mod] at h
  unfold digit
  rw [hindex, hbit, digits_get, ← hhalf _ _ (Nat.mod_lt _ (by decide))]
  have hbyte := byteAt_toList digest ⟨i / 2, half_lt i⟩
  rw [hbyte]

theorem encode_eq (salt : Salt) (parameter : Parameter) (leaf : UInt32) (message : Message) :
    encode salt.toList parameter.toList leaf.toNat message.toList
      = ((SolanaWinternitz.encode salt parameter leaf message).eval keccak256).map
          fun x => x.toList := by
  have hinput : concat [salt.toList, parameter.toList, uint8Array [roleMessage], u32le leaf.toNat,
      message.toList] = messageInput salt parameter leaf message := by
    have hrole : uint8Array [roleMessage] = [SolanaWinternitz.roleMessage] := rfl
    rw [concat_eq, hrole, u32le_natCast]
    simp [messageInput]
  have hdigits : uint8Array ((List.range chains).map fun (i : Nat) =>
      digit (keccak (messageInput salt parameter leaf message)) i)
      = (codeword salt parameter leaf message).toList := by
    unfold uint8Array codeword digits keccak
    rw [List.map_map, map_range, List.Vector.toList_ofFn]
    congr 1
    funext i
    show toUint8 (digit _ _) = _
    rw [digit_eq, digits_get]
  have hsum : (codeword salt parameter leaf message).toList.foldl (fun a b => a + b.toNat) 0
      = ((codeword salt parameter leaf message).toList.map UInt8.toUInt16).sum.toNat := by
    rw [(sum_toNat _ (by rw [List.Vector.toList_length]; decide)).1, List.sum_eq_foldl,
      List.foldl_map]
  unfold encode
  rw [hinput]
  dsimp only
  rw [hdigits, hsum, eval_encode]
  by_cases h : ((codeword salt parameter leaf message).toList.map UInt8.toUInt16).sum
      = SolanaWinternitz.targetSum
  · have hnat : ((codeword salt parameter leaf message).toList.map UInt8.toUInt16).sum.toNat
        = targetSum := congrArg UInt16.toNat h
    rw [if_pos h, if_pos hnat]
    rfl
  · have hnat : ((codeword salt parameter leaf message).toList.map UInt8.toUInt16).sum.toNat
        ≠ targetSum := fun he => h (UInt16.toNat_inj.mp he)
    rw [if_neg h, if_neg hnat]
    rfl

/-! ## Chains and nodes -/

theorem walkStep_eq (parameter : Parameter) (leaf : UInt32) (i k : Nat) (x : Element) :
    walkStep parameter.toList leaf.toNat i x.toList k
      = (chainStep parameter leaf (UInt8.ofNat i) (k + 1) x).toList := by
  have hrole : uint8Array [roleChain] = [SolanaWinternitz.roleChain] := rfl
  have hposition : uint8Array [(i : Int), k + 1] = [UInt8.ofNat i, UInt8.ofNat (k + 1)] := by
    have h := toUint8_natCast (k + 1)
    rw [Nat.cast_succ] at h
    simp [uint8Array, h]
  unfold walkStep chainStep
  rw [subarray_keccak, concat_eq, hrole, hposition, u32be_natCast]
  congr 2
  simp [chainInput]

theorem walk_eq (parameter : Parameter) (leaf : UInt32) (i a b : Nat) (x : Element) :
    walk parameter.toList leaf.toNat i a b x.toList
      = (Infra.walk (chainStep parameter leaf (UInt8.ofNat i)) a b x).toList := by
  have hloop : ∀ (l : List Nat) (v : Element),
      l.foldl (walkStep parameter.toList leaf.toNat i) v.toList
        = (l.foldl (fun v k => chainStep parameter leaf (UInt8.ofNat i) (k + 1) v) v).toList := by
    intro l
    induction l with
    | nil => exact fun v => rfl
    | cons k l ih =>
      intro v
      rw [List.foldl_cons, List.foldl_cons, walkStep_eq, ih]
  exact hloop _ x

omit [Keccak] in
theorem treeTweak_eq (level : Nat) (index : UInt32) :
    treeTweak level index.toNat
      = (SolanaWinternitz.treeTweak (UInt8.ofNat level) index).toList := by
  have htweak : uint8Array [roleTree, (level : Int)]
      = [SolanaWinternitz.roleTree, UInt8.ofNat level] := by
    simp [uint8Array]
    rfl
  unfold treeTweak
  rw [concat_eq, htweak, u32be_natCast, treeTweak_toList]
  simp

theorem leafHash_eq (parameter : Parameter) (leaf : UInt32) (ends : Elements) :
    leafHash parameter.toList leaf.toNat (List.ofFn fun i => (ends i).toList)
      = (leafOf parameter leaf ends).toList := by
  have htweak := treeTweak_eq 0 leaf
  unfold leafHash leafOf
  rw [subarray_keccak, concat_eq]
  congr 2
  rw [Nat.cast_zero] at htweak
  rw [htweak, treeTweak_toList]
  simp [treeInput, flattenList_eq]

theorem node_eq (parameter : Parameter) (level : Nat) (index : UInt32) (left right : Element) :
    node parameter.toList level index.toNat left.toList right.toList
      = (nodeOf parameter (UInt8.ofNat level) index left right).toList := by
  unfold node nodeOf
  rw [subarray_keccak, concat_eq, treeTweak_eq, treeTweak_toList]
  congr 2
  simp [treeInput]

/-! ## Leaves -/

omit [Keccak] in
/-- A block inside a byte string. -/
theorem subarray_slice {bs : Bytes} {offset n : Nat} {a b : Int} (ha : a = offset)
    (hb : b = (offset + n : Nat)) (h : offset + n ≤ bs.length) :
    subarray bs a b = (slice bs offset n).toList := by
  rw [ha, hb, subarray_natCast bs h]

omit [Keccak] in
/-- Every chain start of a leaf is inside the secrets. -/
theorem start_eq {secrets : Bytes} {leaf : UInt32}
    (h : (leaf.toNat + 1) * elementsLength ≤ secrets.length) (i : Fin chains) :
    start secrets leaf.toNat i = (Signing.start secrets leaf i).toList := by
  have hi : i.val < 36 := i.isLt
  refine subarray_slice ?_ ?_ ?_
  · norm_cast
  · norm_cast
  · change (leaf.toNat + 1) * (36 * 23) ≤ _ at h
    show leaf.toNat * (36 * 23) + i.val * 23 + 23 ≤ _
    omega

theorem endsOf_eq (parameter : Parameter) {secrets : Bytes} {leaf : UInt32}
    (h : (leaf.toNat + 1) * elementsLength ≤ secrets.length) :
    endsOf secrets parameter.toList leaf.toNat
      = List.ofFn fun i => (Signing.chainEnds secrets parameter leaf i).toList := by
  unfold endsOf
  rw [map_range]
  congr 1
  funext i
  rw [start_eq h, walk_eq]
  rfl

theorem endsFromSignature_eq (parameter : Parameter) (leaf : UInt32)
    (x : Block SolanaWinternitz.chains) (elements : Block SolanaWinternitz.elementsLength) :
    endsFromSignature parameter.toList leaf.toNat x.toList elements.toList
      = List.ofFn fun i => (endsFrom parameter leaf x elements i).toList := by
  unfold endsFromSignature
  rw [map_range]
  congr 1
  funext i
  have hi : i.val < 36 := i.isLt
  have hchunk : subarray elements.toList (i.val * elementLength) ((i.val + 1) * elementLength)
      = (chunk elementLength elements.toList i).toList := by
    refine subarray_slice ?_ ?_ ?_
    · norm_cast
    · push_cast
      ring
    · rw [List.Vector.toList_length]
      show i.val * 23 + 23 ≤ 36 * 23
      omega
  rw [hchunk, byteAt_toList x i, Int.toNat_natCast, walk_eq]
  rfl

theorem signLeaf_eq (parameter : Parameter) {secrets : Bytes} {leaf : UInt32}
    (h : (leaf.toNat + 1) * elementsLength ≤ secrets.length) (message : Message) (salt : Salt) :
    signLeaf secrets parameter.toList leaf.toNat message.toList salt.toList
      = match (SolanaWinternitz.encode salt parameter leaf message).eval keccak256 with
        | none => .error ⟨.invalidEncoding, "salt misses the target sum"⟩
        | some x => .ok (salt.toList
            ++ (flatten (Signing.elementsOf secrets parameter leaf x)).toList) := by
  unfold signLeaf
  rw [encode_eq]
  cases (SolanaWinternitz.encode salt parameter leaf message).eval keccak256 with
  | none => rfl
  | some x =>
    simp only [Option.map_some, concat_eq, List.flatten_cons, flatten_toList, flattenList_eq,
      map_range]
    congr 4
    funext i
    rw [start_eq h, byteAt_toList x i, Int.toNat_natCast, walk_eq]
    rfl

end SolanaWinternitz.Ts
