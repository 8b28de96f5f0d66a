import SolanaWinternitz.Properties.TsCore

/-!
# The two verifiers agree

Rust verifies with one function for each instance, the TypeScript package with one function for
both. On every key, digest and signature, of whatever length, they come to the same result.

* `check`, `Ts.check` — decode the arguments, then verify
* `Ts.climb_loop` — the loop over the path climbs the tree, as the one in Rust does
* `verifiers_agree` — the two results are equal
* `verifiers_same_outcome` — **one of three outcomes, and which lengths lead to the second**
-/

namespace SolanaWinternitz

open Infra Infra.Js

/-- The code of the TypeScript error that stands for an error of the crate. -/
def Error.code : Error → Ts.ErrorCode
  | invalidSignature => .invalidSignature
  | invalidLength => .invalidLength

/-! ## Decoding and verifying -/

/-- The length of an encoded signature. -/
def Instance.signatureLen : Instance → Nat
  | winternitz => Winternitz.signatureLen
  | xmss => Xmss.signatureLen

/-- A slice as a message: `verify` takes an array of 32 bytes. -/
def Message.fromSlice (digest : Bytes) : Except Error Message :=
  if h : digest.length = messageLen then .ok ⟨digest, h⟩ else .error .invalidLength

section

variable [Keccak]

/-- Decode a key, a digest and a signature of the crate, then verify. -/
def check (k : Instance) (key digest signature : Bytes) : Except Error Unit := do
  let key ← VerifyingKey.fromSlice key
  let digest ← Message.fromSlice digest
  match k with
  | .winternitz =>
    let signature ← Winternitz.Signature.fromSlice signature
    (key.verify digest signature).eval keccak256
  | .xmss =>
    let signature ← Xmss.Signature.fromSlice signature
    (key.verify digest signature).eval keccak256

/-- Decode a key and a signature of the package, then verify a digest. -/
def Ts.check (k : Instance) (key digest signature : Bytes) : Except CryptoError Unit := do
  let key ← VerifyingKey.fromBytes key
  match k with
  | .winternitz =>
    let signature ← Winternitz.Signature.fromBytes signature
    key.verify digest (.winternitz signature)
  | .xmss =>
    let signature ← Xmss.Signature.fromBytes signature
    key.verify digest (.xmss signature)

end

namespace Ts

/-! ## Comparisons -/

@[simp] theorem equal_toList {n : Nat} (a b : Block n) :
    equal a.toList b.toList = decide (a = b) := by
  rw [Bool.eq_iff_iff, decide_eq_true_iff]
  unfold equal
  rw [beq_iff_eq]
  exact ⟨List.Vector.eq _ _, congrArg List.Vector.toList⟩

theorem parameter_eq (key : Block publicKeyLen) :
    subarrayFrom key.toList elementLength
      = (SolanaWinternitz.VerifyingKey.mk key).parameter.toList :=
  subarrayFrom_natCast key.toList (List.Vector.toList_length key)

theorem root_eq (key : Block publicKeyLen) :
    subarray key.toList 0 elementLength = (SolanaWinternitz.VerifyingKey.mk key).node.toList :=
  subarray_zero key.toList (by rw [List.Vector.toList_length]; decide)

/-! ## The path -/

/-- A block inside a slice. -/
theorem chunk_slice {bs : Bytes} {n l k off : Nat} (hl : l < k) (h : off + k * n ≤ bs.length) :
    chunk n (slice bs off (k * n)).toList l = slice bs (off + l * n) n := by
  have hle : l * n + n ≤ k * n := by
    rw [← Nat.succ_mul]
    exact Nat.mul_le_mul_right n hl
  exact slice_slice hle h

variable [Keccak]

/-- **One round of the loop is one step up the tree.** -/
theorem climbStep_eq (parameter : Parameter) (sig : SolanaWinternitz.Xmss.Signature) {leaf : UInt32}
    (hleaf : leaf.toNat < Xmss.leaves) (current : Element) {l : Nat} (hl : l < Xmss.height) :
    VerifyingKey.climbStep parameter.toList sig.bytes.toList leaf.toNat
        (4 + saltLength + elementsLength) current.toList (l + 1)
      = (let p := childPair (leaf.toNat / 2 ^ l) current (chunk elementLength sig.path.toList l)
        SolanaWinternitz.Xmss.makeNode parameter (l + 1) (leaf.toNat / 2 ^ (l + 1))
          p.1 p.2).toList := by
  have hl8 : l < 8 := hl
  have hlt : leaf.toNat < 2 ^ 31 := lt_trans hleaf (by decide)
  have hpred : ((l + 1 : Nat) : Int) - 1 = l := by
    push_cast
    ring
  have hsibling :
      subarray sig.bytes.toList (4 + saltLength + elementsLength + (l : Nat) * elementLength)
      (4 + saltLength + elementsLength + ((l + 1 : Nat) : Int) * elementLength)
      = (chunk elementLength sig.path.toList l).toList := by
    have hchunk : chunk elementLength sig.path.toList l
        = slice sig.bytes.toList (4 + saltLength + elementsLength + l * elementLength)
          elementLength :=
      chunk_slice hl (Nat.le_of_eq (List.Vector.toList_length sig.bytes).symm)
    rw [hchunk]
    refine subarray_slice ?_ ?_ ?_
    · norm_cast
    · push_cast
      ring
    · rw [List.Vector.toList_length]
      show 4 + 21 + 36 * 23 + l * 23 + 23 ≤ 4 + 21 + 36 * 23 + 8 * 23
      omega
  have hindex : shiftRight leaf.toNat ((l + 1 : Nat) : Int)
      = (UInt32.ofNat (leaf.toNat / 2 ^ (l + 1))).toNat := by
    rw [shiftRight_natCast hlt (by omega), UInt32.toNat_ofNat', Nat.mod_eq_of_lt]
    exact lt_of_le_of_lt (Nat.div_le_self _ _) leaf.toNat_lt
  have hbit : bitAnd (shiftRight leaf.toNat l) 1 = (leaf.toNat / 2 ^ l % 2 : Nat) := by
    have hand := bitAnd_natCast (n := leaf.toNat / 2 ^ l) (m := 1)
      (lt_of_le_of_lt (Nat.div_le_self _ _) hlt)
    rw [shiftRight_natCast hlt (by omega)]
    rwa [Nat.and_one_is_mod] at hand
  unfold VerifyingKey.climbStep childPair SolanaWinternitz.Xmss.makeNode
  rw [hpred, hsibling, hindex, hbit]
  by_cases hb : leaf.toNat / 2 ^ l % 2 = 0
  · simp only [hb, Nat.cast_zero, ne_eq, not_true_eq_false, if_true, if_false, node_eq]
  · have hne : ((leaf.toNat / 2 ^ l % 2 : Nat) : Int) ≠ 0 := by exact_mod_cast hb
    simp only [hne, hb, ne_eq, not_false_eq_true, if_true, if_false, node_eq]

/-- The loop of `verify` climbs the tree. -/
theorem climb_loop (parameter : Parameter) (sig : SolanaWinternitz.Xmss.Signature) {leaf : UInt32}
    (hleaf : leaf.toNat < Xmss.leaves) (start : Element) : ∀ h ≤ Xmss.height,
      (List.range' 1 h).foldl (VerifyingKey.climbStep parameter.toList sig.bytes.toList leaf.toNat
          (4 + saltLength + elementsLength)) start.toList
        = (climb (SolanaWinternitz.Xmss.makeNode parameter) leaf.toNat
            (fun l => chunk elementLength sig.path.toList l) h start).toList := by
  intro h
  induction h with
  | zero => exact fun _ => rfl
  | succ h ih =>
    intro hh
    rw [List.range'_concat, List.foldl_append, List.foldl_cons, List.foldl_nil, ih (by omega),
      Nat.one_mul, Nat.add_comm 1 h, climbStep_eq parameter sig hleaf _ hh, climb]

/-! ## Both instances -/

omit [Keccak] in
/-- The comparison that ends `verify`. -/
theorem accept_eq (key : Block publicKeyLen) (root : Element) :
    (if equal root.toList (subarray key.toList 0 elementLength) then Except.ok ()
      else .error ({ code := .invalidSignature } : CryptoError)).mapError (fun e => e.code)
      = (if root = (SolanaWinternitz.VerifyingKey.mk key).node then Except.ok ()
        else .error Error.invalidSignature).mapError Error.code := by
  rw [root_eq, equal_toList]
  by_cases h : root = (SolanaWinternitz.VerifyingKey.mk key).node
  · simp [h]
    rfl
  · simp [h]
    rfl

theorem verify_winternitz (key : Block publicKeyLen) (digest : Message)
    (sig : SolanaWinternitz.Winternitz.Signature) :
    ((VerifyingKey.mk key).verifyEncoded digest.toList false sig.bytes.toList 0).mapError
        (fun e => e.code)
      = ((sig.verify ⟨key⟩ digest).eval keccak256).mapError Error.code := by
  have hlen : sig.bytes.toList.length = 21 + 36 * 23 := List.Vector.toList_length sig.bytes
  have hsalt : subarray sig.bytes.toList 0 (0 + saltLength) = sig.salt.toList :=
    subarray_slice rfl rfl (by rw [hlen]; decide)
  have helements : subarray sig.bytes.toList (0 + saltLength) (0 + saltLength + elementsLength)
      = sig.elements.toList :=
    subarray_slice rfl rfl (Nat.le_of_eq hlen.symm)
  have hencode := encode_eq sig.salt (SolanaWinternitz.VerifyingKey.mk key).parameter 0 digest
  have hends := endsFromSignature_eq (SolanaWinternitz.VerifyingKey.mk key).parameter 0
  have hleafHash := leafHash_eq (SolanaWinternitz.VerifyingKey.mk key).parameter 0
  have hzero : ((UInt32.toNat 0 : Nat) : Int) = 0 := rfl
  rw [hzero] at hencode hends hleafHash
  unfold VerifyingKey.verifyEncoded
  rw [if_neg (by decide), SolanaWinternitz.Winternitz.Signature.eval_verify]
  dsimp only
  rw [if_neg Bool.false_ne_true, hsalt, helements, parameter_eq, hencode]
  cases (SolanaWinternitz.encode sig.salt (SolanaWinternitz.VerifyingKey.mk key).parameter 0
    digest).eval keccak256 with
  | none => rfl
  | some x =>
    dsimp only [Option.map_some]
    rw [hends, hleafHash]
    exact accept_eq key _

theorem verify_xmss (key : Block publicKeyLen) (digest : Message)
    (sig : SolanaWinternitz.Xmss.Signature) :
    ((VerifyingKey.mk key).verifyEncoded digest.toList true sig.bytes.toList
      sig.leaf.toNat).mapError
        (fun e => e.code)
      = ((sig.verify ⟨key⟩ digest).eval keccak256).mapError Error.code := by
  have hlen : sig.bytes.toList.length = 4 + 21 + 36 * 23 + 8 * 23 :=
    List.Vector.toList_length sig.bytes
  have hsalt : subarray sig.bytes.toList 4 (4 + saltLength) = sig.salt.toList :=
    subarray_slice rfl rfl (by rw [hlen]; decide)
  have helements : subarray sig.bytes.toList (4 + saltLength) (4 + saltLength + elementsLength)
      = sig.elements.toList :=
    subarray_slice rfl rfl (by rw [hlen]; decide)
  have hleaves : (sig.leaf.toNat : Int) ≥ Xmss.leaves ↔ sig.leaf ≥ UInt32.ofNat Xmss.leaves := by
    rw [ge_iff_le, ge_iff_le, UInt32.le_iff_toNat_le, Nat.cast_le]
    rfl
  unfold VerifyingKey.verifyEncoded
  rw [SolanaWinternitz.Xmss.Signature.eval_verify]
  by_cases hleaf : sig.leaf ≥ UInt32.ofNat Xmss.leaves
  · rw [if_pos hleaf, if_pos (hleaves.mpr hleaf)]
    rfl
  · have hlt : sig.leaf.toNat < Xmss.leaves := SolanaWinternitz.Xmss.lt_leaves hleaf
    rw [if_neg hleaf, if_neg (mt hleaves.mp hleaf)]
    dsimp only
    rw [if_pos rfl, hsalt, helements, parameter_eq, encode_eq]
    cases (SolanaWinternitz.encode sig.salt (SolanaWinternitz.VerifyingKey.mk key).parameter
        sig.leaf digest).eval keccak256 with
    | none => rfl
    | some x =>
      dsimp only [Option.map_some]
      rw [endsFromSignature_eq, leafHash_eq, if_pos rfl, climb_loop _ sig hlt _ _ (le_refl _)]
      exact accept_eq key _

/-! ## Lengths -/

omit [Keccak] in
/-- A byte string has the length of a block or it is rejected. -/
theorem bytes_cases (value : Bytes) (length : Nat) (what : String) :
    (∃ b : Block length, value = b.toList) ∨
      value.length ≠ length ∧ ∃ text, bytes value length what = .error ⟨.invalidLength, text⟩ := by
  by_cases h : value.length = length
  · exact Or.inl ⟨⟨value, h⟩, rfl⟩
  · exact Or.inr ⟨h, _, dif_neg h⟩

theorem VerifyingKey.verify_winternitz (key : VerifyingKey) (digest : Message)
    (sig : Winternitz.Signature) :
    key.verify digest.toList (.winternitz sig)
      = key.verifyEncoded digest.toList false sig.toBytes 0 := by
  unfold VerifyingKey.verify
  rw [bytes_toList, ok_bind]

theorem VerifyingKey.verify_xmss (key : VerifyingKey) (digest : Message) (sig : Xmss.Signature) :
    key.verify digest.toList (.xmss sig)
      = key.verifyEncoded digest.toList true sig.toBytes sig.leaf := by
  unfold VerifyingKey.verify
  rw [bytes_toList, ok_bind]

/-- A digest of another length is rejected before the signature is looked at. -/
theorem VerifyingKey.verify_short (key : VerifyingKey) {digest : Bytes} {text : String}
    (h : Ts.bytes digest messageLen "message" = .error ⟨.invalidLength, text⟩)
    (sig : AnySignature) :
    key.verify digest sig = .error ⟨.invalidLength, text⟩ := by
  unfold VerifyingKey.verify
  rw [h]
  rfl

end Ts

/-! ## Agreement -/

theorem VerifyingKey.fromSlice_toList (key : Block publicKeyLen) :
    VerifyingKey.fromSlice key.toList = .ok ⟨key⟩ := VerifyingKey.fromSlice_eq_ok.mpr rfl

theorem Message.fromSlice_toList (digest : Message) :
    Message.fromSlice digest.toList = .ok digest := by
  unfold Message.fromSlice
  rw [dif_pos (List.Vector.toList_length digest), mk_toList]

variable [Keccak]

/-! Each side as one computation, for a key and a signature of the right length. -/

theorem check_winternitz (key : Block publicKeyLen) (digest : Bytes)
    (sig : Block Winternitz.signatureLen) :
    check .winternitz key.toList digest sig.toList
      = Message.fromSlice digest >>= fun digest =>
          ((Winternitz.Signature.mk sig).verify ⟨key⟩ digest).eval keccak256 := by
  have hsig : Winternitz.Signature.fromSlice sig.toList = .ok ⟨sig⟩ :=
    Winternitz.Signature.fromSlice_eq_ok.mpr rfl
  unfold check
  rw [VerifyingKey.fromSlice_toList, ok_bind]
  cases Message.fromSlice digest with
  | error e => rw [error_bind, error_bind]
  | ok digest =>
    rw [ok_bind, ok_bind]
    dsimp only
    rw [hsig, ok_bind, Winternitz.verify_eq]

theorem check_xmss (key : Block publicKeyLen) (digest : Bytes) (sig : Block Xmss.signatureLen) :
    check .xmss key.toList digest sig.toList
      = Message.fromSlice digest >>= fun digest =>
          ((Xmss.Signature.mk sig).verify ⟨key⟩ digest).eval keccak256 := by
  have hsig : Xmss.Signature.fromSlice sig.toList = .ok ⟨sig⟩ :=
    Xmss.Signature.fromSlice_eq_ok.mpr rfl
  unfold check
  rw [VerifyingKey.fromSlice_toList, ok_bind]
  cases Message.fromSlice digest with
  | error e => rw [error_bind, error_bind]
  | ok digest =>
    rw [ok_bind, ok_bind]
    dsimp only
    rw [hsig, ok_bind, Xmss.verify_eq]

theorem Ts.check_winternitz (key : Block publicKeyLen) (digest : Bytes)
    (sig : Block Winternitz.signatureLen) :
    Ts.check .winternitz key.toList digest sig.toList
      = (Ts.VerifyingKey.mk key).verify digest (.winternitz ⟨sig⟩) := by
  have hsig : Ts.Winternitz.Signature.fromBytes sig.toList = .ok ⟨sig⟩ := by
    rw [Ts.Winternitz.Signature.fromBytes, Ts.bytes_toList]
    rfl
  unfold Ts.check
  rw [Ts.VerifyingKey.fromBytes_toList, ok_bind]
  dsimp only
  rw [hsig, ok_bind]

theorem Ts.check_xmss (key : Block publicKeyLen) (digest : Bytes) (sig : Block Xmss.signatureLen) :
    Ts.check .xmss key.toList digest sig.toList
      = (Ts.VerifyingKey.mk key).verify digest (.xmss ⟨sig⟩) := by
  have hsig : Ts.Xmss.Signature.fromBytes sig.toList = .ok ⟨sig⟩ := by
    rw [Ts.Xmss.Signature.fromBytes, Ts.bytes_toList]
    rfl
  unfold Ts.check
  rw [Ts.VerifyingKey.fromBytes_toList, ok_bind]
  dsimp only
  rw [hsig, ok_bind]

/-- A signature of the wrong length is rejected, whatever the digest is. -/
theorem check_short {k : Instance} {key : Block publicKeyLen} {digest signature : Bytes}
    (h : signature.length ≠ k.signatureLen) :
    check k key.toList digest signature = .error .invalidLength := by
  unfold check
  rw [VerifyingKey.fromSlice_toList, ok_bind]
  rcases Ts.bytes_cases digest messageLen "message" with ⟨digest, rfl⟩ | ⟨hne, -⟩
  · rw [Message.fromSlice_toList, ok_bind]
    cases k with
    | winternitz =>
      have hsig : Winternitz.Signature.fromSlice signature = .error .invalidLength := dif_neg h
      dsimp only
      rw [hsig]
      rfl
    | xmss =>
      have hsig : Xmss.Signature.fromSlice signature = .error .invalidLength := dif_neg h
      dsimp only
      rw [hsig]
      rfl
  · have hrust : Message.fromSlice digest = .error .invalidLength := dif_neg hne
    rw [hrust]
    rfl

theorem Ts.check_short {k : Instance} {key : Block publicKeyLen} {digest signature : Bytes}
    (h : signature.length ≠ k.signatureLen) :
    (Ts.check k key.toList digest signature).mapError (fun e => e.code)
      = .error .invalidLength := by
  unfold Ts.check
  rw [Ts.VerifyingKey.fromBytes_toList, ok_bind]
  cases k with
  | winternitz =>
    have hsig : Ts.bytes signature Winternitz.signatureLen "signature" = .error _ := dif_neg h
    dsimp only
    rw [Ts.Winternitz.Signature.fromBytes, hsig]
    rfl
  | xmss =>
    have hsig : Ts.bytes signature Xmss.signatureLen "signature" = .error _ := dif_neg h
    dsimp only
    rw [Ts.Xmss.Signature.fromBytes, hsig]
    rfl

/-- The two results are equal, apart from the text of an error. -/
theorem check_agree (k : Instance) (key digest signature : Bytes) :
    (Ts.check k key digest signature).mapError (fun e => e.code)
      = (check k key digest signature).mapError Error.code := by
  rcases Ts.bytes_cases key publicKeyLen "verifying key" with ⟨key, rfl⟩ | ⟨hne, text, hbytes⟩
  · cases k with
    | winternitz =>
      rcases Ts.bytes_cases signature Winternitz.signatureLen "signature" with ⟨sig, rfl⟩ | ⟨hne, -⟩
      · rw [Ts.check_winternitz, check_winternitz]
        rcases Ts.bytes_cases digest messageLen "message" with ⟨digest, rfl⟩ | ⟨hne, text, hbytes⟩
        · rw [Ts.VerifyingKey.verify_winternitz, Message.fromSlice_toList, ok_bind]
          exact Ts.verify_winternitz key digest ⟨sig⟩
        · have hrust : Message.fromSlice digest = .error .invalidLength := dif_neg hne
          rw [Ts.VerifyingKey.verify_short _ hbytes, hrust]
          rfl
      · rw [check_short (k := .winternitz) hne, Ts.check_short (k := .winternitz) hne]
        rfl
    | xmss =>
      rcases Ts.bytes_cases signature Xmss.signatureLen "signature" with ⟨sig, rfl⟩ | ⟨hne, -⟩
      · rw [Ts.check_xmss, check_xmss]
        rcases Ts.bytes_cases digest messageLen "message" with ⟨digest, rfl⟩ | ⟨hne, text, hbytes⟩
        · rw [Ts.VerifyingKey.verify_xmss, Message.fromSlice_toList, ok_bind]
          exact Ts.verify_xmss key digest ⟨sig⟩
        · have hrust : Message.fromSlice digest = .error .invalidLength := dif_neg hne
          rw [Ts.VerifyingKey.verify_short _ hbytes, hrust]
          rfl
      · rw [check_short (k := .xmss) hne, Ts.check_short (k := .xmss) hne]
        rfl
  · have hrust : VerifyingKey.fromSlice key = .error .invalidLength := dif_neg hne
    unfold Ts.check check Ts.VerifyingKey.fromBytes
    rw [hrust, hbytes]
    rfl

/--
**The two verifiers agree.** On all byte strings, under the same hash, both accept or both report
the same error.
-/
theorem verifiers_agree (k : Instance) (key digest signature : Bytes) :
    (Ts.check k key digest signature).mapError (fun e => e.code)
      = (check k key digest signature).mapError Error.code :=
  check_agree k key digest signature

/-! ## Outcomes -/

theorem Winternitz.Signature.verify_ne_invalidLength (sig : Signature) (key : VerifyingKey)
    (message : Message) : (sig.verify key message).eval keccak256 ≠ .error .invalidLength := by
  rw [eval_verify]
  cases (encode sig.salt key.parameter 0 message).eval keccak256 with
  | none => nofun
  | some x =>
    dsimp only
    split <;> nofun

theorem Xmss.Signature.verify_ne_invalidLength (sig : Signature) (key : VerifyingKey)
    (message : Message) : (sig.verify key message).eval keccak256 ≠ .error .invalidLength := by
  rw [eval_verify]
  by_cases hleaf : sig.leaf ≥ UInt32.ofNat leaves
  · rw [if_pos hleaf]
    nofun
  · rw [if_neg hleaf]
    cases (encode sig.salt key.parameter sig.leaf message).eval keccak256 with
    | none => nofun
    | some x =>
      dsimp only
      split <;> nofun

/-- An error about a length is about the key, the digest or the signature. -/
theorem check_invalidLength_iff (k : Instance) (key digest signature : Bytes) :
    check k key digest signature = .error .invalidLength ↔
      key.length ≠ publicKeyLen ∨ digest.length ≠ messageLen ∨
        signature.length ≠ k.signatureLen := by
  by_cases hkey : key.length = publicKeyLen
  · obtain ⟨key, rfl⟩ : ∃ b : Block publicKeyLen, key = b.toList := ⟨⟨key, hkey⟩, rfl⟩
    by_cases hsig : signature.length = k.signatureLen
    · by_cases hdigest : digest.length = messageLen
      · obtain ⟨digest, rfl⟩ : ∃ b : Message, digest = b.toList := ⟨⟨digest, hdigest⟩, rfl⟩
        refine iff_of_false ?_ (by simp [hsig])
        cases k with
        | winternitz =>
          obtain ⟨sig, rfl⟩ : ∃ b : Block Winternitz.signatureLen, signature = b.toList :=
            ⟨⟨signature, hsig⟩, rfl⟩
          rw [check_winternitz, Message.fromSlice_toList, ok_bind]
          exact Winternitz.Signature.verify_ne_invalidLength _ _ digest
        | xmss =>
          obtain ⟨sig, rfl⟩ : ∃ b : Block Xmss.signatureLen, signature = b.toList :=
            ⟨⟨signature, hsig⟩, rfl⟩
          rw [check_xmss, Message.fromSlice_toList, ok_bind]
          exact Xmss.Signature.verify_ne_invalidLength _ _ digest
      · refine iff_of_true ?_ (Or.inr (Or.inl hdigest))
        have hrust : Message.fromSlice digest = .error .invalidLength := dif_neg hdigest
        unfold check
        rw [VerifyingKey.fromSlice_toList, ok_bind, hrust]
        rfl
    · exact iff_of_true (check_short hsig) (Or.inr (Or.inr hsig))
  · refine iff_of_true ?_ (Or.inl hkey)
    have hrust : VerifyingKey.fromSlice key = .error .invalidLength := dif_neg hkey
    unfold check
    rw [hrust]
    rfl

/-- What the two verifiers report of one signature. -/
inductive SameOutcome : Except Error Unit → Except Ts.CryptoError Unit → Prop where
  | accepted : SameOutcome (.ok ()) (.ok ())
  | invalidLength (text : String) :
    SameOutcome (.error .invalidLength) (.error ⟨.invalidLength, text⟩)
  | invalidSignature (text : String) :
    SameOutcome (.error .invalidSignature) (.error ⟨.invalidSignature, text⟩)

/--
**One of three outcomes, the same in both languages.** On all byte strings both accept, both report
a wrong length or both report an invalid signature. They report a wrong length iff the key, the
digest or the signature has one.
-/
theorem verifiers_same_outcome (k : Instance) (key digest signature : Bytes) :
    SameOutcome (check k key digest signature) (Ts.check k key digest signature) ∧
      (check k key digest signature = .error .invalidLength ↔
        key.length ≠ publicKeyLen ∨ digest.length ≠ messageLen ∨
          signature.length ≠ k.signatureLen) := by
  refine ⟨?_, check_invalidLength_iff k key digest signature⟩
  have hagree := check_agree k key digest signature
  rcases hrust : check k key digest signature with e | u
  · rcases hts : Ts.check k key digest signature with e' | u
    · obtain ⟨code, text⟩ := e'
      rw [hrust, hts] at hagree
      have hcode : code = e.code := Except.error.inj hagree
      subst hcode
      cases e with
      | invalidSignature => exact .invalidSignature text
      | invalidLength => exact .invalidLength text
    · rw [hrust, hts] at hagree
      cases hagree
  · rcases hts : Ts.check k key digest signature with e' | u'
    · rw [hrust, hts] at hagree
      cases hagree
    · exact .accepted

end SolanaWinternitz
