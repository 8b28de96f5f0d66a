import SolanaWinternitz.Properties.Encoding
import SolanaWinternitz.Properties.Tree
import SolanaWinternitz.Hazmat

/-!
# What `sign_at_with_salt` and `verify` compute

* `Winternitz.Signature.eval_verify`, `Xmss.Signature.eval_verify` — `verify` accepts iff the
  message encodes and the walks and the climb end in the node of the key
* `Winternitz.verify_signAtWithSalt`, `Xmss.verify_signAtWithSalt` — what `sign_at_with_salt`
  returns is accepted
* `LawfulOneTime` — what both instances have in common, for a key that `from_secrets` built
-/

namespace SolanaWinternitz

open Infra

/-! ## Public keys -/

theorem VerifyingKey.fromSlice_eq_ok {bs : Bytes} {key : VerifyingKey} :
    VerifyingKey.fromSlice bs = .ok key ↔ bs = key.bytes.toList := by
  unfold VerifyingKey.fromSlice
  constructor
  · intro h
    split at h
    · rw [← Except.ok.inj h]
      rfl
    · cases h
  · rintro rfl
    rw [dif_pos (List.Vector.toList_length key.bytes), mk_toList]

theorem VerifyingKey.new_toList (node : Element) (parameter : Parameter) :
    (VerifyingKey.new node parameter).bytes.toList = node.toList ++ parameter.toList := by
  have h1 : (copyInto (zeros publicKeyLen) 0 node.toList).toList
      = [] ++ (node.toList ++ List.replicate 18 0) :=
    copyInto_append (List.replicate 23 0) rfl rfl (by simp)
  have h2 : (VerifyingKey.new node parameter).bytes.toList
      = node.toList ++ (parameter.toList ++ []) :=
    copyInto_append (List.replicate 18 0) (by rw [h1]; simp) (by simp) (by simp)
  rw [h2, List.append_nil]

@[simp] theorem VerifyingKey.new_node (node : Element) (parameter : Parameter) :
    (VerifyingKey.new node parameter).node = node := by
  unfold VerifyingKey.node
  rw [VerifyingKey.new_toList]
  exact slice_zero_append node _

@[simp] theorem VerifyingKey.new_parameter (node : Element) (parameter : Parameter) :
    (VerifyingKey.new node parameter).parameter = parameter := by
  unfold VerifyingKey.parameter
  rw [VerifyingKey.new_toList]
  exact slice_append_last (by simp) parameter

/-! ## Signature bytes -/

namespace Winternitz

theorem verify_eq (key : VerifyingKey) (message : Message) (sig : Signature) :
    key.verify message sig = sig.verify key message :=
  VerifyingKey.verify_mk _ _ _ _ _ _ key message sig

theorem Signature.fromSlice_eq_ok {bs : Bytes} {sig : Signature} :
    Signature.fromSlice bs = .ok sig ↔ bs = sig.bytes.toList := by
  unfold Signature.fromSlice
  constructor
  · intro h
    split at h
    · rw [← Except.ok.inj h]
      rfl
    · cases h
  · rintro rfl
    rw [dif_pos (List.Vector.toList_length sig.bytes), mk_toList]

/-- The bytes of a signature: the salt, then the elements. -/
def signatureOf (salt : Salt) (elements : Block elementsLength) : Signature :=
  ⟨copyInto (copyInto (zeros signatureLen) 0 salt.toList) saltLength elements.toList⟩

theorem signatureOf_toList (salt : Salt) (elements : Block elementsLength) :
    (signatureOf salt elements).bytes.toList = salt.toList ++ elements.toList := by
  have h1 : (copyInto (zeros signatureLen) 0 salt.toList).toList
      = [] ++ (salt.toList ++ List.replicate elementsLength 0) :=
    copyInto_append (List.replicate saltLength 0)
      (by rw [zeros_toList, List.nil_append, ← List.replicate_add]) rfl (by simp)
  have h2 : (signatureOf salt elements).bytes.toList
      = salt.toList ++ (elements.toList ++ []) :=
    copyInto_append (List.replicate elementsLength 0)
      (by rw [h1, List.nil_append, List.append_nil]) (by simp) (by simp)
  rw [h2, List.append_nil]

@[simp] theorem signatureOf_salt (salt : Salt) (elements : Block elementsLength) :
    (signatureOf salt elements).salt = salt := by
  unfold Signature.salt
  rw [signatureOf_toList]
  exact slice_zero_append salt _

@[simp] theorem signatureOf_elements (salt : Salt) (elements : Block elementsLength) :
    (signatureOf salt elements).elements = elements := by
  unfold Signature.elements
  rw [signatureOf_toList]
  exact slice_append_last (by simp) elements

end Winternitz

namespace Xmss

theorem verify_eq (key : VerifyingKey) (message : Message) (sig : Signature) :
    key.verify message sig = sig.verify key message :=
  VerifyingKey.verify_mk _ _ _ _ _ _ key message sig

theorem Signature.fromSlice_eq_ok {bs : Bytes} {sig : Signature} :
    Signature.fromSlice bs = .ok sig ↔ bs = sig.bytes.toList := by
  unfold Signature.fromSlice
  constructor
  · intro h
    split at h
    · rw [← Except.ok.inj h]
      rfl
    · cases h
  · rintro rfl
    rw [dif_pos (List.Vector.toList_length sig.bytes), mk_toList]

/-- The bytes of a signature: the leaf, the salt, the elements and the path. -/
def signatureOf (leaf : UInt32) (salt : Salt) (elements : Block elementsLength)
    (path : Block (height * elementLength)) : Signature :=
  ⟨copyInto (copyInto (copyInto (copyInto (zeros signatureLen) 0 (u32Be leaf).toList) saltOffset
    salt.toList) elementsOffset elements.toList) pathOffset path.toList⟩

variable (leaf : UInt32) (salt : Salt) (elements : Block elementsLength)
  (path : Block (height * elementLength))

theorem signatureOf_toList :
    (signatureOf leaf salt elements path).bytes.toList
      = (u32Be leaf).toList ++ (salt.toList ++ (elements.toList ++ path.toList)) := by
  have h1 : (copyInto (zeros signatureLen) 0 (u32Be leaf).toList).toList
      = [] ++ ((u32Be leaf).toList ++ (List.replicate saltLength 0
        ++ (List.replicate elementsLength 0 ++ List.replicate (height * elementLength) 0))) :=
    copyInto_append (List.replicate 4 0)
      (by rw [zeros_toList, List.nil_append, ← List.replicate_add, ← List.replicate_add,
        ← List.replicate_add]; rfl) rfl (by simp)
  have h2 : (copyInto (copyInto (zeros signatureLen) 0 (u32Be leaf).toList) saltOffset
      salt.toList).toList
      = (u32Be leaf).toList ++ (salt.toList
        ++ (List.replicate elementsLength 0 ++ List.replicate (height * elementLength) 0)) :=
    copyInto_append (List.replicate saltLength 0) (by rw [h1, List.nil_append]) (by simp) (by simp)
  have h3 : (copyInto (copyInto (copyInto (zeros signatureLen) 0 (u32Be leaf).toList) saltOffset
      salt.toList) elementsOffset elements.toList).toList
      = ((u32Be leaf).toList ++ salt.toList) ++ (elements.toList
        ++ List.replicate (height * elementLength) 0) :=
    copyInto_append (List.replicate elementsLength 0) (by rw [h2, List.append_assoc]) (by simp)
      (by simp)
  have h4 : (signatureOf leaf salt elements path).bytes.toList
      = ((u32Be leaf).toList ++ salt.toList ++ elements.toList) ++ (path.toList ++ []) :=
    copyInto_append (List.replicate (height * elementLength) 0)
      (by rw [h3, List.append_nil, List.append_assoc _ elements.toList]) (by simp; rfl) (by simp)
  rw [h4, List.append_nil, List.append_assoc, List.append_assoc]

@[simp] theorem signatureOf_leaf : (signatureOf leaf salt elements path).leaf = leaf := by
  unfold Signature.leaf
  have hleaf := slice_zero_append (u32Be leaf) (salt.toList ++ (elements.toList ++ path.toList))
  rw [signatureOf_toList, hleaf, u32OfBe_u32Be]

@[simp] theorem signatureOf_salt : (signatureOf leaf salt elements path).salt = salt := by
  unfold Signature.salt
  rw [signatureOf_toList]
  exact slice_append (by simp) salt _

@[simp] theorem signatureOf_elements :
    (signatureOf leaf salt elements path).elements = elements := by
  unfold Signature.elements
  rw [signatureOf_toList, ← List.append_assoc]
  exact slice_append (by simp) elements _

@[simp] theorem signatureOf_path : (signatureOf leaf salt elements path).path = path := by
  unfold Signature.path
  rw [signatureOf_toList, ← List.append_assoc, ← List.append_assoc]
  exact slice_append_last (by simp; rfl) path

theorem lt_leaves {leaf : UInt32} (h : ¬ leaf ≥ UInt32.ofNat leaves) : leaf.toNat < leaves := by
  have hlt : leaf < UInt32.ofNat leaves := UInt32.not_le.mp h
  exact UInt32.lt_iff_toNat_lt.mp hlt

end Xmss

theorem Winternitz.SecretKey.of_fromSecrets {secrets : Bytes} {parameter : Parameter}
    {key : SecretKey} (h : fromSecrets secrets parameter = .ok key) :
    ∃ s : Block (leaves * elementsLength), secrets = s.toList ∧ key = ⟨s, parameter⟩ := by
  unfold fromSecrets at h
  split at h
  · next hlen => exact ⟨⟨secrets, hlen⟩, rfl, (Except.ok.inj h).symm⟩
  · cases h

variable [Keccak]

/-! ## Chains -/

/-- The chain ends that a verifier reaches from the elements of a signature. -/
def endsFrom (parameter : Parameter) (leaf : UInt32) (x : Block chains)
    (elements : Block elementsLength) : Elements :=
  fun i => walk (chainStep parameter leaf (UInt8.ofNat i)) (x.get i).toNat 15
    (chunk elementLength elements.toList i)

theorem eval_chainEnds (parameter : Parameter) (leaf : UInt32) (x : Block chains)
    (elements : Block elementsLength) :
    ((Chain.new parameter leaf).ends x elements).eval keccak256
      = endsFrom parameter leaf x elements :=
  Chain.eval_walkAll (Chain.holds_new parameter leaf) _ _ _

namespace Signing

/-- The elements of a signature with the digits `x`. -/
def elementsOf (secrets : Bytes) (parameter : Parameter) (leaf : UInt32) (x : Block chains) :
    Elements :=
  fun i => walk (chainStep parameter leaf (UInt8.ofNat i)) 0 (x.get i).toNat (start secrets leaf i)

theorem eval_sign (secrets : Bytes) (parameter : Parameter) (leaf : UInt32) (message : Message)
    (salt : Salt) :
    (sign secrets parameter leaf message salt).eval keccak256
      = ((encode salt parameter leaf message).eval keccak256).map fun x =>
          flatten (elementsOf secrets parameter leaf x) := by
  unfold sign
  rw [Oracle.eval_bind]
  cases hx : (encode salt parameter leaf message).eval keccak256 with
  | none => exact Oracle.eval_pure _ _
  | some x =>
    have hwalk : ((Chain.new parameter leaf).walkAll (fun _ => 0) x.get
        (start secrets leaf)).eval keccak256 = elementsOf secrets parameter leaf x :=
      Chain.eval_walkAll (Chain.holds_new parameter leaf) _ _ _
    simp only [Oracle.eval_bind, hwalk, Oracle.eval_pure, Option.map_some]

/-- **Walking the signed elements to the end gives the ends of the key.** -/
theorem endsFrom_elementsOf (secrets : Bytes) (parameter : Parameter) (leaf : UInt32)
    {x : Block chains} (hx : ∀ i, x.get i ≤ 15) :
    endsFrom parameter leaf x (flatten (elementsOf secrets parameter leaf x))
      = chainEnds secrets parameter leaf := by
  funext i
  unfold endsFrom
  rw [chunk_flatten]
  exact walk_trans _ (Nat.zero_le _) (UInt8.le_iff_toNat_le.mp (hx i)) _

end Signing

/-! ## Winternitz -/

namespace Winternitz

/-- The node that a verifier computes from a signature with the digits `x`. -/
def Signature.rootFrom (self : Signature) (parameter : Parameter) (x : Block chains) : Element :=
  leafOf parameter 0 (endsFrom parameter 0 x self.elements)

theorem Signature.eval_verify (self : Signature) (key : VerifyingKey) (message : Message) :
    (self.verify key message).eval keccak256
      = match (encode self.salt key.parameter 0 message).eval keccak256 with
        | none => .error .invalidSignature
        | some x => if self.rootFrom key.parameter x = key.node then .ok ()
          else .error .invalidSignature := by
  unfold Signature.verify
  rw [Oracle.eval_bind]
  cases hx : (encode self.salt key.parameter 0 message).eval keccak256 with
  | none => exact Oracle.eval_pure _ _
  | some x =>
    simp only [Oracle.eval_bind, eval_chainEnds, eval_leafHash,
      Oracle.eval_pure]
    rfl

theorem SecretKey.eval_verifyingKey (self : SecretKey) :
    self.verifyingKey.eval keccak256
      = VerifyingKey.new (leafOf self.parameter 0
          (Signing.chainEnds self.secrets.toList self.parameter 0)) self.parameter := by
  simp [SecretKey.verifyingKey, Signing.eval_ends]

/-- **`sign_at_with_salt` succeeds iff the leaf is zero and the message encodes.** -/
theorem SecretKey.eval_signAtWithSalt (self : SecretKey) (leaf : UInt32) (message : Message)
    (salt : Salt) :
    (self.signAtWithSalt leaf message salt).eval keccak256
      = if leaf ≠ 0 then none
        else ((encode salt self.parameter 0 message).eval keccak256).map fun x =>
          signatureOf salt
            (flatten (Signing.elementsOf self.secrets.toList self.parameter 0 x)) := by
  unfold SecretKey.signAtWithSalt
  by_cases hleaf : leaf ≠ 0
  · rw [if_pos hleaf, if_pos hleaf, Oracle.eval_pure]
  · rw [if_neg hleaf, if_neg hleaf, Oracle.eval_bind, Signing.eval_sign]
    cases (encode salt self.parameter 0 message).eval keccak256 with
    | none => exact Oracle.eval_pure _ _
    | some x => exact Oracle.eval_pure _ _

/-- The fields of a signature. -/
theorem of_signAtWithSalt {key : SecretKey} {leaf : UInt32} {message : Message} {salt : Salt}
    {sig : Signature} (h : (key.signAtWithSalt leaf message salt).eval keccak256 = some sig) :
    leaf = 0 ∧ ∃ x, (encode salt key.parameter 0 message).eval keccak256 = some x ∧
      sig.salt = salt ∧
      sig.elements = flatten (Signing.elementsOf key.secrets.toList key.parameter 0 x) := by
  rw [SecretKey.eval_signAtWithSalt] at h
  by_cases hleaf : leaf = 0
  · rw [if_neg (not_not_intro hleaf)] at h
    obtain ⟨x, hx, rfl⟩ := Option.map_eq_some_iff.mp h
    exact ⟨hleaf, x, hx, signatureOf_salt _ _, signatureOf_elements _ _⟩
  · rw [if_pos hleaf] at h
    cases h

/-- **A signature is accepted under the key that made it.** -/
theorem verify_signAtWithSalt {key : SecretKey} {leaf : UInt32} {message : Message} {salt : Salt}
    {sig : Signature} (h : (key.signAtWithSalt leaf message salt).eval keccak256 = some sig) :
    (sig.verify (key.verifyingKey.eval keccak256) message).eval keccak256 = .ok () := by
  obtain ⟨-, x, hx, hsalt, helements⟩ := of_signAtWithSalt h
  rw [Signature.eval_verify, SecretKey.eval_verifyingKey, VerifyingKey.new_parameter, hsalt, hx]
  simp only [Signature.rootFrom, helements, VerifyingKey.new_node,
    Signing.endsFrom_elementsOf _ _ _ (digit_le_of_encode hx), if_true]

end Winternitz

/-! ## XMSS -/

namespace Xmss

/-- The node that a verifier computes from a signature with the digits `x`. -/
def Signature.rootFrom (self : Signature) (parameter : Parameter) (x : Block chains) : Element :=
  climb (makeNode parameter) self.leaf.toNat
    (fun l => chunk elementLength self.path.toList l) height
    (leafOf parameter self.leaf (endsFrom parameter self.leaf x self.elements))

theorem Signature.eval_verify (self : Signature) (key : VerifyingKey) (message : Message) :
    (self.verify key message).eval keccak256
      = if self.leaf ≥ UInt32.ofNat leaves then .error .invalidSignature
        else match (encode self.salt key.parameter self.leaf message).eval keccak256 with
        | none => .error .invalidSignature
        | some x => if self.rootFrom key.parameter x = key.node then .ok ()
          else .error .invalidSignature := by
  unfold Signature.verify
  by_cases hleaf : self.leaf ≥ UInt32.ofNat leaves
  · rw [if_pos hleaf, if_pos hleaf, Oracle.eval_pure]
  · rw [if_neg hleaf, if_neg hleaf, Oracle.eval_bind]
    cases hx : (encode self.salt key.parameter self.leaf message).eval keccak256 with
    | none => exact Oracle.eval_pure _ _
    | some x =>
      simp only [Oracle.eval_bind, eval_chainEnds, eval_leafHash,
        Oracle.eval_foldlM, climb_loop self key.parameter self.leaf _ height (le_refl _),
        Oracle.eval_pure]
      rfl

/-- An accepted signature names a leaf of the tree. -/
theorem leaf_lt_of_verify {key : VerifyingKey} {message : Message} {sig : Signature}
    (h : (key.verify message sig).eval keccak256 = .ok ()) :
    (SealedSignature.leaf sig).toNat < leaves := by
  rw [verify_eq, Signature.eval_verify] at h
  by_cases hleaf : sig.leaf ≥ UInt32.ofNat leaves
  · rw [if_pos hleaf] at h
    cases h
  · exact lt_leaves hleaf

/-- **`sign_at_with_salt` succeeds iff the leaf is in range and the message encodes.** -/
theorem SecretKey.eval_signAtWithSalt (self : SecretKey) (leaf : UInt32) (message : Message)
    (salt : Salt) :
    (self.signAtWithSalt leaf message salt).eval keccak256
      = if leaf ≥ UInt32.ofNat leaves then none
        else ((encode salt self.parameter leaf message).eval keccak256).map fun x =>
          signatureOf leaf salt
            (flatten (Signing.elementsOf self.secrets.toList self.parameter leaf x))
            (self.path leaf) := by
  unfold SecretKey.signAtWithSalt
  by_cases hleaf : leaf ≥ UInt32.ofNat leaves
  · rw [if_pos hleaf, if_pos hleaf, Oracle.eval_pure]
  · rw [if_neg hleaf, if_neg hleaf, Oracle.eval_bind, Signing.eval_sign]
    cases (encode salt self.parameter leaf message).eval keccak256 with
    | none => exact Oracle.eval_pure _ _
    | some x => exact Oracle.eval_pure _ _

/-- The path of the key leads from a leaf to the root. -/
theorem climb_path (secrets : Block (leaves * elementsLength)) (parameter : Parameter)
    {leaf : UInt32} (hleaf : leaf.toNat < leaves) :
    climb (makeNode parameter) leaf.toNat
        (fun l => chunk elementLength ((builtKey secrets parameter).path leaf).toList l) height
        (leafNode secrets.toList parameter leaf.toNat)
      = treeNode secrets.toList parameter height 0 := by
  have hclimb := climb_merkle (makeNode parameter) (leafNode secrets.toList parameter) leaf.toNat
    (fun l => chunk elementLength ((builtKey secrets parameter).path leaf).toList l) height
    (fun l hl => path_chunk secrets parameter hleaf hl)
  have hzero : leaf.toNat / 2 ^ height = 0 := Nat.div_eq_of_lt hleaf
  rw [hclimb, hzero, treeNode]

/-- The fields of a signature. -/
theorem of_signAtWithSalt {key : SecretKey} {leaf : UInt32} {message : Message} {salt : Salt}
    {sig : Signature} (h : (key.signAtWithSalt leaf message salt).eval keccak256 = some sig) :
    ¬ leaf ≥ UInt32.ofNat leaves ∧
      ∃ x, (encode salt key.parameter leaf message).eval keccak256 = some x ∧
        sig.leaf = leaf ∧ sig.salt = salt ∧
        sig.elements = flatten (Signing.elementsOf key.secrets.toList key.parameter leaf x) ∧
        sig.path = key.path leaf := by
  rw [SecretKey.eval_signAtWithSalt] at h
  split at h
  · cases h
  · next hleaf =>
    obtain ⟨x, hx, rfl⟩ := Option.map_eq_some_iff.mp h
    exact ⟨hleaf, x, hx, signatureOf_leaf _ _ _ _, signatureOf_salt _ _ _ _,
      signatureOf_elements _ _ _ _, signatureOf_path _ _ _ _⟩

theorem leafOf_chainEnds (secrets : Bytes) (parameter : Parameter) (leaf : UInt32) :
    leafOf parameter leaf (Signing.chainEnds secrets parameter leaf)
      = leafNode secrets parameter leaf.toNat := by
  rw [leafNode, UInt32.ofNat_toNat]

/-- **A signature is accepted under the key that made it.** -/
theorem verify_signAtWithSalt {secrets : Block (leaves * elementsLength)} {parameter : Parameter}
    {leaf : UInt32} {message : Message} {salt : Salt} {sig : Signature}
    (h : ((builtKey secrets parameter).signAtWithSalt leaf message salt).eval keccak256
      = some sig) :
    (sig.verify (builtKey secrets parameter).verifyingKey message).eval keccak256 = .ok () := by
  obtain ⟨hlt, x, hx, hleaf, hsalt, helements, hpath⟩ := of_signAtWithSalt h
  rw [builtKey_parameter] at hx helements
  rw [builtKey_secrets] at helements
  have hroot : sig.rootFrom parameter x = treeNode secrets.toList parameter height 0 := by
    unfold Signature.rootFrom
    rw [hleaf, helements, hpath, Signing.endsFrom_elementsOf _ _ _ (digit_le_of_encode hx),
      leafOf_chainEnds]
    exact climb_path secrets parameter (lt_leaves hlt)
  rw [Signature.eval_verify, hleaf, if_neg hlt, verifyingKey_builtKey, VerifyingKey.new_parameter,
    VerifyingKey.new_node, hsalt, hx]
  simp only [hroot, if_true]

end Xmss

/-! ## Both instances -/

/-- The key is what `from_secrets` builds. -/
def Builds {K : Type} [OneTime K] (secrets : Bytes) (parameter : Parameter) (key : K) : Prop :=
  (OneTime.fromSecrets secrets parameter).eval keccak256 = .ok key

/-- The contract of an instance, for the keys that `from_secrets` builds. -/
class LawfulOneTime (K : Type) [OneTime K] : Prop where
  leaves_pos : 0 < (OneTime.leaves K).toNat
  exists_builds (secrets : Bytes) (parameter : Parameter)
    (h : secrets.length = (OneTime.leaves K).toNat * elementsLength) :
    ∃ key : K, Builds secrets parameter key
  of_builds {secrets : Bytes} {parameter : Parameter} {key : K} (h : Builds secrets parameter key) :
    secrets.length = (OneTime.leaves K).toNat * elementsLength ∧ OneTime.secrets key = secrets ∧
      ((OneTime.verifyingKey key).eval keccak256).parameter = parameter
  sign_isSome {secrets : Bytes} {parameter : Parameter} {key : K}
    (h : Builds secrets parameter key) (leaf : UInt32) (message : Message) (salt : Salt) :
    ((OneTime.signAtWithSalt key leaf message salt).eval keccak256).isSome ↔
      leaf < OneTime.leaves K ∧ ((encode salt parameter leaf message).eval keccak256).isSome
  of_sign {secrets : Bytes} {parameter : Parameter} {key : K}
    (h : Builds secrets parameter key) {leaf : UInt32} {message : Message}
    {salt : Salt} {sig : OneTime.Signature K}
    (hsig : (OneTime.signAtWithSalt key leaf message salt).eval keccak256 = some sig) :
    (((OneTime.verifyingKey key).eval keccak256).verify message sig).eval keccak256 = .ok () ∧
      SealedSignature.leaf sig = leaf ∧ SealedSignature.salt sig = salt

theorem Winternitz.builds_iff {secrets : Bytes} {parameter : Parameter} {key : SecretKey} :
    Builds secrets parameter key ↔ SecretKey.fromSecrets secrets parameter = .ok key := by
  unfold Builds
  rw [← Oracle.eval_pure keccak256 (SecretKey.fromSecrets secrets parameter)]
  exact Iff.rfl

/-- Every one-leaf key is built from its secrets. -/
theorem Winternitz.builds (key : SecretKey) : Builds key.secrets.toList key.parameter key := by
  have hlen : key.secrets.toList.length = leaves * elementsLength := List.Vector.toList_length _
  refine builds_iff.mpr ((dif_pos hlen).trans ?_)
  rw [mk_toList key.secrets hlen]

instance : LawfulOneTime Winternitz.SecretKey where
  leaves_pos := Nat.one_pos
  exists_builds secrets parameter h :=
    ⟨⟨⟨secrets, h⟩, parameter⟩, Winternitz.builds_iff.mpr (dif_pos h)⟩
  of_builds {secrets parameter key} h := by
    obtain ⟨s, rfl, rfl⟩ := Winternitz.SecretKey.of_fromSecrets (Winternitz.builds_iff.mp h)
    refine ⟨List.Vector.toList_length s, rfl, ?_⟩
    show (Oracle.eval keccak256 (Winternitz.SecretKey.verifyingKey _)).parameter = _
    rw [Winternitz.SecretKey.eval_verifyingKey, VerifyingKey.new_parameter]
  sign_isSome {secrets parameter key} h leaf message salt := by
    obtain ⟨s, rfl, rfl⟩ := Winternitz.SecretKey.of_fromSecrets (Winternitz.builds_iff.mp h)
    show (Oracle.eval keccak256 (Winternitz.SecretKey.signAtWithSalt _ _ _ _)).isSome ↔
      leaf < 1 ∧ _
    rw [Winternitz.SecretKey.eval_signAtWithSalt]
    by_cases hleaf : leaf = 0
    · subst hleaf
      simp
    · have hlt : ¬ leaf < 1 := fun hlt => hleaf (UInt32.toNat_inj.mp (Nat.lt_one_iff.mp hlt))
      simp [hleaf, hlt]
  of_sign {secrets parameter key} h leaf message salt sig hsig := by
    change Oracle.eval keccak256 (Winternitz.SecretKey.signAtWithSalt _ _ _ _) = _ at hsig
    show Oracle.eval keccak256 (VerifyingKey.verify
      (Oracle.eval keccak256 (Winternitz.SecretKey.verifyingKey _)) message sig) = _ ∧ _
    rw [Winternitz.verify_eq]
    obtain ⟨hleaf, -, -, hsalt, -⟩ := Winternitz.of_signAtWithSalt hsig
    exact ⟨Winternitz.verify_signAtWithSalt hsig, hleaf.symm, hsalt⟩

theorem Xmss.SecretKey.of_fromSecrets {secrets : Bytes} {parameter : Parameter}
    {key : SecretKey} (h : (fromSecrets secrets parameter).eval keccak256 = .ok key) :
    ∃ s : Block (leaves * elementsLength), secrets = s.toList ∧ key = builtKey s parameter := by
  by_cases hlen : secrets.length = leaves * elementsLength
  · refine ⟨⟨secrets, hlen⟩, rfl, ?_⟩
    have hbuilt := eval_fromSecrets ⟨secrets, hlen⟩ parameter
    rw [List.Vector.toList_mk, h] at hbuilt
    exact Except.ok.inj hbuilt
  · unfold fromSecrets at h
    rw [dif_neg hlen, Oracle.eval_pure] at h
    cases h

theorem Xmss.eval_verifyingKey (key : SecretKey) :
    (OneTime.verifyingKey key).eval keccak256 = key.verifyingKey := Oracle.eval_pure _ _

instance : LawfulOneTime Xmss.SecretKey where
  leaves_pos := by decide
  exists_builds secrets parameter h := by
    have hbuilt := Xmss.eval_fromSecrets ⟨secrets, h⟩ parameter
    rw [List.Vector.toList_mk] at hbuilt
    exact ⟨_, hbuilt⟩
  of_builds {secrets parameter key} h := by
    obtain ⟨s, rfl, rfl⟩ := Xmss.SecretKey.of_fromSecrets h
    refine ⟨List.Vector.toList_length s, ?_, ?_⟩
    · show (Xmss.builtKey s parameter).secrets.toList = _
      rw [Xmss.builtKey_secrets]
    · rw [Xmss.eval_verifyingKey, Xmss.verifyingKey_builtKey, VerifyingKey.new_parameter]
  sign_isSome {secrets parameter key} h leaf message salt := by
    obtain ⟨s, rfl, rfl⟩ := Xmss.SecretKey.of_fromSecrets h
    show (Oracle.eval keccak256 (Xmss.SecretKey.signAtWithSalt _ _ _ _)).isSome ↔
      leaf < UInt32.ofNat Xmss.leaves ∧ _
    rw [Xmss.SecretKey.eval_signAtWithSalt, Xmss.builtKey_parameter]
    by_cases hleaf : leaf ≥ UInt32.ofNat Xmss.leaves
    · rw [if_pos hleaf]
      simp [UInt32.not_lt.mpr hleaf]
    · rw [if_neg hleaf]
      simp [UInt32.not_le.mp hleaf]
  of_sign {secrets parameter key} h leaf message salt sig hsig := by
    obtain ⟨s, rfl, rfl⟩ := Xmss.SecretKey.of_fromSecrets h
    change Oracle.eval keccak256 (Xmss.SecretKey.signAtWithSalt _ _ _ _) = _ at hsig
    rw [Xmss.eval_verifyingKey]
    show Oracle.eval keccak256 (VerifyingKey.verify
      (Xmss.SecretKey.verifyingKey _) message sig) = _ ∧ _
    rw [Xmss.verify_eq]
    obtain ⟨-, -, -, hleaf, hsalt, -⟩ := Xmss.of_signAtWithSalt hsig
    exact ⟨Xmss.verify_signAtWithSalt hsig, hleaf, hsalt⟩

instance : (k : Instance) → LawfulOneTime k.SecretKey
  | .winternitz => inferInstanceAs (LawfulOneTime Winternitz.SecretKey)
  | .xmss => inferInstanceAs (LawfulOneTime Xmss.SecretKey)

end SolanaWinternitz
