import SolanaWinternitz.Properties.HashInputs

/-!
# Every forgery breaks the hash

A signature that an honest key accepts at a leaf where it has signed is the honest signature, or it
shows a collision of the hash, or it shows a preimage of a published chain element (`forgery`).

The argument goes down the verifier's computation. The climb ends in the root, so it is the path of
the tree or two different pairs of children make one node (`climb_binding`). The leaves agree, so
the ends agree or collide. Two codewords of equal sum are incomparable (`exists_digit_lt`), so some
chain of the forgery starts at or below the honest element, and the two walks merge or collide
(`walk_merge`).
-/

namespace SolanaWinternitz

open Infra

/-! ## Tweaks -/

/-- The tweak of a chain step or of a node; the nodes of level 0 are the leaves. -/
inductive Tweak where
  | chain (leaf : UInt32) (i k : UInt8)
  | tree (level : UInt8) (index : UInt32)
deriving DecidableEq

def Tweak.toBytes : Tweak → Bytes
  | .chain leaf i k => roleChain :: ((u32Be leaf).toList ++ [i, k])
  | .tree level index => roleTree :: level :: (u32Be index).toList

def tweakedInput (parameter : Parameter) (tweak : Tweak) (payload : Bytes) : Bytes :=
  parameter.toList ++ (tweak.toBytes ++ payload)

theorem tweakedInput_chain (parameter : Parameter) (leaf : UInt32) (i k : UInt8) (v : Element) :
    tweakedInput parameter (.chain leaf i k) v.toList = chainInput parameter leaf i k v := by
  simp [tweakedInput, Tweak.toBytes, chainInput]

theorem tweakedInput_tree (parameter : Parameter) (level : UInt8) (index : UInt32)
    (payload : Bytes) :
    tweakedInput parameter (.tree level index) payload
      = treeInput parameter level index payload := by
  simp [tweakedInput, Tweak.toBytes, treeInput]

/-! ## Signatures and messages are their fields -/

theorem Winternitz.Signature.toList_eq (self : Signature) :
    self.bytes.toList = self.salt.toList ++ self.elements.toList := by
  have hlen : self.bytes.toList.length = signatureLen := List.Vector.toList_length _
  have h1 := slice_append_drop self.bytes.toList 0 saltLength (by rw [hlen]; decide)
  have h2 := slice_append_drop self.bytes.toList saltLength elementsLength (by rw [hlen])
  rw [Nat.zero_add] at h1
  rw [List.drop_eq_nil_of_le (le_of_eq hlen), List.append_nil] at h2
  exact (h1.trans List.drop_zero).symm.trans (congrArg _ h2.symm)

theorem Winternitz.Signature.eq_of_fields {sig sig' : Signature} (hsalt : sig'.salt = sig.salt)
    (helements : sig'.elements = sig.elements) : sig' = sig := by
  have hbytes : sig'.bytes = sig.bytes := by
    refine List.Vector.eq _ _ ?_
    rw [toList_eq, toList_eq, hsalt, helements]
  cases sig
  cases sig'
  exact congrArg Signature.mk hbytes

theorem Xmss.Signature.toList_eq (self : Signature) :
    self.bytes.toList = (u32Be self.leaf).toList
      ++ (self.salt.toList ++ (self.elements.toList ++ self.path.toList)) := by
  have hlen : self.bytes.toList.length = signatureLen := List.Vector.toList_length _
  have h1 := slice_append_drop self.bytes.toList 0 saltOffset (by rw [hlen]; decide)
  have h2 := slice_append_drop self.bytes.toList saltOffset saltLength (by rw [hlen]; decide)
  have h3 := slice_append_drop self.bytes.toList elementsOffset elementsLength
    (by rw [hlen]; decide)
  have h4 := slice_append_drop self.bytes.toList pathOffset (height * elementLength)
    (by rw [hlen])
  rw [Nat.zero_add] at h1
  rw [List.drop_eq_nil_of_le (le_of_eq hlen), List.append_nil] at h4
  show _ = (u32Be (u32OfBe (slice self.bytes.toList 0 saltOffset))).toList ++ _
  rw [u32Be_u32OfBe]
  calc self.bytes.toList = _ := (h1.trans List.drop_zero).symm
    _ = _ := congrArg _ h2.symm
    _ = _ := congrArg _ (congrArg _ (h3.symm.trans (congrArg _ h4.symm)))

theorem Xmss.Signature.eq_of_fields {sig sig' : Signature} (hleaf : sig'.leaf = sig.leaf)
    (hsalt : sig'.salt = sig.salt) (helements : sig'.elements = sig.elements)
    (hpath : sig'.path = sig.path) : sig' = sig := by
  have hbytes : sig'.bytes = sig.bytes := by
    refine List.Vector.eq _ _ ?_
    rw [toList_eq, toList_eq, hleaf, hsalt, helements, hpath]
  cases sig
  cases sig'
  exact congrArg Signature.mk hbytes

/-- The path of a signature is determined by its chunks. -/
theorem Xmss.path_eq_of_chunk {p q : Block (Xmss.height * elementLength)}
    (h : ∀ l < Xmss.height, chunk elementLength p.toList l = chunk elementLength q.toList l) :
    p = q := by
  rw [← flatten_chunk p, ← flatten_chunk q]
  exact congrArg flatten (funext fun l => h l l.isLt)

theorem messageInput_inj {salt salt' : Salt} {parameter : Parameter} {leaf : UInt32}
    {message message' : Message}
    (h : messageInput salt parameter leaf message = messageInput salt' parameter leaf message') :
    salt = salt' ∧ message = message' := by
  obtain ⟨hsalt, hrest⟩ := toList_append_inj h
  exact ⟨hsalt, List.Vector.eq _ _ (List.append_cancel_left (List.append_cancel_left hrest))⟩

section Break

variable [Keccak]

/--
Two different payloads under one tweak, one of them in `generated` and the other in `verified`,
with hashes that agree on their first 23 bytes.
-/
def Collision (parameter : Parameter) (generated verified : List Bytes) : Prop :=
  ∃ tweak payload payload', payload ≠ payload' ∧ tweakedInput parameter tweak payload ∈ generated ∧
    tweakedInput parameter tweak payload' ∈ verified ∧
    (keccak256 (tweakedInput parameter tweak payload)).toList.take elementLength
      = (keccak256 (tweakedInput parameter tweak payload')).toList.take elementLength

theorem take_of_truncatedHash {a b : Bytes} (h : truncatedHash a = truncatedHash b) :
    (keccak256 a).toList.take elementLength = (keccak256 b).toList.take elementLength := by
  have hle : ∀ d : Block hashLength, elementLength ≤ d.toList.length := fun d => by simp; decide
  rw [← fit_toList (hle _), ← fit_toList (hle _)]
  exact congrArg List.Vector.toList h

section Binding

variable {secrets : Bytes} {parameter : Parameter} {leaf : UInt32} {x x' : Block chains}
  {elements : Block elementsLength} {generated verified : List Bytes}

/-- Two inputs of one chain step. -/
theorem collision_chain {i : Fin chains} {k : Nat} {v v' : Element} (hne : v ≠ v')
    (hg : chainInput parameter leaf (UInt8.ofNat i) (UInt8.ofNat (k + 1)) v ∈ generated)
    (hv : chainInput parameter leaf (UInt8.ofNat i) (UInt8.ofNat (k + 1)) v' ∈ verified)
    (hstep : chainStep parameter leaf (UInt8.ofNat i) (k + 1) v
      = chainStep parameter leaf (UInt8.ofNat i) (k + 1) v') :
    Collision parameter generated verified := by
  refine ⟨.chain leaf (UInt8.ofNat i) (UInt8.ofNat (k + 1)), v.toList, v'.toList,
    fun h => hne (List.Vector.eq _ _ h), ?_, ?_, ?_⟩
  · rwa [tweakedInput_chain]
  · rwa [tweakedInput_chain]
  · rw [tweakedInput_chain, tweakedInput_chain]
    exact take_of_truncatedHash hstep

/-- Two inputs of one leaf or node. -/
theorem collision_tree {level : UInt8} {index : UInt32} {payload payload' : Bytes}
    (hne : payload ≠ payload') (hg : treeInput parameter level index payload ∈ generated)
    (hv : treeInput parameter level index payload' ∈ verified)
    (hnode : truncatedHash (treeInput parameter level index payload)
      = truncatedHash (treeInput parameter level index payload')) :
    Collision parameter generated verified := by
  refine ⟨.tree level index, payload, payload', hne, ?_, ?_, ?_⟩
  · rwa [tweakedInput_tree]
  · rwa [tweakedInput_tree]
  · rw [tweakedInput_tree, tweakedInput_tree]
    exact take_of_truncatedHash hnode

/--
A chain of the signature and the chain of the key that end in one value have one value at every
position from the signature's digit on, or collide.
-/
theorem chain_merge (hg : generatedChains secrets parameter leaf ⊆ generated)
    (hv : verifiedChains parameter leaf x' elements ⊆ verified) {i : Fin chains} {a : Nat}
    (hxa : (x'.get i).toNat ≤ a) (ha : a ≤ 15)
    (hend : endsFrom parameter leaf x' elements i = Signing.chainEnds secrets parameter leaf i) :
    walk (chainStep parameter leaf (UInt8.ofNat i)) (x'.get i).toNat a
        (chunk elementLength elements.toList i)
      = walk (chainStep parameter leaf (UInt8.ofNat i)) 0 a (Signing.start secrets leaf i) ∨
    Collision parameter generated verified := by
  unfold endsFrom Signing.chainEnds at hend
  rw [← walk_trans _ hxa ha, ← walk_trans _ (Nat.zero_le a) ha] at hend
  rcases walk_merge _ ha hend with heq | ⟨k, hak, hk, hne, hstep⟩
  · exact Or.inl heq
  · rw [walk_trans _ hxa hak, walk_trans _ (Nat.zero_le a) hak] at hne hstep
    exact Or.inr (collision_chain hne.symm
      (hg (mem_generatedChains secrets parameter leaf i hk))
      (hv (mem_verifiedChains parameter leaf x' elements i (by omega) hk)) hstep.symm)

/--
**The chains bind.** If a signature's leaf is the key's leaf, then its codeword and its elements are
the honest ones, or there is a collision, or some chain starts below the honest element and walks
into it.
-/
theorem chains_binding (hx : ∀ i, x.get i ≤ 15)
    (hlt : x' ≠ x → ∃ i, x'.get i < x.get i)
    (hg : generatedChains secrets parameter leaf
      ++ [treeInput parameter 0 leaf (flatten (Signing.chainEnds secrets parameter leaf)).toList]
      ⊆ generated)
    (hv : verifiedChains parameter leaf x' elements
      ++ [treeInput parameter 0 leaf (flatten (endsFrom parameter leaf x' elements)).toList]
      ⊆ verified)
    (hleaf : leafOf parameter leaf (endsFrom parameter leaf x' elements)
      = leafOf parameter leaf (Signing.chainEnds secrets parameter leaf)) :
    (x' = x ∧ elements = flatten (Signing.elementsOf secrets parameter leaf x)) ∨
      Collision parameter generated verified ∨
      ∃ i, x'.get i < x.get i ∧
        walk (chainStep parameter leaf (UInt8.ofNat i)) (x'.get i).toNat (x.get i).toNat
            (chunk elementLength elements.toList i)
          = Signing.elementsOf secrets parameter leaf x i := by
  obtain ⟨hgc, hgl⟩ := List.append_subset.mp hg
  obtain ⟨hvc, hvl⟩ := List.append_subset.mp hv
  by_cases hcol : Collision parameter generated verified
  · exact Or.inr (Or.inl hcol)
  have hends : endsFrom parameter leaf x' elements = Signing.chainEnds secrets parameter leaf := by
    by_contra hne
    refine hcol (collision_tree (fun h => hne ?_) (hgl List.mem_cons_self) (hvl List.mem_cons_self)
      hleaf.symm)
    exact (flattenList_injective h).symm
  have hmerge : ∀ i, x'.get i ≤ x.get i →
      walk (chainStep parameter leaf (UInt8.ofNat i)) (x'.get i).toNat (x.get i).toNat
          (chunk elementLength elements.toList i)
        = Signing.elementsOf secrets parameter leaf x i := fun i hi =>
    (chain_merge hgc hvc (UInt8.le_iff_toNat_le.mp hi) (UInt8.le_iff_toNat_le.mp (hx i))
      (congrFun hends i)).resolve_right hcol
  by_cases hxx : x' = x
  · refine Or.inl ⟨hxx, ?_⟩
    rw [← flatten_chunk elements]
    congr 1
    funext i
    have hi := hmerge i (by rw [hxx]; exact UInt8.le_refl _)
    rwa [hxx, walk_self] at hi
  · obtain ⟨i, hi⟩ := hlt hxx
    exact Or.inr (Or.inr ⟨i, hi, hmerge i (UInt8.le_of_lt hi)⟩)

end Binding

/-- Equal codewords: one salted message, or two whose hashes agree on their first 18 bytes. -/
theorem messageInput_collision {salt salt' : Salt} {parameter : Parameter} {leaf : UInt32}
    {message message' : Message}
    (h : codeword salt' parameter leaf message' = codeword salt parameter leaf message) :
    (salt' = salt ∧ message' = message) ∨
      (messageInput salt' parameter leaf message' ≠ messageInput salt parameter leaf message ∧
        (keccak256 (messageInput salt' parameter leaf message')).toList.take 18
          = (keccak256 (messageInput salt parameter leaf message)).toList.take 18) := by
  by_cases heq : messageInput salt' parameter leaf message'
      = messageInput salt parameter leaf message
  · exact Or.inl (messageInput_inj heq)
  · exact Or.inr ⟨heq, digits_eq_iff.mp h⟩

/-! ## The forgery theorem -/

/-- What two signatures at one leaf of one key show about the hash. -/
def Break {S : Type} [SealedSignature S] (parameter : Parameter) (leaf : UInt32)
    (generated verified : List Bytes) (message : Message) (sig : S) (x : Block chains)
    (message' : Message) (sig' : S) (x' : Block chains) : Prop :=
  (x' = x ∧ SealedSignature.elements sig' = SealedSignature.elements sig ∧
      SealedSignature.path sig' = SealedSignature.path sig ∧
      ((sig' = sig ∧ message' = message) ∨
        (messageInput (SealedSignature.salt sig') parameter leaf message'
            ≠ messageInput (SealedSignature.salt sig) parameter leaf message ∧
          (keccak256 (messageInput (SealedSignature.salt sig') parameter leaf
                message')).toList.take 18
            = (keccak256 (messageInput (SealedSignature.salt sig) parameter leaf
                message)).toList.take 18))) ∨
    Collision parameter generated verified ∨
    ∃ i : Fin chains, x'.get i < x.get i ∧
      (((Chain.new parameter leaf).walk (UInt8.ofNat i) (x'.get i) (x.get i)
          (chunk elementLength (SealedSignature.elements sig').toList i)).eval keccak256).1
        = chunk elementLength (SealedSignature.elements sig).toList i

/-- The walk of the code from the digit of one signature to that of the other. -/
theorem eval_walk_new (parameter : Parameter) (leaf : UInt32) (i : Fin chains) (a b : UInt8)
    (v : Element) :
    (((Chain.new parameter leaf).walk (UInt8.ofNat i) a b v).eval keccak256).1
      = walk (chainStep parameter leaf (UInt8.ofNat i)) a.toNat b.toNat v := by
  obtain ⟨_, _, _, heval, _⟩ :=
    Chain.eval_walk (Chain.holds_new parameter leaf) (UInt8.ofNat i) a b v
  rw [heval]

/-- The outcome of `chains_binding`, for two signatures with one path. -/
theorem break_of_binding {S : Type} [SealedSignature S] {secrets : Bytes} {parameter : Parameter}
    {leaf : UInt32} {generated verified : List Bytes} {message message' : Message} {sig sig' : S}
    {x x' : Block chains}
    (hx : (encode (SealedSignature.salt sig) parameter leaf message).eval keccak256 = some x)
    (hx' : (encode (SealedSignature.salt sig') parameter leaf message').eval keccak256 = some x')
    (helements : SealedSignature.elements sig
      = flatten (Signing.elementsOf secrets parameter leaf x))
    (hpath : SealedSignature.path sig' = SealedSignature.path sig)
    (hext : SealedSignature.salt sig' = SealedSignature.salt sig →
      SealedSignature.elements sig' = SealedSignature.elements sig → sig' = sig)
    (h : (x' = x ∧ SealedSignature.elements sig'
          = flatten (Signing.elementsOf secrets parameter leaf x)) ∨
      Collision parameter generated verified ∨
      ∃ i, x'.get i < x.get i ∧
        walk (chainStep parameter leaf (UInt8.ofNat i)) (x'.get i).toNat (x.get i).toNat
            (chunk elementLength (SealedSignature.elements sig').toList i)
          = Signing.elementsOf secrets parameter leaf x i) :
    Break parameter leaf generated verified message sig x message' sig' x' := by
  rcases h with ⟨hxx, he⟩ | hcol | ⟨i, hi, hw⟩
  · have he' := he.trans helements.symm
    have hcode := (eq_codeword_of_encode hx').1.symm.trans (hxx.trans (eq_codeword_of_encode hx).1)
    refine Or.inl ⟨hxx, he', hpath, ?_⟩
    rcases messageInput_collision hcode with ⟨hsalt, hmessage⟩ | hcol
    · exact Or.inl ⟨hext hsalt he', hmessage⟩
    · exact Or.inr hcol
  · exact Or.inr (Or.inl hcol)
  · refine Or.inr (Or.inr ⟨i, hi, ?_⟩)
    rw [eval_walk_new parameter leaf i, hw, helements, chunk_flatten]

theorem Winternitz.break_of_forgery {key : SecretKey} {leaf : UInt32} {message message' : Message}
    {salt : Salt} {sig sig' : Signature}
    (hsig : (key.signAtWithSalt leaf message salt).eval keccak256 = some sig)
    (hverify : (sig'.verify (key.verifyingKey.eval keccak256) message').eval keccak256 = .ok ()) :
    ∃ x x', (encode sig.salt key.parameter 0 message).eval keccak256 = some x ∧
      (encode sig'.salt key.parameter 0 message').eval keccak256 = some x' ∧
      Break key.parameter 0 (key.verifyingKey.asked keccak256)
        ((sig'.verify (key.verifyingKey.eval keccak256) message').asked keccak256)
        message sig x message' sig' x' := by
  obtain ⟨-, x, hx, hsalt, helements⟩ := of_signAtWithSalt hsig
  rw [← hsalt] at hx
  have hkey := SecretKey.eval_verifyingKey key
  have hparameter : (key.verifyingKey.eval keccak256).parameter = key.parameter := by
    rw [hkey, VerifyingKey.new_parameter]
  have hnode : (key.verifyingKey.eval keccak256).node
      = leafOf key.parameter 0 (Signing.chainEnds key.secrets.toList key.parameter 0) := by
    rw [hkey, VerifyingKey.new_node]
  rw [Signature.eval_verify, hparameter] at hverify
  cases hx' : (encode sig'.salt key.parameter 0 message').eval keccak256 with
  | none =>
    rw [hx'] at hverify
    cases hverify
  | some x' =>
    simp only [hx'] at hverify
    split at hverify
    · next hroot =>
      refine ⟨x, x', hx, rfl, break_of_binding hx hx' helements rfl Signature.eq_of_fields ?_⟩
      rw [asked_verifyingKey, asked_verify (hparameter ▸ hx'), hparameter]
      exact chains_binding (digit_le_of_encode hx) (fun hne => exists_digit_lt hx' hx hne)
        (List.Subset.refl _) (List.subset_append_right _ _) (hroot.trans hnode)
    · cases hverify

theorem Winternitz.forgery_oneTime {secrets : Bytes} {parameter : Parameter} {key : SecretKey}
    {leaf : UInt32} {message message' : Message} {salt : Salt} {sig sig' : Signature}
    (hkey : Builds secrets parameter key)
    (hsig : (OneTime.signAtWithSalt key leaf message salt).eval keccak256 = some sig)
    (hleaf : SealedSignature.leaf sig' = leaf)
    (hverify : (((OneTime.verifyingKey key).eval keccak256).verify message' sig').eval keccak256
      = .ok ()) :
    ∃ x x', (encode sig.salt parameter leaf message).eval keccak256 = some x ∧
      (encode sig'.salt parameter leaf message').eval keccak256 = some x' ∧
      Break parameter leaf
        ((OneTime.fromSecrets (K := SecretKey) secrets parameter).asked keccak256
          ++ (OneTime.verifyingKey key).asked keccak256)
        ((((OneTime.verifyingKey key).eval keccak256).verify message' sig').asked keccak256)
        message sig x message' sig' x' := by
  obtain ⟨s, rfl, rfl⟩ := SecretKey.of_fromSecrets (builds_iff.mp hkey)
  obtain rfl : leaf = 0 := hleaf.symm
  have hasked : (OneTime.fromSecrets (K := SecretKey) s.toList parameter).asked keccak256 = [] :=
    Oracle.asked_pure _ _
  change Oracle.eval keccak256 (SecretKey.signAtWithSalt _ _ _ _) = _ at hsig
  change Oracle.eval keccak256 (VerifyingKey.verify
    (Oracle.eval keccak256 (SecretKey.verifyingKey _)) message' sig') = _ at hverify
  rw [verify_eq] at hverify
  rw [hasked, List.nil_append]
  show ∃ x x', _ ∧ _ ∧ Break parameter 0 (Oracle.asked keccak256 (SecretKey.verifyingKey _))
    (Oracle.asked keccak256 (VerifyingKey.verify
      (Oracle.eval keccak256 (SecretKey.verifyingKey _)) message' sig')) message sig x
        message' sig' x'
  rw [verify_eq]
  have hbreak := break_of_forgery hsig hverify
  exact hbreak

namespace Xmss

/--
**The path binds the leaf.** A signature that climbs to the root has the leaf and the path of the
tree, or the climb and the tree make one node from two different pairs of children.
-/
theorem path_binding {secrets : Block (leaves * elementsLength)} {parameter : Parameter}
    {sig : Signature} {x : Block chains} {verified : List Bytes}
    (hlt : ¬ sig.leaf ≥ UInt32.ofNat leaves)
    (hv : climbInputs sig parameter
      (leafOf parameter sig.leaf (endsFrom parameter sig.leaf x sig.elements)) ⊆ verified)
    (hroot : sig.rootFrom parameter x = treeNode secrets.toList parameter height 0) :
    (leafOf parameter sig.leaf (endsFrom parameter sig.leaf x sig.elements)
        = leafOf parameter sig.leaf (Signing.chainEnds secrets.toList parameter sig.leaf) ∧
      sig.path = (builtKey secrets parameter).path sig.leaf) ∨
    Collision parameter ((SecretKey.fromSecrets secrets.toList parameter).asked keccak256)
      verified := by
  have hleaf := lt_leaves hlt
  have hzero : sig.leaf.toNat / 2 ^ height = 0 := Nat.div_eq_of_lt hleaf
  rw [leafOf_chainEnds]
  have hbind := climb_binding (makeNode parameter) (leafNode secrets.toList parameter)
    sig.leaf.toNat (fun l => chunk elementLength sig.path.toList l)
    (leafOf parameter sig.leaf (endsFrom parameter sig.leaf x sig.elements)) height
    (by rw [hzero]; exact hroot)
  rcases hbind with ⟨hstart, hsib⟩ | ⟨l, hl, hne, hnode⟩
  · refine Or.inl ⟨hstart, path_eq_of_chunk fun l hl => ?_⟩
    rw [path_chunk secrets parameter hleaf hl]
    exact hsib l hl
  · have hg := mem_buildNodes_node secrets.toList parameter hl
      (index_lt hleaf (Nat.succ_le_of_lt hl))
    rw [← asked_fromSecrets] at hg
    have hclimb := hv (List.mem_map.mpr ⟨l, List.mem_range.mpr hl, rfl⟩)
    refine Or.inr (collision_tree (fun he => hne ?_) hg hclimb hnode.symm)
    obtain ⟨h1, h2⟩ := toList_append_inj he
    exact (Prod.ext h1 (List.Vector.eq _ _ h2)).symm

theorem break_of_forgery {secrets : Block (leaves * elementsLength)} {parameter : Parameter}
    {leaf : UInt32}
    {message message' : Message} {salt : Salt} {sig sig' : Signature}
    (hsig : ((builtKey secrets parameter).signAtWithSalt leaf message salt).eval keccak256
      = some sig)
    (hleaf : sig'.leaf = leaf)
    (hverify : (sig'.verify (builtKey secrets parameter).verifyingKey message').eval keccak256
      = .ok ()) :
    ∃ x x', (encode sig.salt parameter leaf message).eval keccak256 = some x ∧
      (encode sig'.salt parameter leaf message').eval keccak256 = some x' ∧
      Break parameter leaf ((SecretKey.fromSecrets secrets.toList parameter).asked keccak256)
        ((sig'.verify (builtKey secrets parameter).verifyingKey message').asked keccak256)
        message sig x message' sig' x' := by
  obtain ⟨hlt, x, hx, hsigleaf, hsalt, helements, hpath⟩ := of_signAtWithSalt hsig
  rw [builtKey_parameter, ← hsalt] at hx
  rw [builtKey_parameter, builtKey_secrets] at helements
  subst hleaf
  have hkey := verifyingKey_builtKey secrets parameter
  have hparameter : (builtKey secrets parameter).verifyingKey.parameter = parameter := by
    rw [hkey, VerifyingKey.new_parameter]
  have hnode : (builtKey secrets parameter).verifyingKey.node
      = treeNode secrets.toList parameter height 0 := by
    rw [hkey, VerifyingKey.new_node]
  generalize (builtKey secrets parameter).verifyingKey = key at hparameter hnode hverify ⊢
  rw [Signature.eval_verify, if_neg hlt, hparameter] at hverify
  cases hx' : (encode sig'.salt parameter sig'.leaf message').eval keccak256 with
  | none =>
    rw [hx'] at hverify
    cases hverify
  | some x' =>
    simp only [hx'] at hverify
    split at hverify
    · next hroot =>
      have hasked := asked_verify hlt (hparameter.symm ▸ hx')
      rw [hparameter] at hasked
      refine ⟨x, x', hx, rfl, ?_⟩
      have hclimb : climbInputs sig' parameter
          (leafOf parameter sig'.leaf (endsFrom parameter sig'.leaf x' sig'.elements))
            ⊆ (sig'.verify key message').asked keccak256 := by
        intro b hb
        rw [hasked]
        simp [hb]
      have hbind := path_binding hlt hclimb (hroot.trans hnode)
      rcases hbind with ⟨hstart, hpath'⟩ | hcol
      · refine break_of_binding hx hx' helements
          (congrArg List.Vector.toList (hpath'.trans hpath.symm))
          (fun hs he => Signature.eq_of_fields hsigleaf.symm hs he (hpath'.trans hpath.symm)) ?_
        refine chains_binding (digit_le_of_encode hx) (fun hne => exists_digit_lt hx' hx hne) ?_ ?_
          hstart
        · intro b hb
          rw [asked_fromSecrets]
          refine mem_buildNodes_leaf secrets.toList parameter (lt_leaves hlt) ?_
          rwa [UInt32.ofNat_toNat]
        · intro b hb
          rw [hasked]
          exact List.mem_append_right _ (List.mem_append_left _ hb)
      · exact Or.inr (Or.inl hcol)
    · cases hverify

theorem forgery_oneTime {secrets : Bytes} {parameter : Parameter} {key : SecretKey}
    {leaf : UInt32} {message message' : Message} {salt : Salt} {sig sig' : Signature}
    (hkey : Builds secrets parameter key)
    (hsig : (OneTime.signAtWithSalt key leaf message salt).eval keccak256 = some sig)
    (hleaf : SealedSignature.leaf sig' = leaf)
    (hverify : (((OneTime.verifyingKey key).eval keccak256).verify message' sig').eval keccak256
      = .ok ()) :
    ∃ x x', (encode sig.salt parameter leaf message).eval keccak256 = some x ∧
      (encode sig'.salt parameter leaf message').eval keccak256 = some x' ∧
      Break parameter leaf
        ((OneTime.fromSecrets (K := SecretKey) secrets parameter).asked keccak256
          ++ (OneTime.verifyingKey key).asked keccak256)
        ((((OneTime.verifyingKey key).eval keccak256).verify message' sig').asked keccak256)
        message sig x message' sig' x' := by
  obtain ⟨s, rfl, rfl⟩ := SecretKey.of_fromSecrets hkey
  have hasked : (OneTime.verifyingKey (builtKey s parameter)).asked keccak256 = [] :=
    Oracle.asked_pure _ _
  change Oracle.eval keccak256 (SecretKey.signAtWithSalt _ _ _ _) = _ at hsig
  rw [eval_verifyingKey] at hverify ⊢
  change Oracle.eval keccak256 (VerifyingKey.verify
    (SecretKey.verifyingKey _) message' sig') = _ at hverify
  rw [verify_eq] at hverify
  rw [hasked, List.append_nil]
  show ∃ x x', _ ∧ _ ∧ Break parameter leaf
    (Oracle.asked keccak256 (SecretKey.fromSecrets s.toList parameter))
    (Oracle.asked keccak256 (VerifyingKey.verify (SecretKey.verifyingKey _) message' sig'))
    message sig x message' sig' x'
  rw [verify_eq]
  exact break_of_forgery hsig hleaf hverify

/-- A signature whose path leads to the root is accepted. -/
theorem verify_of_root {secrets : Bytes} {parameter : Parameter}
    {key : SecretKey} {message : Message} {sig : Signature} {x : Block chains}
    (hkey : Builds secrets parameter key) (hlt : ¬ sig.leaf ≥ UInt32.ofNat leaves)
    (hx : (encode sig.salt parameter sig.leaf message).eval keccak256 = some x)
    (hroot : sig.rootFrom parameter x = treeNode secrets parameter height 0) :
    (((OneTime.verifyingKey key).eval keccak256).verify message sig).eval keccak256 = .ok () := by
  obtain ⟨s, rfl, rfl⟩ := SecretKey.of_fromSecrets hkey
  rw [eval_verifyingKey]
  show Oracle.eval keccak256 (VerifyingKey.verify
    (SecretKey.verifyingKey _) message sig) = _
  rw [verify_eq, Signature.eval_verify, if_neg hlt, verifyingKey_builtKey,
    VerifyingKey.new_parameter, hx, VerifyingKey.new_node]
  exact if_pos hroot

omit [Keccak] in
/-- With a constant hash every path leads to the root. -/
theorem rootFrom_constantHash (secrets : Bytes) (parameter : Parameter) (sig : Signature)
    (x : Block chains) :
    letI := constantHash
    sig.rootFrom parameter x = treeNode secrets parameter height 0 := by
  let _ := constantHash
  -- Both are the node of the last step, whatever its children are.
  have hnode : ∀ i i' left left' right right', makeNode parameter height i left right
      = makeNode parameter height i' left' right' := fun _ _ _ _ _ _ => rfl
  exact hnode ..

end Xmss

/--
**Every forgery breaks the hash.** Take an honest key and an honest signature at a leaf, and any
signature with that leaf that the key accepts. Then the codewords, the elements and the path agree,
so it is the honest signature or two salted messages collide on 18 bytes; or a tweaked hash of key
generation and one of verification collide on 23 bytes; or some element walks forward into the
published one.
-/
theorem forgery (k : Instance) {secrets : Bytes} {parameter : Parameter} {key : k.SecretKey}
    {leaf : UInt32} {message message' : Message} {salt : Salt}
    {sig sig' : OneTime.Signature k.SecretKey}
    (hkey : (OneTime.fromSecrets secrets parameter).eval keccak256 = .ok key)
    (hsig : (OneTime.signAtWithSalt key leaf message salt).eval keccak256 = some sig)
    (hleaf : SealedSignature.leaf sig' = leaf)
    (hverify : (((OneTime.verifyingKey key).eval keccak256).verify message' sig').eval keccak256
      = .ok ()) :
    ∃ x x', (encode (SealedSignature.salt sig) parameter leaf message).eval keccak256 = some x ∧
      (encode (SealedSignature.salt sig') parameter leaf message').eval keccak256 = some x' ∧
      Break parameter leaf
        ((OneTime.fromSecrets (K := k.SecretKey) secrets parameter).asked keccak256
          ++ (OneTime.verifyingKey key).asked keccak256)
        ((((OneTime.verifyingKey key).eval keccak256).verify message' sig').asked keccak256)
        message sig x message' sig' x' := by
  cases k with
  | winternitz => exact Winternitz.forgery_oneTime hkey hsig hleaf hverify
  | xmss => exact Xmss.forgery_oneTime hkey hsig hleaf hverify

end Break

/-- Another message with another salt, other elements and another path. -/
theorem forgery_altered :
    letI := constantHash
    ∃ (key : Instance.xmss.SecretKey) (sig sig' : Xmss.Signature) (x x' : Block chains),
      Builds (zeros (Xmss.leaves * elementsLength)).toList (zeros _) key ∧
      (OneTime.signAtWithSalt key 3 (zeros _) (zeros _)).eval keccak256 = some sig ∧
      sig' = Xmss.signatureOf 3 (.replicate _ 1) (.replicate _ 1) (.replicate _ 1) ∧ sig' ≠ sig ∧
      Break (zeros _) 3
        ((OneTime.fromSecrets (K := Instance.xmss.SecretKey)
            (zeros (Xmss.leaves * elementsLength)).toList (zeros _)).asked keccak256
          ++ (OneTime.verifyingKey key).asked keccak256)
        ((((OneTime.verifyingKey key).eval keccak256).verify (.replicate _ 1) sig').asked
          keccak256)
        (zeros _) sig x (.replicate _ 1) sig' x' := by
  let _ := constantHash
  obtain ⟨key, hkey⟩ := LawfulOneTime.exists_builds (K := Instance.xmss.SecretKey)
    (zeros (Xmss.leaves * elementsLength)).toList (zeros _) (List.Vector.toList_length _)
  have hsome := (LawfulOneTime.sign_isSome hkey 3 (zeros _) (zeros _)).mpr
    ⟨by decide, encode_constantHash _ _ _ _⟩
  obtain ⟨sig, hsig⟩ := Option.isSome_iff_exists.mp hsome
  obtain ⟨-, -, hsalt⟩ := LawfulOneTime.of_sign hkey hsig
  obtain ⟨sig', hsig'⟩ : ∃ sig', sig' = Xmss.signatureOf 3 (.replicate _ 1) (.replicate _ 1)
    (.replicate _ 1) := ⟨_, rfl⟩
  have hleaf : sig'.leaf = 3 := hsig' ▸ Xmss.signatureOf_leaf ..
  have hsalt' : sig'.salt = .replicate _ 1 := hsig' ▸ Xmss.signatureOf_salt ..
  have hne : sig' ≠ sig := by
    intro heq
    rw [heq] at hsalt'
    exact absurd (hsalt'.symm.trans hsalt) (by decide)
  have hlt : ¬ sig'.leaf ≥ UInt32.ofNat Xmss.leaves := by
    rw [hleaf]
    decide
  have hverify : (((OneTime.verifyingKey key).eval keccak256).verify (.replicate _ 1) sig').eval
      keccak256 = .ok () := by
    obtain ⟨x, hx⟩ := Option.isSome_iff_exists.mp
      (encode_constantHash sig'.salt (zeros _) sig'.leaf (.replicate _ 1))
    exact Xmss.verify_of_root hkey hlt hx (Xmss.rootFrom_constantHash ..)
  obtain ⟨x, x', -, -, hbreak⟩ := forgery .xmss hkey hsig hleaf hverify
  exact ⟨key, sig, sig', x, x', hkey, hsig, hsig', hne, hbreak⟩

end SolanaWinternitz
