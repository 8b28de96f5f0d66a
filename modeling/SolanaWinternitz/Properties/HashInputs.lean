import SolanaWinternitz.Properties.SignVerify

/-!
# What is hashed, and where

The chain, leaf and node inputs of key generation and of verification, as the lists of
hash inputs that the code computes.

* `Winternitz.asked_verifyingKey`, `Xmss.asked_buildNodes` — key generation hashes every step of
  every chain from its start, every leaf, and every node of the tree
* `Winternitz.asked_verify`, `Xmss.asked_verify` — verification hashes the message, every step from
  the elements of the signature, the leaf that they give, and every node of the climb
-/

namespace SolanaWinternitz

open Infra

variable [Keccak]

/-- The hash call of an encoding. -/
theorem asked_encode (salt : Salt) (parameter : Parameter) (leaf : UInt32) (message : Message) :
    (encode salt parameter leaf message).asked keccak256
      = [messageInput salt parameter leaf message] := by
  simp [encode, messageInput]

/-! ## Chains -/

theorem mem_walkInputs {parameter : Parameter} {leaf : UInt32} {i : UInt8} {a b k : Nat}
    {x : Element} (ha : a ≤ k) (hb : k < b) :
    chainInput parameter leaf i (UInt8.ofNat (k + 1)) (walk (chainStep parameter leaf i) a k x)
      ∈ Chain.walkInputs parameter leaf i a b x :=
  List.mem_map.mpr ⟨k, List.mem_range'_1.mpr ⟨ha, by omega⟩, rfl⟩

/-- The hash inputs of the chains of a leaf, from their starts to their ends. -/
def generatedChains (secrets : Bytes) (parameter : Parameter) (leaf : UInt32) : List Bytes :=
  (List.finRange chains).flatMap fun i : Fin chains =>
    Chain.walkInputs parameter leaf (UInt8.ofNat i) 0 15 (Signing.start secrets leaf i)

/-- The hash inputs of the chains of a signature, from its digits to the ends. -/
def verifiedChains (parameter : Parameter) (leaf : UInt32) (x : Block chains)
    (elements : Block elementsLength) : List Bytes :=
  (List.finRange chains).flatMap fun i : Fin chains =>
    Chain.walkInputs parameter leaf (UInt8.ofNat i) (x.get i).toNat 15
      (chunk elementLength elements.toList i)

theorem Signing.asked_ends (secrets : Bytes) (parameter : Parameter) (leaf : UInt32) :
    (Signing.ends secrets parameter leaf).asked keccak256
      = generatedChains secrets parameter leaf :=
  Chain.asked_walkAll (Chain.holds_new parameter leaf) _ _ _

theorem asked_chainEnds (parameter : Parameter) (leaf : UInt32) (x : Block chains)
    (elements : Block elementsLength) :
    ((Chain.new parameter leaf).ends x elements).asked keccak256
      = verifiedChains parameter leaf x elements :=
  Chain.asked_walkAll (Chain.holds_new parameter leaf) _ _ _

theorem mem_generatedChains (secrets : Bytes) (parameter : Parameter) (leaf : UInt32)
    (i : Fin chains) {k : Nat} (hk : k < 15) :
    chainInput parameter leaf (UInt8.ofNat i) (UInt8.ofNat (k + 1))
        (walk (chainStep parameter leaf (UInt8.ofNat i)) 0 k (Signing.start secrets leaf i))
      ∈ generatedChains secrets parameter leaf :=
  List.mem_flatMap.mpr ⟨i, List.mem_finRange i, mem_walkInputs (Nat.zero_le k) hk⟩

theorem mem_verifiedChains (parameter : Parameter) (leaf : UInt32) (x : Block chains)
    (elements : Block elementsLength) (i : Fin chains) {k : Nat} (h : (x.get i).toNat ≤ k)
    (hk : k < 15) :
    chainInput parameter leaf (UInt8.ofNat i) (UInt8.ofNat (k + 1))
        (walk (chainStep parameter leaf (UInt8.ofNat i)) (x.get i).toNat k
          (chunk elementLength elements.toList i))
      ∈ verifiedChains parameter leaf x elements :=
  List.mem_flatMap.mpr ⟨i, List.mem_finRange i, mem_walkInputs h hk⟩

/-! ## Winternitz -/

namespace Winternitz

/-- The hash inputs of key generation are those of `verifying_key`. -/
theorem asked_verifyingKey (self : SecretKey) :
    self.verifyingKey.asked keccak256
      = generatedChains self.secrets.toList self.parameter 0
        ++ [treeInput self.parameter 0 0
          (flatten (Signing.chainEnds self.secrets.toList self.parameter 0)).toList] := by
  simp only [SecretKey.verifyingKey, Oracle.asked_bind, Signing.asked_ends, Signing.eval_ends,
    asked_leafHash, Oracle.asked_pure, List.append_nil]

/-- The hash inputs of `verify` once the message is encoded. -/
theorem asked_verify {self : Signature} {key : VerifyingKey} {message : Message} {x : Block chains}
    (hx : (encode self.salt key.parameter 0 message).eval keccak256 = some x) :
    (self.verify key message).asked keccak256
      = [messageInput self.salt key.parameter 0 message]
        ++ (verifiedChains key.parameter 0 x self.elements
          ++ [treeInput key.parameter 0 0
            (flatten (endsFrom key.parameter 0 x self.elements)).toList]) := by
  unfold Signature.verify
  simp only [Oracle.asked_bind, hx, asked_encode, asked_chainEnds,
    eval_chainEnds, asked_leafHash, Oracle.asked_pure, List.append_nil]

end Winternitz

/-! ## XMSS -/

namespace Xmss

/-- What one round of the loop of `verify` hashes. -/
theorem asked_climbStep (sig : Signature) (parameter : Parameter) (leaf : UInt32)
    (current : Element) {l : Nat} (hl : l < height) :
    (sig.climbStep parameter leaf current l).asked keccak256
      = (let p := childPair (leaf.toNat / 2 ^ l) current (chunk elementLength sig.path.toList l)
        [treeInput parameter (UInt8.ofNat (l + 1)) (UInt32.ofNat (leaf.toNat / 2 ^ (l + 1)))
          (p.1.toList ++ p.2.toList)]) := by
  obtain ⟨hindex, hbit⟩ := shift_eq leaf hl
  unfold Signature.climbStep childPair
  by_cases hb : leaf.toNat / 2 ^ l % 2 = 0
  · simp only [hbit.mpr hb, hb, if_true, asked_node, hindex]
  · simp only [mt hbit.mp hb, hb, if_false, asked_node, hindex]

/-- The climb of `verify` up to level `l`. -/
def climbed (sig : Signature) (parameter : Parameter) (start : Element) (l : Nat) : Element :=
  climb (makeNode parameter) sig.leaf.toNat (fun l => chunk elementLength sig.path.toList l) l start

/-- The two children that the climb hashes to get from level `l` to level `l + 1`. -/
def climbPair (sig : Signature) (parameter : Parameter) (start : Element) (l : Nat) :
    Element × Element :=
  childPair (sig.leaf.toNat / 2 ^ l) (climbed sig parameter start l)
    (chunk elementLength sig.path.toList l)

/-- The hash inputs of the climb. -/
def climbInputs (sig : Signature) (parameter : Parameter) (start : Element) : List Bytes :=
  (List.range height).map fun l =>
    let p := climbPair sig parameter start l
    treeInput parameter (UInt8.ofNat (l + 1)) (UInt32.ofNat (sig.leaf.toNat / 2 ^ (l + 1)))
      (p.1.toList ++ p.2.toList)

theorem asked_climb (sig : Signature) (parameter : Parameter) (start : Element) :
    ((List.range height).foldlM (sig.climbStep parameter sig.leaf) start).asked keccak256
      = climbInputs sig parameter start := by
  rw [Oracle.asked_foldlM_range]
  unfold climbInputs
  rw [← List.flatMap_pure_eq_map]
  refine List.flatMap_congr fun l hl => ?_
  have hl' : l < height := List.mem_range.mp hl
  rw [climb_loop sig parameter sig.leaf start l (le_of_lt hl'),
    asked_climbStep sig parameter sig.leaf _ hl']
  rfl

/-- **The hash inputs of `verify`** once the message is encoded: the chains, the leaf, the climb. -/
theorem asked_verify {self : Signature} {key : VerifyingKey} {message : Message} {x : Block chains}
    (hleaf : ¬ self.leaf ≥ UInt32.ofNat leaves)
    (hx : (encode self.salt key.parameter self.leaf message).eval keccak256 = some x) :
    (self.verify key message).asked keccak256
      = [messageInput self.salt key.parameter self.leaf message]
        ++ (verifiedChains key.parameter self.leaf x self.elements
            ++ [treeInput key.parameter 0 self.leaf
              (flatten (endsFrom key.parameter self.leaf x self.elements)).toList]
          ++ climbInputs self key.parameter
            (leafOf key.parameter self.leaf
              (endsFrom key.parameter self.leaf x self.elements))) := by
  unfold Signature.verify
  rw [if_neg hleaf]
  simp only [Oracle.asked_bind, hx, asked_encode, asked_chainEnds, eval_chainEnds, asked_leafHash,
    eval_leafHash, asked_climb, Oracle.asked_pure, List.append_nil, List.append_assoc]

/-! ### Key generation -/

theorem asked_leafStep (secrets : Bytes) (parameter : Parameter) (nodes : Nodes) (leaf : Nat) :
    (SecretKey.leafStep secrets parameter nodes leaf).asked keccak256
      = generatedChains secrets parameter (UInt32.ofNat leaf)
        ++ [treeInput parameter 0 (UInt32.ofNat leaf)
          (flatten (Signing.chainEnds secrets parameter (UInt32.ofNat leaf))).toList] := by
  simp only [SecretKey.leafStep, Oracle.asked_bind, Signing.asked_ends, Signing.eval_ends,
    asked_leafHash, Oracle.asked_pure, List.append_nil]

theorem asked_nodeStep (parameter : Parameter) (l : Nat) (nodes : Nodes) (i : Nat) :
    (SecretKey.nodeStep parameter l nodes i).asked keccak256
      = [treeInput parameter (UInt8.ofNat l) (UInt32.ofNat i)
          ((nodes.get (level (l - 1) + 2 * i)).toList
            ++ (nodes.get (level (l - 1) + 2 * i + 1)).toList)] := by
  simp only [SecretKey.nodeStep, Slots.get_nodes, Oracle.asked_bind, asked_node, Oracle.asked_pure,
    List.append_nil]

/-- The hash inputs of the first loop: the chains and the leaf hash of every leaf. -/
def leafInputs (secrets : Bytes) (parameter : Parameter) : List Bytes :=
  (List.range leaves).flatMap fun leaf =>
    generatedChains secrets parameter (UInt32.ofNat leaf)
      ++ [treeInput parameter 0 (UInt32.ofNat leaf)
        (flatten (Signing.chainEnds secrets parameter (UInt32.ofNat leaf))).toList]

/-- The hash inputs of the nodes of level `l + 1`. -/
def levelInputs (secrets : Bytes) (parameter : Parameter) (l : Nat) : List Bytes :=
  (List.range (leaves >>> (l + 1))).map fun i =>
    treeInput parameter (UInt8.ofNat (l + 1)) (UInt32.ofNat i)
      ((treeNode secrets parameter l (2 * i)).toList
        ++ (treeNode secrets parameter l (2 * i + 1)).toList)

/-- One level, from an array that holds the levels below. -/
theorem asked_levelStep {secrets : Bytes} {parameter : Parameter} {nodes : Nodes} {l : Nat}
    (hl : l < height) (h : HoldsLevels secrets parameter nodes l) :
    (SecretKey.levelStep parameter nodes (l + 1)).asked keccak256
      = levelInputs secrets parameter l := by
  have hhalf := leaves_shift_succ hl
  have hbase := level_succ hl
  have htop := level_add_le (show l + 1 ≤ height from hl)
  unfold SecretKey.levelStep levelInputs
  rw [Oracle.asked_foldlM_range, ← List.flatMap_pure_eq_map]
  refine List.flatMap_congr fun i hi => ?_
  have hi' : i < leaves >>> (l + 1) := List.mem_range.mp hi
  simp only [asked_nodeStep, eval_nodeStep, Nat.add_sub_cancel]
  -- The nodes written so far stand above the children of node `i`.
  obtain ⟨-, hout⟩ := fill_loop (level (l + 1))
    (fun s i => makeNode parameter (l + 1) i (s.get (level l + 2 * i))
      (s.get (level l + 2 * i + 1))) nodes i (by omega)
    (fun a j hj ha => by rw [ha _ (by omega), ha _ (by omega)])
  rw [hout _ (by omega), hout _ (by omega), h l (le_refl l) (2 * i) (by omega), Nat.add_assoc,
    h l (le_refl l) (2 * i + 1) (by omega)]
  rfl

/-- **The hash inputs of key generation**: every leaf, then the levels above. -/
theorem asked_buildNodes (secrets : Bytes) (parameter : Parameter) :
    (SecretKey.buildNodes secrets parameter).asked keccak256
      = leafInputs secrets parameter
        ++ (List.range height).flatMap (levelInputs secrets parameter) := by
  unfold SecretKey.buildNodes SecretKey.fillNodes
  rw [Oracle.asked_bind, Oracle.eval_foldlM, Oracle.asked_foldlM_range, Oracle.asked_foldlM_range']
  simp only [asked_leafStep]
  refine congrArg _ (List.flatMap_congr fun l hl => ?_)
  have hl' : l < height := List.mem_range.mp hl
  rw [Nat.add_comm 1 l]
  exact asked_levelStep hl' (holdsLevels_loop (holdsLevels_leaves secrets parameter _) l
    (le_of_lt hl'))

/-- Every node of the tree is hashed in key generation. -/
theorem mem_buildNodes_node (secrets : Bytes) (parameter : Parameter) {l i : Nat} (hl : l < height)
    (hi : i < leaves >>> (l + 1)) :
    treeInput parameter (UInt8.ofNat (l + 1)) (UInt32.ofNat i)
        ((treeNode secrets parameter l (2 * i)).toList
          ++ (treeNode secrets parameter l (2 * i + 1)).toList)
      ∈ (SecretKey.buildNodes secrets parameter).asked keccak256 := by
  rw [asked_buildNodes]
  exact List.mem_append_right _ (List.mem_flatMap.mpr ⟨l, List.mem_range.mpr hl,
    List.mem_map.mpr ⟨i, List.mem_range.mpr hi, rfl⟩⟩)

/-- The chains and the leaf hash of every leaf are hashed in key generation. -/
theorem mem_buildNodes_leaf (secrets : Bytes) (parameter : Parameter) {leaf : Nat}
    (hleaf : leaf < leaves) {b : Bytes}
    (hb : b ∈ generatedChains secrets parameter (UInt32.ofNat leaf)
      ++ [treeInput parameter 0 (UInt32.ofNat leaf)
        (flatten (Signing.chainEnds secrets parameter (UInt32.ofNat leaf))).toList]) :
    b ∈ (SecretKey.buildNodes secrets parameter).asked keccak256 := by
  rw [asked_buildNodes]
  exact List.mem_append_left _ (List.mem_flatMap.mpr ⟨leaf, List.mem_range.mpr hleaf, hb⟩)

theorem asked_fromSecrets (secrets : Block (leaves * elementsLength)) (parameter : Parameter) :
    (SecretKey.fromSecrets secrets.toList parameter).asked keccak256
      = (SecretKey.buildNodes secrets.toList parameter).asked keccak256 := by
  have hlen : secrets.toList.length = leaves * elementsLength := List.Vector.toList_length secrets
  unfold SecretKey.fromSecrets
  rw [dif_pos hlen, Oracle.asked_bind, Oracle.asked_pure, List.append_nil]

end Xmss

end SolanaWinternitz
