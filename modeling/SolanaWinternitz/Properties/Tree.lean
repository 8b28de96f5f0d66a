import SolanaWinternitz.Properties.Chain
import SolanaWinternitz.Infra.Merkle
import SolanaWinternitz.Xmss

/-!
# The node array is the Merkle tree

* `buildNodes_get` — slot `level l + i` of the array that `from_secrets` builds is node `i` of
  level `l` of the Merkle tree over the leaf hashes
* `eval_climbStep` — one round of the loop of `verify` is one step of `climb`
* `path_chunk` — the path that `sign_at_with_salt` writes is the path of the tree

A level is filled from the level below, which stands before it in the array and is not written
again. `fill_loop` is the one induction over such a loop.
-/

namespace SolanaWinternitz.Xmss

open Infra

/-! ## Reading and writing the array -/

theorem Nodes.get_set_self {nodes : Nodes} {i : Nat} {value : Element} (h : i < 2 * leaves - 1) :
    (nodes.set i value).get i = value := by
  simp [Nodes.get, Nodes.set, h]

theorem Nodes.get_set_ne {nodes : Nodes} {i j : Nat} {value : Element} (h : j ≠ i) :
    (nodes.set i value).get j = nodes.get j := by
  simp [Nodes.get, Nodes.set, h]

/--
A loop that fills the slots from `base` on. The value of a slot may depend on the slots before
`base`, which the loop leaves alone.
-/
theorem fill_loop (base : Nat) (v : Nodes → Nat → Element) (nodes : Nodes) : ∀ n,
    base + n ≤ 2 * leaves - 1 →
    (∀ (a : Nodes) (i : Nat), i < n → (∀ j < base, a.get j = nodes.get j) → v a i = v nodes i) →
    (∀ i < n, ((List.range n).foldl (fun s i => s.set (base + i) (v s i)) nodes).get (base + i)
        = v nodes i) ∧
      ∀ j < base, ((List.range n).foldl (fun s i => s.set (base + i) (v s i)) nodes).get j
        = nodes.get j
  | 0, _, _ => ⟨fun i hi => absurd hi (Nat.not_lt_zero i), fun _ _ => rfl⟩
  | n + 1, hn, hv => by
    obtain ⟨hin, hout⟩ := fill_loop base v nodes n (by omega) (fun a i hi => hv a i (by omega))
    rw [List.range_succ, List.foldl_append, List.foldl_cons, List.foldl_nil]
    constructor
    · intro i hi
      rcases Nat.lt_succ_iff_lt_or_eq.mp hi with hi | rfl
      · rw [Nodes.get_set_ne (by omega), hin i hi]
      · rw [Nodes.get_set_self (by omega), hv _ i (by omega) hout]
    · intro j hj
      rw [Nodes.get_set_ne (by omega), hout j hj]

/-! ## Indices -/

theorem xor_one_eq (n : Nat) : n ^^^ 1 = siblingIndex n := by
  unfold siblingIndex
  split
  · next h => exact Nat.xor_one_of_even (Nat.even_iff.mpr h)
  · next h => exact Nat.xor_one_of_odd (Nat.odd_iff.mpr (by omega))

/-- The ancestors of a leaf are nodes of their levels. -/
theorem index_lt {leaf l : Nat} (hleaf : leaf < leaves) (hl : l ≤ height) :
    leaf / 2 ^ l < leaves >>> l := by
  refine Nat.div_lt_of_lt_mul ?_
  rw [leaves_shift hl, ← Nat.pow_add, Nat.add_sub_cancel' hl]
  exact hleaf

/-- The sibling of a node is a node of the same level. -/
theorem siblingIndex_lt {leaf l : Nat} (hleaf : leaf < leaves) (hl : l < height) :
    siblingIndex (leaf / 2 ^ l) < leaves >>> l := by
  have hlt := index_lt hleaf (le_of_lt hl)
  rw [leaves_shift_succ hl] at hlt ⊢
  generalize leaf / 2 ^ l = n at hlt ⊢
  generalize leaves >>> (l + 1) = m at hlt ⊢
  unfold siblingIndex
  split <;> omega

/-- The bit test and the index shift of `verify`, on natural numbers. -/
theorem shift_eq (leaf : UInt32) {l : Nat} (hl : l < height) :
    leaf >>> (UInt8.ofNat (l + 1)).toUInt32 = UInt32.ofNat (leaf.toNat / 2 ^ (l + 1)) ∧
      ((leaf >>> (UInt8.ofNat (l + 1) - 1).toUInt32) &&& 1 = 0 ↔ leaf.toNat / 2 ^ l % 2 = 0) := by
  have hnum : (UInt8.ofNat (l + 1)).toUInt32.toNat = l + 1 ∧
      (UInt8.ofNat (l + 1) - 1).toUInt32.toNat = l := by
    have hall : ∀ l < 8, (UInt8.ofNat (l + 1)).toUInt32.toNat = l + 1 ∧
      (UInt8.ofNat (l + 1) - 1).toUInt32.toNat = l := by decide
    exact hall l hl
  have hl8 : l < 8 := hl
  constructor
  · refine UInt32.toNat_inj.mp ?_
    rw [UInt32.toNat_shiftRight, hnum.1, Nat.mod_eq_of_lt (by omega), Nat.shiftRight_eq_div_pow,
      UInt32.toNat_ofNat', Nat.mod_eq_of_lt]
    exact lt_of_le_of_lt (Nat.div_le_self _ _) leaf.toNat_lt
  · rw [← UInt32.toNat_inj, UInt32.toNat_and, UInt32.toNat_shiftRight, hnum.2,
      Nat.mod_eq_of_lt (show l < 32 by omega), Nat.shiftRight_eq_div_pow]
    show _ &&& 1 = 0 ↔ _
    rw [Nat.and_one_is_mod]

-- Stated for any array: with the built one in its place the kernel would build it.
theorem mk_nodes (secrets : Block (leaves * elementsLength)) (parameter : Parameter)
    (nodes : Nodes) : (SecretKey.mk secrets parameter nodes).nodes = nodes := rfl

variable [Keccak]

/-! ## The loops of `from_secrets` -/

/-- The leaf hashes of the key. -/
def leafNode (secrets : Bytes) (parameter : Parameter) (leaf : Nat) : Element :=
  leafOf parameter (UInt32.ofNat leaf) (Signing.chainEnds secrets parameter (UInt32.ofNat leaf))

/-- How the code makes node `index` of a level from its children. -/
def makeNode (parameter : Parameter) (level index : Nat) (left right : Element) : Element :=
  nodeOf parameter (UInt8.ofNat level) (UInt32.ofNat index) left right

/-- Node `i` of level `l` of the key's Merkle tree. -/
def treeNode (secrets : Bytes) (parameter : Parameter) (l i : Nat) : Element :=
  merkle (makeNode parameter) (leafNode secrets parameter) l i

theorem eval_leafStep (secrets : Bytes) (parameter : Parameter) (nodes : Nodes) (leaf : Nat) :
    (SecretKey.leafStep secrets parameter nodes leaf).eval keccak256
      = nodes.set (0 + leaf) (leafNode secrets parameter leaf) := by
  simp [SecretKey.leafStep, Signing.eval_ends, leafNode]

theorem eval_nodeStep (parameter : Parameter) (l : Nat) (nodes : Nodes) (i : Nat) :
    (SecretKey.nodeStep parameter l nodes i).eval keccak256
      = nodes.set (level l + i) (makeNode parameter l i (nodes.get (level (l - 1) + 2 * i))
          (nodes.get (level (l - 1) + 2 * i + 1))) := by
  simp [SecretKey.nodeStep, makeNode]

/-- The array holds the levels up to `top` of the tree. -/
def HoldsLevels (secrets : Bytes) (parameter : Parameter) (nodes : Nodes) (top : Nat) : Prop :=
  ∀ l ≤ top, ∀ i < leaves >>> l, nodes.get (level l + i) = treeNode secrets parameter l i

theorem holdsLevels_leaves (secrets : Bytes) (parameter : Parameter) (nodes : Nodes) :
    HoldsLevels secrets parameter
      ((List.range leaves).foldl
        (fun s leaf => (SecretKey.leafStep secrets parameter s leaf).eval keccak256) nodes) 0 := by
  intro l hl i hi
  obtain rfl := Nat.le_zero.mp hl
  simp only [eval_leafStep]
  have hfill := fill_loop 0 (fun _ leaf => leafNode secrets parameter leaf) nodes leaves
    (by decide) (fun _ _ _ _ => rfl)
  rw [Nat.shiftRight_zero] at hi
  exact hfill.1 i hi

theorem holdsLevels_succ {secrets : Bytes} {parameter : Parameter} {nodes : Nodes} {top : Nat}
    (htop : top + 1 ≤ height) (h : HoldsLevels secrets parameter nodes top) :
    HoldsLevels secrets parameter
      ((SecretKey.levelStep parameter nodes (top + 1)).eval keccak256) (top + 1) := by
  have hbase := level_succ htop
  have hhalf := leaves_shift_succ htop
  unfold SecretKey.levelStep
  rw [Oracle.eval_foldlM]
  simp only [eval_nodeStep, Nat.add_sub_cancel]
  obtain ⟨hin, hout⟩ := fill_loop (level (top + 1))
    (fun s i => makeNode parameter (top + 1) i (s.get (level top + 2 * i))
      (s.get (level top + 2 * i + 1))) nodes (leaves >>> (top + 1)) (level_add_le htop)
    (fun a i hi ha => by rw [ha _ (by omega), ha _ (by omega)])
  intro l hl i hi
  rcases Nat.le_add_one_iff.mp hl with hl | rfl
  · have hlt : level l + i < level (top + 1) := by
      have hmono := level_mono (show l < top + 1 by omega) htop
      omega
    rw [hout _ hlt, h l hl i hi]
  · rw [hin i hi, h top (le_refl top) (2 * i) (by omega), Nat.add_assoc,
      h top (le_refl top) (2 * i + 1) (by omega)]
    rfl

theorem holdsLevels_loop {secrets : Bytes} {parameter : Parameter} {nodes : Nodes}
    (h : HoldsLevels secrets parameter nodes 0) : ∀ top ≤ height,
    HoldsLevels secrets parameter
      ((List.range' 1 top).foldl
        (fun s l => (SecretKey.levelStep parameter s l).eval keccak256) nodes) top
  | 0, _ => h
  | top + 1, htop => by
    rw [List.range'_concat, List.foldl_append, List.foldl_cons, List.foldl_nil, Nat.one_mul,
      Nat.add_comm 1 top]
    exact holdsLevels_succ htop (holdsLevels_loop h top (by omega))

/-- **Slot `level l + i` of the array is node `i` of level `l` of the Merkle tree.** -/
theorem buildNodes_get (secrets : Bytes) (parameter : Parameter) {l i : Nat} (hl : l ≤ height)
    (hi : i < leaves >>> l) :
    ((SecretKey.buildNodes secrets parameter).eval keccak256).get (level l + i)
      = treeNode secrets parameter l i := by
  unfold SecretKey.buildNodes SecretKey.fillNodes
  rw [Oracle.eval_bind, Oracle.eval_foldlM, Oracle.eval_foldlM]
  exact holdsLevels_loop (holdsLevels_leaves secrets parameter _) height (le_refl _) l hl i hi

/-! ## The path -/

/-- The secret key that `from_secrets` builds. -/
def builtKey (secrets : Block (leaves * elementsLength)) (parameter : Parameter) : SecretKey :=
  ⟨secrets, parameter, (SecretKey.buildNodes secrets.toList parameter).eval keccak256⟩

theorem builtKey_nodes (secrets : Block (leaves * elementsLength)) (parameter : Parameter) :
    (builtKey secrets parameter).nodes
      = (SecretKey.buildNodes secrets.toList parameter).eval keccak256 := by
  unfold builtKey
  exact mk_nodes _ _ _

@[simp] theorem builtKey_secrets (secrets : Block (leaves * elementsLength))
    (parameter : Parameter) : (builtKey secrets parameter).secrets = secrets := (rfl)

@[simp] theorem builtKey_parameter (secrets : Block (leaves * elementsLength))
    (parameter : Parameter) : (builtKey secrets parameter).parameter = parameter := (rfl)

theorem eval_fromSecrets (secrets : Block (leaves * elementsLength)) (parameter : Parameter) :
    (SecretKey.fromSecrets secrets.toList parameter).eval keccak256
      = .ok (builtKey secrets parameter) := by
  have hlen : secrets.toList.length = leaves * elementsLength := List.Vector.toList_length secrets
  unfold SecretKey.fromSecrets builtKey
  rw [dif_pos hlen, Oracle.eval_bind, Oracle.eval_pure, mk_toList secrets hlen]

/-- The root of the tree. -/
theorem builtKey_root (secrets : Block (leaves * elementsLength)) (parameter : Parameter) :
    (builtKey secrets parameter).nodes.get (level height)
      = treeNode secrets.toList parameter height 0 := by
  rw [builtKey_nodes, ← Nat.add_zero (level height)]
  exact buildNodes_get secrets.toList parameter (le_refl height) (by decide)

theorem verifyingKey_builtKey (secrets : Block (leaves * elementsLength)) (parameter : Parameter) :
    (builtKey secrets parameter).verifyingKey
      = VerifyingKey.new (treeNode secrets.toList parameter height 0) parameter := by
  unfold SecretKey.verifyingKey
  rw [builtKey_root, builtKey_parameter]

/-- **The path slots hold the siblings of the leaf's ancestors.** -/
theorem path_chunk (secrets : Block (leaves * elementsLength)) (parameter : Parameter)
    {leaf : UInt32} (hleaf : leaf.toNat < leaves) {l : Nat} (hl : l < height) :
    chunk elementLength ((builtKey secrets parameter).path leaf).toList l
      = treeNode secrets.toList parameter l (siblingIndex (leaf.toNat / 2 ^ l)) := by
  have hchunk : chunk elementLength ((builtKey secrets parameter).path leaf).toList l
      = (builtKey secrets parameter).nodes.get (level l + ((leaf.toNat >>> l) ^^^ 1)) :=
    chunk_flatten (fun l : Fin height =>
      (builtKey secrets parameter).nodes.get (level l + ((leaf.toNat >>> l.val) ^^^ 1))) ⟨l, hl⟩
  rw [hchunk, xor_one_eq, Nat.shiftRight_eq_div_pow, builtKey_nodes]
  exact buildNodes_get secrets.toList parameter (le_of_lt hl) (siblingIndex_lt hleaf hl)

/-! ## Climbing -/

/-- **One round of the loop of `verify` is one step up the tree.** -/
theorem eval_climbStep (sig : Signature) (parameter : Parameter) (leaf : UInt32)
    (current : Element) {l : Nat} (hl : l < height) :
    (sig.climbStep parameter leaf current l).eval keccak256
      = (let p := childPair (leaf.toNat / 2 ^ l) current (chunk elementLength sig.path.toList l)
        makeNode parameter (l + 1) (leaf.toNat / 2 ^ (l + 1)) p.1 p.2) := by
  obtain ⟨hindex, hbit⟩ := shift_eq leaf hl
  unfold Signature.climbStep childPair
  by_cases hb : leaf.toNat / 2 ^ l % 2 = 0
  · simp only [hbit.mpr hb, hb, if_true, eval_node, hindex, makeNode]
  · simp only [mt hbit.mp hb, hb, if_false, eval_node, hindex, makeNode]

/-- The loop of `verify` climbs the tree. -/
theorem climb_loop (sig : Signature) (parameter : Parameter) (leaf : UInt32) (start : Element) :
    ∀ h ≤ height,
      (List.range h).foldl
          (fun current l => (sig.climbStep parameter leaf current l).eval keccak256) start
        = climb (makeNode parameter) leaf.toNat (fun l => chunk elementLength sig.path.toList l) h
            start
  | 0, _ => rfl
  | h + 1, hh => by
    rw [List.range_succ, List.foldl_append, List.foldl_cons, List.foldl_nil,
      climb_loop sig parameter leaf start h (by omega), eval_climbStep _ _ _ _ hh, climb]

end SolanaWinternitz.Xmss
