import SolanaWinternitz.OneTime

/-!
# The 256-leaf instance (`src/xmss.rs`)

A signature is `leaf ‖ salt ‖ elements ‖ path`, the leaf as a big-endian `u32`. A secret key caches
its Merkle tree in one array, level by level, the leaves first and the root last.

The array is read and written at computed indices. `Nodes.get` and `Nodes.set` take any index; an
index outside the array, where Rust panics, reads zeros and writes nothing. `level_add_lt` says
that the indices used are inside.
-/

namespace SolanaWinternitz.Xmss

open Infra

/-- `HEIGHT` -/
abbrev height : Nat := 8
/-- `LEAVES` -/
abbrev leaves : Nat := 1 <<< height
/-- `SIGNATURE_LEN`, 1,037 bytes. -/
abbrev signatureLen : Nat := 4 + saltLength + elementsLength + height * elementLength
/-- `SALT` -/
abbrev saltOffset : Nat := 4
/-- `ELEMENTS` -/
abbrev elementsOffset : Nat := saltOffset + saltLength
/-- `PATH` -/
abbrev pathOffset : Nat := elementsOffset + elementsLength

/-- A signature under one leaf. -/
structure Signature where
  bytes : Block signatureLen
deriving DecidableEq

namespace Signature

/-- `from_slice` and `ref_from_bytes`. -/
def fromSlice (bytes : Bytes) : Except Error Signature :=
  if h : bytes.length = signatureLen then .ok ⟨⟨bytes, h⟩⟩ else .error .invalidLength

/-- The unverified leaf index. -/
def leaf (self : Signature) : UInt32 := u32OfBe (slice self.bytes.toList 0 saltOffset)

/-- `self.0[SALT..ELEMENTS]` -/
def salt (self : Signature) : Salt := slice self.bytes.toList saltOffset saltLength

/-- `self.0[ELEMENTS..PATH]` -/
def elements (self : Signature) : Block elementsLength :=
  slice self.bytes.toList elementsOffset elementsLength

/-- `self.0[PATH..]` -/
def path (self : Signature) : Block (height * elementLength) :=
  slice self.bytes.toList pathOffset (height * elementLength)

/-- One round of the loop of `verify`: from level `l` to level `l + 1`. -/
def climbStep (self : Signature) (parameter : Parameter) (leaf : UInt32) (current : Element)
    (l : Nat) : Hashing Element :=
  let level := UInt8.ofNat (l + 1)
  let sibling := chunk elementLength self.path.toList l
  let index := leaf >>> level.toUInt32
  if (leaf >>> (level - 1).toUInt32) &&& 1 = 0 then node parameter level index current sibling
  else node parameter level index sibling current

/-- Verify the chains and the authentication path. -/
def verify (self : Signature) (verifyingKey : VerifyingKey) (message : Message) :
    Hashing (Except Error Unit) := do
  let leaf := self.leaf
  if leaf ≥ UInt32.ofNat leaves then
    pure (.error .invalidSignature)
  else
    let parameter := verifyingKey.parameter
    match ← encode self.salt parameter leaf message with
    | none => pure (.error .invalidSignature)
    | some x =>
      let ends ← (Chain.new parameter leaf).ends x self.elements
      let current ← leafHash parameter leaf ends
      let current ← (List.range height).foldlM (self.climbStep parameter leaf) current
      pure (if current = verifyingKey.node then .ok () else .error .invalidSignature)

end Signature

instance : SealedSignature Signature where
  asBytes self := self.bytes.toList
  leaf self := self.leaf
  salt self := self.salt
  elements self := self.elements
  path self := self.path.toList
  verifyDigest self key digest := self.verify key digest

/-! ## The node array -/

/-- `[[u8; ELEMENT_LENGTH]; 2 * LEAVES - 1]` -/
abbrev Nodes := Fin (2 * leaves - 1) → Element

def Nodes.get (nodes : Nodes) (i : Nat) : Element :=
  if h : i < 2 * leaves - 1 then nodes ⟨i, h⟩ else zeros elementLength

def Nodes.set (nodes : Nodes) (i : Nat) (value : Element) : Nodes :=
  fun j => if j.val = i then value else nodes j

/--
A node array as the loops of `from_secrets` use it. Reading a slot gives the array back, so that
another array can keep a log of its accesses.
-/
class Slots (A : Type) where
  get : A → Nat → Element × A
  set : A → Nat → Element → A

instance : Slots Nodes where
  get nodes i := (nodes.get i, nodes)
  set := Nodes.set

@[simp] theorem Slots.get_nodes (nodes : Nodes) (i : Nat) :
    Slots.get nodes i = (nodes.get i, nodes) := rfl

@[simp] theorem Slots.set_nodes (nodes : Nodes) (i : Nat) (value : Element) :
    Slots.set nodes i value = nodes.set i value := rfl

/-- Where level `l` starts in the node array. -/
def level (l : Nat) : Nat := 2 * leaves - (2 <<< (height - l))

/-- A level starts where the level below it ends. -/
theorem level_succ {l : Nat} (hl : l < height) : level (l + 1) = level l + leaves >>> l := by
  have hall : ∀ l < 8, level (l + 1) = level l + leaves >>> l := by decide
  exact hall l hl

theorem leaves_shift {l : Nat} (hl : l ≤ height) : leaves >>> l = 2 ^ (height - l) := by
  have hall : ∀ l ≤ 8, leaves >>> l = 2 ^ (8 - l) := by decide
  exact hall l hl

/-- A level has half as many nodes as the level below it. -/
theorem leaves_shift_succ {l : Nat} (hl : l < height) :
    leaves >>> l = 2 * (leaves >>> (l + 1)) := by
  rw [leaves_shift (le_of_lt hl), leaves_shift hl, ← Nat.pow_succ']
  congr 1
  omega

theorem level_mono {l l' : Nat} (h : l < l') (h8 : l' ≤ height) :
    level l + leaves >>> l ≤ level l' := by
  induction l', h using Nat.le_induction with
  | base => exact le_of_eq (level_succ h8).symm
  | succ l' hle ih =>
    rw [level_succ h8]
    exact le_trans (ih (le_of_lt h8)) (Nat.le_add_right _ _)

theorem level_add_le {l : Nat} (hl : l ≤ height) : level l + leaves >>> l ≤ 2 * leaves - 1 := by
  rcases Nat.lt_or_eq_of_le hl with hlt | rfl
  · exact le_trans (level_mono hlt (le_refl height)) (by decide)
  · decide

/-- The indices of level `l` are inside the array. -/
theorem level_add_lt {l i : Nat} (hl : l ≤ height) (hi : i < leaves >>> l) :
    level l + i < 2 * leaves - 1 :=
  lt_of_lt_of_le (Nat.add_lt_add_left hi _) (level_add_le hl)

/-! ## Secret keys -/

/-- `raw::SecretKey`; the length of `secrets` is the one `from_secrets` checks. -/
structure SecretKey where
  secrets : Block (leaves * elementsLength)
  parameter : Parameter
  /-- Level-major: leaves first, root last. -/
  nodes : Nodes
deriving DecidableEq

namespace SecretKey

section

variable {A : Type} [Slots A]

/-- One round of the first loop of `from_secrets`: the node of one leaf. -/
def leafStep (secrets : Bytes) (parameter : Parameter) (nodes : A) (leaf : Nat) : Hashing A := do
  let ends ← Signing.ends secrets parameter (UInt32.ofNat leaf)
  let h ← leafHash parameter (UInt32.ofNat leaf) ends
  pure (Slots.set nodes leaf h)

/-- One round of the inner loop over a level: node `i` of level `l`. -/
def nodeStep (parameter : Parameter) (l : Nat) (nodes : A) (i : Nat) : Hashing A := do
  let child := level (l - 1) + 2 * i
  let (left, nodes) := Slots.get nodes child
  let (right, nodes) := Slots.get nodes (child + 1)
  let h ← node parameter (UInt8.ofNat l) (UInt32.ofNat i) left right
  pure (Slots.set nodes (level l + i) h)

/-- All nodes of level `l`. -/
def levelStep (parameter : Parameter) (nodes : A) (l : Nat) : Hashing A :=
  (List.range (leaves >>> l)).foldlM (nodeStep parameter l) nodes

/-- The loops of `from_secrets`. -/
def fillNodes (secrets : Bytes) (parameter : Parameter) (nodes : A) : Hashing A := do
  let nodes ← (List.range leaves).foldlM (leafStep secrets parameter) nodes
  (List.range' 1 height).foldlM (levelStep parameter) nodes

end

/-- The array that `from_secrets` starts from, filled by its loops. -/
def buildNodes (secrets : Bytes) (parameter : Parameter) : Hashing Nodes :=
  fillNodes secrets parameter fun _ => zeros elementLength

def fromSecrets (secrets : Bytes) (parameter : Parameter) : Hashing (Except Error SecretKey) :=
  if h : secrets.length = leaves * elementsLength then do
    let nodes ← buildNodes secrets parameter
    pure (.ok ⟨⟨secrets, h⟩, parameter, nodes⟩)
  else pure (.error .invalidLength)

/-- `root ‖ P` -/
def verifyingKey (self : SecretKey) : VerifyingKey :=
  VerifyingKey.new (self.nodes.get (level height)) self.parameter

/-- The loop over the path slots: the sibling at each level. -/
def path (self : SecretKey) (leaf : UInt32) : Block (height * elementLength) :=
  flatten fun l : Fin height =>
    let sibling := (leaf.toNat >>> l.val) ^^^ 1
    self.nodes.get (level l + sibling)

def signAtWithSalt (self : SecretKey) (leaf : UInt32) (message : Message) (salt : Salt) :
    Hashing (Option Signature) :=
  if leaf ≥ UInt32.ofNat leaves then pure none
  else do
    match ← Signing.sign self.secrets.toList self.parameter leaf message salt with
    | none => pure none
    | some elements =>
      let sig := copyInto (zeros signatureLen) 0 (u32Be leaf).toList
      let sig := copyInto sig saltOffset salt.toList
      let sig := copyInto sig elementsOffset elements.toList
      pure (some ⟨copyInto sig pathOffset (self.path leaf).toList⟩)

end SecretKey

instance : OneTime SecretKey where
  Signature := Signature
  sealedSignature := inferInstance
  leaves := UInt32.ofNat leaves
  height := UInt8.ofNat height
  fromSecrets := SecretKey.fromSecrets
  secrets self := self.secrets.toList
  verifyingKey self := pure self.verifyingKey
  signAtWithSalt := SecretKey.signAtWithSalt

end SolanaWinternitz.Xmss
