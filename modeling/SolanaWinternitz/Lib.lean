import SolanaWinternitz.Hash

/-!
# Encoding, chains and nodes (`src/lib.rs`)

The definitions follow the source one by one. A slice parameter that every caller fills with a
fixed number of bytes (the salt, the parameter `P`, a chain element) has that length in its type.

* `encode` — the target-sum digits of a salted message
* `Chain` — the 48-byte buffer that all 36 chains of a leaf share
* `leafHash`, `node` — the tree hashes
* `ends`, `sign` — the host-side `signing` module
-/

namespace SolanaWinternitz

open Infra

/-! ## Constants -/

/-- `CHAINS`: 36 four-bit digits from an 18-byte hash. -/
abbrev chains : Nat := 36
/-- `POSITIONS`: `2^w`, w = 4. -/
abbrev positions : UInt8 := 16
/-- `TARGET_SUM` -/
abbrev targetSum : UInt16 := 297
/-- `SALT_LENGTH` -/
abbrev saltLength : Nat := 21
/-- `PARAMETER_LEN` -/
abbrev parameterLen : Nat := 18
/-- `ELEMENT_LENGTH`: chain elements, leaves and nodes. -/
abbrev elementLength : Nat := 23
/-- `ELEMENTS_LENGTH` -/
abbrev elementsLength : Nat := chains * elementLength
/-- `ROLE_CHAIN`, the first byte of a chain tweak. -/
abbrev roleChain : UInt8 := 0
/-- `ROLE_TREE` -/
abbrev roleTree : UInt8 := 1
/-- `ROLE_MESSAGE` -/
abbrev roleMessage : UInt8 := 2
/-- `CHAIN_TWEAK_LENGTH`: `role ‖ leaf ‖ chain ‖ position`. -/
abbrev chainTweakLength : Nat := 7
/-- `TREE_TWEAK_LENGTH`: `role ‖ level ‖ index`. -/
abbrev treeTweakLength : Nat := 6
/-- `PUBLIC_KEY_LEN` -/
abbrev publicKeyLen : Nat := elementLength + parameterLen
/-- `MESSAGE_LEN` -/
abbrev messageLen : Nat := 32
/-- `signing::MAX_TRIALS` -/
abbrev maxTrials : Nat := 4096

abbrev Salt := Block saltLength
abbrev Parameter := Block parameterLen
abbrev Element := Block elementLength
abbrev Message := Block messageLen

/-- `[[u8; ELEMENT_LENGTH]; CHAINS]`: one element for each chain. -/
abbrev Elements := Fin chains → Element

/-- Signature verification failure. -/
inductive Error where
  | invalidSignature
  | invalidLength
deriving DecidableEq, Repr

/-! ## Public keys -/

/-- `root ‖ P`, 41 bytes. -/
structure VerifyingKey where
  bytes : Block publicKeyLen
deriving DecidableEq

namespace VerifyingKey

/-- `from_slice`: copy an encoding after checking its exact length. -/
def fromSlice (bytes : Bytes) : Except Error VerifyingKey :=
  if h : bytes.length = publicKeyLen then .ok ⟨⟨bytes, h⟩⟩ else .error .invalidLength

def new (node : Element) (parameter : Parameter) : VerifyingKey :=
  ⟨copyInto (copyInto (zeros publicKeyLen) 0 node.toList) elementLength parameter.toList⟩

def node (self : VerifyingKey) : Element := slice self.bytes.toList 0 elementLength

def parameter (self : VerifyingKey) : Parameter :=
  slice self.bytes.toList elementLength parameterLen

end VerifyingKey

/-! ## Encoding -/

theorem half_lt (i : Fin chains) : i.val / 2 < hashLength := by
  have hi : i.val < 36 := i.isLt
  show _ < 32
  omega

/-- The 36 low-first nibbles of a digest. -/
def digits (digest : Block hashLength) : Block chains :=
  List.Vector.ofFn fun i : Fin chains =>
    (digest.get ⟨i / 2, half_lt i⟩
      >>> UInt8.ofNat (4 * (i % 2))) &&& 0x0f

/-- Accept the 36 low-first nibbles iff their sum is `T`. The leaf index is little-endian here. -/
def encode (salt : Salt) (parameter : Parameter) (leaf : UInt32) (message : Message) :
    Hashing (Option (Block chains)) := do
  let tweak : Bytes := roleMessage :: (u32Le leaf).toList
  let digest ← hashv [salt.toList, parameter.toList, tweak, message.toList]
  let x := digits digest
  pure (if (x.toList.map UInt8.toUInt16).sum = targetSum then some x else none)

/-! ## Chains -/

/-- Offset of the tweak in the chain buffer. -/
abbrev Chain.tweak : Nat := parameterLen
abbrev Chain.index : Nat := Chain.tweak + 5
abbrev Chain.position : Nat := Chain.tweak + 6
abbrev Chain.value : Nat := Chain.tweak + chainTweakLength

/-- The buffer `P ‖ role ‖ leaf ‖ chain ‖ position ‖ value`, 48 bytes, hashed in one slice. -/
structure Chain where
  buf : Block (Chain.value + elementLength)
deriving DecidableEq

namespace Chain

/-- Overwrite part of the buffer. -/
def write (self : Chain) (off : Nat) (src : Bytes) : Chain := ⟨copyInto self.buf off src⟩

def new (parameter : Parameter) (leaf : UInt32) : Chain :=
  (((⟨zeros _⟩ : Chain).write 0 parameter.toList).write tweak [roleChain]).write (tweak + 1)
    (u32Be leaf).toList

/-- One round of the loop of `walk`: the step that enters position `k + 1`. -/
def walkStep (self : Chain) (k : Nat) : Hashing Chain := do
  let self := self.write position [UInt8.ofNat k + 1]
  let h ← hashv [self.buf.toList]
  pure (self.write value (fit elementLength h.toList).toList)

/-- Walk chain `i` from position `start` to position `stop`. -/
def walk (self : Chain) (i start stop : UInt8) (x : Element) : Hashing (Element × Chain) := do
  let self := self.write index [i]
  let self := self.write value x.toList
  let self ← (List.range' start.toNat (stop.toNat - start.toNat)).foldlM walkStep self
  pure (slice self.buf.toList value elementLength, self)

/-- One round of a loop over all chains: walk chain `i` and store the result in slot `i`. -/
def walkSlot (start stop : Fin chains → UInt8) (x : Elements) (st : Elements × Chain)
    (i : Fin chains) : Hashing (Elements × Chain) := do
  let (slot, self) ← st.2.walk (UInt8.ofNat i) (start i) (stop i) (x i)
  pure (Function.update st.1 i slot, self)

/-- The loop over all 36 chains, with one buffer. -/
def walkAll (self : Chain) (start stop : Fin chains → UInt8) (x : Elements) : Hashing Elements := do
  let (slots, _) ← (List.finRange chains).foldlM (walkSlot start stop x)
    ((fun _ => zeros elementLength), self)
  pure slots

/-- Each signature element walked from its digit to the end of its chain. -/
def ends (self : Chain) (x : Block chains) (elements : Block elementsLength) : Hashing Elements :=
  self.walkAll x.get (fun _ => positions - 1) (fun i => chunk elementLength elements.toList i)

end Chain

/-! ## Leaves and nodes -/

/-- `role ‖ level ‖ index` -/
def treeTweak (level : UInt8) (index : UInt32) : Block treeTweakLength :=
  copyInto (copyInto (copyInto (zeros treeTweakLength) 0 [roleTree]) 1 [level]) 2
    (u32Be index).toList

/-- Hash the 36 chain ends of a leaf. -/
def leafHash (parameter : Parameter) (leaf : UInt32) (ends : Elements) : Hashing Element := do
  let h ← hashv [parameter.toList, (treeTweak 0 leaf).toList, (flatten ends).toList]
  pure (fit elementLength h.toList)

/-- Hash two nodes into their parent. -/
def node (parameter : Parameter) (level : UInt8) (index : UInt32) (left right : Element) :
    Hashing Element := do
  let h ← hashv [parameter.toList, (treeTweak level index).toList, left.toList, right.toList]
  pure (fit elementLength h.toList)

/-! ## Signing -/

namespace Signing

/-- `secrets[offset..offset + ELEMENT_LENGTH]`, the start of chain `i` of a leaf. -/
def start (secrets : Bytes) (leaf : UInt32) (i : Fin chains) : Element :=
  slice secrets (leaf.toNat * elementsLength + i * elementLength) elementLength

/-- The 36 chain ends of a leaf, from its chain starts. -/
def ends (secrets : Bytes) (parameter : Parameter) (leaf : UInt32) : Hashing Elements :=
  (Chain.new parameter leaf).walkAll (fun _ => 0) (fun _ => positions - 1) (start secrets leaf)

/-- Sign with an already accepted salt. -/
def sign (secrets : Bytes) (parameter : Parameter) (leaf : UInt32) (message : Message)
    (salt : Salt) : Hashing (Option (Block elementsLength)) := do
  match ← encode salt parameter leaf message with
  | none => pure none
  | some x =>
    let elements ← (Chain.new parameter leaf).walkAll (fun _ => 0) x.get (start secrets leaf)
    pure (some (flatten elements))

end Signing

end SolanaWinternitz
