import SolanaWinternitz.OneTime
import SolanaWinternitz.Ts.VerifyingKey

/-!
# The TypeScript package: `hazmat/winternitz.ts` and `hazmat/xmss.ts`

The secret keys of the two instances, and the interface `OneTime` of `signing-key.ts` that they
implement.
-/

namespace SolanaWinternitz.Ts

open Infra Infra.Js

variable [Keccak]

/-- `OneTime` and `KeyType` -/
class OneTime (K : Type) where
  Signature : Type
  /-- `toBytes` of a signature. -/
  toBytes : Signature → Bytes
  /-- `leaves` and `LEAVES` -/
  leaves : Nat
  /-- `height` and `HEIGHT` -/
  height : Nat
  fromSecrets : Bytes → Bytes → Except CryptoError K
  secrets : K → Bytes
  verifyingKey : K → Except CryptoError VerifyingKey
  signAtWithSalt : K → Number → Bytes → Bytes → Except CryptoError Signature

/-- `static generate` -/
def generate (K : Type) [OneTime K] {σ : Type} (fill : FillRandom σ) : Js Thrown σ K :=
  generateKey (OneTime.leaves K) OneTime.fromSecrets fill

/-- `signAt`, with the parameter that the key keeps. -/
def signAt {K : Type} [OneTime K] {σ : Type} (key : K) (parameter : Bytes) (leaf : Number)
    (message : Bytes) (fill : FillRandom σ) : Js Thrown σ (OneTime.Signature K) :=
  let refuse : Js Thrown σ (OneTime.Signature K) :=
    raise (.of .invalidLeaf "leaf index is outside this instance")
  match leaf with
  | .other => refuse
  | .integer n =>
    if n < 0 ∨ n ≥ OneTime.leaves K then refuse
    else do
      let digest ← ofExcept .crypto (bytes message messageLen "message")
      let salt ← sampleSalt parameter n digest.toList fill
      ofExcept .crypto (OneTime.signAtWithSalt key leaf digest.toList salt)

/-! ## The one-leaf instance -/

namespace Winternitz

/-- `SecretKey.LEAVES` -/
abbrev leaves : Nat := 1
/-- `HEIGHT` -/
abbrev height : Nat := 0

structure SecretKey where
  secrets : Block (leaves * elementsLength)
  parameter : Block parameterLen
deriving DecidableEq

namespace SecretKey

omit [Keccak] in
def fromSecrets (secrets parameter : Bytes) : Except CryptoError SecretKey := do
  let secrets ← bytes secrets (leaves * elementsLength) "chain starts"
  let parameter ← bytes parameter parameterLen "parameter"
  pure ⟨secrets, parameter⟩

def verifyingKey (self : SecretKey) : Except CryptoError VerifyingKey :=
  let secrets := self.secrets.toList
  let parameter := self.parameter.toList
  VerifyingKey.fromBytes (concat [leafHash parameter 0 (endsOf secrets parameter 0), parameter])

def signAtWithSalt (self : SecretKey) (leaf : Number) (message salt : Bytes) :
    Except CryptoError Signature :=
  if leaf ≠ .integer 0 then .error ⟨.invalidEncoding, "leaf: expected 0"⟩
  else do
    let message ← bytes message messageLen "message"
    let salt ← bytes salt saltLength "salt"
    let encoded ← signLeaf self.secrets.toList self.parameter.toList 0 message.toList salt.toList
    Signature.fromBytes encoded

end SecretKey

instance : OneTime SecretKey where
  Signature := Signature
  toBytes := Signature.toBytes
  leaves := leaves
  height := height
  fromSecrets := SecretKey.fromSecrets
  secrets self := self.secrets.toList
  verifyingKey := SecretKey.verifyingKey
  signAtWithSalt := SecretKey.signAtWithSalt

end Winternitz

/-! ## The 256-leaf instance -/

namespace Xmss

/-- An array of nodes; an element that was not written yet counts as empty. -/
abbrev Nodes := Int → Bytes

def levelOffset (l : Int) : Int := 2 * leaves - shiftLeft 2 (height - l)

structure SecretKey where
  secrets : Block (leaves * elementsLength)
  parameter : Block parameterLen
  /-- Level-major: leaves first, root last. -/
  nodes : Nodes

namespace SecretKey

/-- One round of the first loop of the constructor. -/
def leafStep (secrets parameter : Bytes) (nodes : Nodes) (leaf : Nat) : Nodes :=
  Function.update nodes leaf (leafHash parameter leaf (endsOf secrets parameter leaf))

/-- One round of the inner loop over a level: node `i` of level `l`. -/
def nodeStep (parameter : Bytes) (l : Nat) (nodes : Nodes) (i : Nat) : Nodes :=
  let child := levelOffset (l - 1) + 2 * i
  Function.update nodes (levelOffset l + i)
    (node parameter l i (nodes child) (nodes (child + 1)))

/-- All nodes of level `l`. -/
def levelStep (parameter : Bytes) (nodes : Nodes) (l : Nat) : Nodes :=
  (List.range (shiftRight leaves l).toNat).foldl (nodeStep parameter l) nodes

/-- The loops of the constructor. -/
def buildNodes (secrets parameter : Bytes) : Nodes :=
  let nodes := (List.range leaves).foldl (leafStep secrets parameter) fun _ => []
  (List.range' 1 height).foldl (levelStep parameter) nodes

def fromSecrets (secrets parameter : Bytes) : Except CryptoError SecretKey := do
  let secrets ← bytes secrets (leaves * elementsLength) "chain starts"
  let parameter ← bytes parameter parameterLen "parameter"
  pure ⟨secrets, parameter, buildNodes secrets.toList parameter.toList⟩

omit [Keccak] in
def verifyingKey (self : SecretKey) : Except CryptoError VerifyingKey :=
  VerifyingKey.fromBytes (concat [self.nodes (levelOffset height), self.parameter.toList])

omit [Keccak] in
/-- The authentication path of a leaf. -/
def path (self : SecretKey) (leaf : Int) : List Bytes :=
  (List.range height).map fun (l : Nat) =>
    self.nodes (levelOffset l + bitXor (shiftRight leaf l) 1)

def signAtWithSalt (self : SecretKey) (leaf : Number) (message salt : Bytes) :
    Except CryptoError Signature :=
  let refuse : Except CryptoError Signature :=
    .error ⟨.invalidEncoding, s!"leaf: expected 0..{leaves}"⟩
  match leaf with
  | .other => refuse
  | .integer n =>
    if n < 0 ∨ n ≥ leaves then refuse
    else do
      let path := self.path n
      let message ← bytes message messageLen "message"
      let salt ← bytes salt saltLength "salt"
      let signed ← signLeaf self.secrets.toList self.parameter.toList n message.toList salt.toList
      Signature.fromBytes (concat (u32be n :: signed :: path))

end SecretKey

instance : OneTime SecretKey where
  Signature := Signature
  toBytes := Signature.toBytes
  leaves := leaves
  height := height
  fromSecrets := SecretKey.fromSecrets
  secrets self := self.secrets.toList
  verifyingKey := SecretKey.verifyingKey
  signAtWithSalt := SecretKey.signAtWithSalt

end Xmss

/-! ## Random sources -/

def Winternitz.SecretKey.generate {σ : Type} : FillRandom σ → Js Thrown σ Winternitz.SecretKey :=
  Ts.generate Winternitz.SecretKey

def Winternitz.SecretKey.signAt {σ : Type} (self : Winternitz.SecretKey) (leaf : Number)
    (message : Bytes) (fill : FillRandom σ) : Js Thrown σ Winternitz.Signature :=
  Ts.signAt self self.parameter.toList leaf message fill

def Xmss.SecretKey.generate {σ : Type} : FillRandom σ → Js Thrown σ Xmss.SecretKey :=
  Ts.generate Xmss.SecretKey

def Xmss.SecretKey.signAt {σ : Type} (self : Xmss.SecretKey) (leaf : Number)
    (message : Bytes) (fill : FillRandom σ) : Js Thrown σ Xmss.Signature :=
  Ts.signAt self self.parameter.toList leaf message fill

/-- The secret-key type of an instance. -/
def SecretKey : Instance → Type
  | .winternitz => Winternitz.SecretKey
  | .xmss => Xmss.SecretKey

instance : (k : Instance) → OneTime (SecretKey k)
  | .winternitz => inferInstanceAs (OneTime Winternitz.SecretKey)
  | .xmss => inferInstanceAs (OneTime Xmss.SecretKey)

/-- `signAt` of the secret key of an instance. -/
def SecretKey.signAt {σ : Type} : (k : Instance) → SecretKey k → Number → Bytes → FillRandom σ →
    Js Thrown σ (OneTime.Signature (SecretKey k))
  | .winternitz => Winternitz.SecretKey.signAt
  | .xmss => Xmss.SecretKey.signAt

end SolanaWinternitz.Ts
