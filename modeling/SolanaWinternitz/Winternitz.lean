import SolanaWinternitz.OneTime

/-!
# One-leaf instance (`src/winternitz.rs`)

Construction 3 specialized to one leaf and an empty authentication path. A signature is
`salt ‖ elements`.
-/

namespace SolanaWinternitz.Winternitz

open Infra

/-- `SIGNATURE_LEN`, 849 bytes. -/
abbrev signatureLen : Nat := saltLength + elementsLength

/-- A one-time signature. -/
structure Signature where
  bytes : Block signatureLen
deriving DecidableEq

namespace Signature

/-- `from_slice` and `ref_from_bytes`. -/
def fromSlice (bytes : Bytes) : Except Error Signature :=
  if h : bytes.length = signatureLen then .ok ⟨⟨bytes, h⟩⟩ else .error .invalidLength

/-- `self.0[..SALT_LENGTH]` -/
def salt (self : Signature) : Salt := slice self.bytes.toList 0 saltLength

/-- `self.0[SALT_LENGTH..]` -/
def elements (self : Signature) : Block elementsLength :=
  slice self.bytes.toList saltLength elementsLength

/-- Verify at leaf zero. -/
def verify (self : Signature) (verifyingKey : VerifyingKey) (message : Message) :
    Hashing (Except Error Unit) := do
  let parameter := verifyingKey.parameter
  match ← encode self.salt parameter 0 message with
  | none => pure (.error .invalidSignature)
  | some x =>
    let ends ← (Chain.new parameter 0).ends x self.elements
    let leaf ← leafHash parameter 0 ends
    pure (if leaf = verifyingKey.node then .ok () else .error .invalidSignature)

end Signature

instance : SealedSignature Signature where
  asBytes self := self.bytes.toList
  leaf _ := 0
  salt self := self.salt
  elements self := self.elements
  path _ := []
  verifyDigest self key digest := self.verify key digest

/-- `OneTime::LEAVES` -/
abbrev leaves : Nat := 1

/-- `raw::SecretKey`; the length of `secrets` is the one `from_secrets` checks. -/
structure SecretKey where
  secrets : Block (leaves * elementsLength)
  parameter : Parameter
deriving DecidableEq

namespace SecretKey

def fromSecrets (secrets : Bytes) (parameter : Parameter) : Except Error SecretKey :=
  if h : secrets.length = leaves * elementsLength then .ok ⟨⟨secrets, h⟩, parameter⟩
  else .error .invalidLength

/-- `leaf ‖ P` -/
def verifyingKey (self : SecretKey) : Hashing VerifyingKey := do
  let ends ← Signing.ends self.secrets.toList self.parameter 0
  let leaf ← leafHash self.parameter 0 ends
  pure (VerifyingKey.new leaf self.parameter)

def signAtWithSalt (self : SecretKey) (leaf : UInt32) (message : Message) (salt : Salt) :
    Hashing (Option Signature) :=
  if leaf ≠ 0 then pure none
  else do
    match ← Signing.sign self.secrets.toList self.parameter 0 message salt with
    | none => pure none
    | some elements =>
      let sig := copyInto (zeros signatureLen) 0 salt.toList
      pure (some ⟨copyInto sig saltLength elements.toList⟩)

end SecretKey

instance : OneTime SecretKey where
  Signature := Signature
  sealedSignature := inferInstance
  leaves := 1
  height := 0
  fromSecrets secrets parameter := pure (SecretKey.fromSecrets secrets parameter)
  secrets self := self.secrets.toList
  verifyingKey := SecretKey.verifyingKey
  signAtWithSalt := SecretKey.signAtWithSalt

end SolanaWinternitz.Winternitz
