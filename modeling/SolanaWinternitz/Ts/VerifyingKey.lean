import SolanaWinternitz.Ts.Core

/-!
# The TypeScript package: `winternitz.ts`, `xmss.ts` and `verifying-key.ts`

One function verifies the signatures of both instances, with offsets that depend on the instance.
-/

namespace SolanaWinternitz.Ts

open Infra Infra.Js

/-! ## Signatures -/

namespace Winternitz

/-- `SIGNATURE_LEN` -/
abbrev signatureLen : Nat := saltLength + elementsLength

structure Signature where
  bytes : Block signatureLen
deriving DecidableEq

namespace Signature

def fromBytes (value : Bytes) : Except CryptoError Signature :=
  (Ts.bytes value signatureLen "signature").map Signature.mk

def toBytes (self : Signature) : Bytes := self.bytes.toList

end Signature

end Winternitz

namespace Xmss

/-- `HEIGHT` -/
abbrev height : Nat := 8
/-- `LEAVES`, `1 << HEIGHT` -/
abbrev leaves : Nat := 1 <<< height
/-- `SIGNATURE_LEN` -/
abbrev signatureLen : Nat := 4 + saltLength + elementsLength + height * elementLength

structure Signature where
  bytes : Block signatureLen
deriving DecidableEq

namespace Signature

def fromBytes (value : Bytes) : Except CryptoError Signature :=
  (Ts.bytes value signatureLen "signature").map Signature.mk

def toBytes (self : Signature) : Bytes := self.bytes.toList

/-- `getUint32(0, false)` -/
def leaf (self : Signature) : Int := (u32OfBe (slice self.bytes.toList 0 4)).toNat

end Signature

end Xmss

/-- What `verify` is given: a signature of one of the instances, or anything else. -/
inductive AnySignature where
  | winternitz (signature : Winternitz.Signature)
  | xmss (signature : Xmss.Signature)
  | other

/-! ## Verifying keys -/

structure VerifyingKey where
  bytes : Block publicKeyLen
deriving DecidableEq

namespace VerifyingKey

def fromBytes (value : Bytes) : Except CryptoError VerifyingKey :=
  (Ts.bytes value publicKeyLen "verifying key").map VerifyingKey.mk

def toBytes (self : VerifyingKey) : Bytes := self.bytes.toList

variable [Keccak]

/-- One round of the loop of `verify`, at level `level`. -/
def climbStep (parameter encoded : Bytes) (leaf path : Int) (current : Bytes) (level : Nat) :
    Bytes :=
  let sibling := subarray encoded (path + (level - 1) * elementLength)
    (path + level * elementLength)
  let index := shiftRight leaf level
  if bitAnd (shiftRight leaf (level - 1)) 1 ≠ 0 then node parameter level index sibling current
  else node parameter level index current sibling

/-- `verify` once the signature is known to be of an instance. -/
def verifyEncoded (self : VerifyingKey) (digest : Bytes) (isXmss : Bool) (encoded : Bytes)
    (leaf : Int) : Except CryptoError Unit :=
  if leaf ≥ Xmss.leaves then .error { code := .invalidSignature }
  else
    let salt : Int := if isXmss then 4 else 0
    let elements := salt + saltLength
    let path := elements + elementsLength
    let parameter := subarrayFrom self.bytes.toList elementLength
    match encode (subarray encoded salt elements) parameter leaf digest with
    | none => .error { code := .invalidSignature }
    | some x =>
      let current := leafHash parameter leaf
        (endsFromSignature parameter leaf x (subarray encoded elements path))
      let current :=
        if isXmss then
          (List.range' 1 Xmss.height).foldl (climbStep parameter encoded leaf path) current
        else current
      if equal current (subarray self.bytes.toList 0 elementLength) then .ok ()
      else .error { code := .invalidSignature }

def verify (self : VerifyingKey) (message : Bytes) (signature : AnySignature) :
    Except CryptoError Unit := do
  let digest ← Ts.bytes message messageLen "message"
  match signature with
  | .other => .error { code := .invalidSignature }
  | .winternitz signature => self.verifyEncoded digest.toList false signature.toBytes 0
  | .xmss signature => self.verifyEncoded digest.toList true signature.toBytes signature.leaf

end VerifyingKey

end SolanaWinternitz.Ts
