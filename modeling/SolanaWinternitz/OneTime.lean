import SolanaWinternitz.Infra.Os
import SolanaWinternitz.Infra.Prog
import SolanaWinternitz.Lib

/-!
# Instances (`sealed` in `src/lib.rs`, `OneTime` and `SigningError` in `src/signer.rs`)

Verification dispatches on the signature type, signing on the secret-key type. Both traits are
sealed to two implementations, `Winternitz` with one leaf and `Xmss` with 256.
-/

namespace SolanaWinternitz

open Infra Infra.Os

/-- Key-file or signing failure. No signature is returned on error. -/
inductive SigningError where
  /-- `Exists`: `create` on an existing key file. -/
  | fileExists
  | missing
  | locked
  | corrupt
  | leafBelowMinimum (nextLeaf minimum : UInt32)
  | invalidLeaf
  | exhausted
  | saltsExhausted
  | random (code : Nat)
  | unusable
  | io (kind : IoError)
deriving DecidableEq, Repr

/-- The two instances. -/
inductive Instance where
  | winternitz
  | xmss
deriving DecidableEq, Repr

/-- `sealed::Signature`, with the bytes of the encoding and the leaf they name. -/
class SealedSignature (S : Type) where
  /-- `as_bytes` -/
  asBytes : S → Bytes
  /-- The unverified leaf index, zero for the one-leaf instance. -/
  leaf : S → UInt32
  salt : S → Salt
  elements : S → Block elementsLength
  /-- The authentication path, empty for the one-leaf instance. -/
  path : S → Bytes
  verifyDigest : S → VerifyingKey → Message → Hashing (Except Error Unit)

/-- `VerifyingKey::verify`: the signature type selects the instance. -/
def VerifyingKey.verify {S : Type} [SealedSignature S] (self : VerifyingKey) (digest : Message)
    (signature : S) : Hashing (Except Error Unit) :=
  SealedSignature.verifyDigest signature self digest

theorem VerifyingKey.verify_mk {S : Type} (asBytes : S → Bytes) (leaf : S → UInt32)
    (salt : S → Salt)
    (elements : S → Block elementsLength) (path : S → Bytes)
    (verifyDigest : S → VerifyingKey → Message → Hashing (Except Error Unit))
    (self : VerifyingKey) (digest : Message) (signature : S) :
    @VerifyingKey.verify S ⟨asBytes, leaf, salt, elements, path, verifyDigest⟩ self digest signature
      = verifyDigest signature self digest := rfl

/-- Raw Construction 3 operations of a secret-key type. -/
class OneTime (K : Type) where
  Signature : Type
  sealedSignature : SealedSignature Signature
  /-- Leaves per key: 1 or 256. -/
  leaves : UInt32
  /-- Tree height; also the key-file instance tag. -/
  height : UInt8
  fromSecrets : Bytes → Parameter → Hashing (Except Error K)
  secrets : K → Bytes
  verifyingKey : K → Hashing VerifyingKey
  /-- Sign with an accepted salt. `none` for an invalid leaf or encoding. -/
  signAtWithSalt : K → UInt32 → Message → Salt → Hashing (Option Signature)

attribute [reducible, instance] OneTime.sealedSignature

/-! ## Programs of the host side -/

/-- A program that makes file calls and asks for random bytes. -/
abbrev Action (α : Type) : Type := Prog (Call String) (Answer SigningError) α

/-- Make one call. -/
abbrev invoke (c : Call String) : Action (Answer SigningError c) := Prog.perform c

/-- A function that returns a `Result<_, SigningError>`. -/
abbrev Fallible (α : Type) : Type := ExceptT SigningError Action α

/-- `map_err` and `?` on the result of a call. -/
def orFail {ε α : Type} (f : ε → SigningError) (p : Action (Except ε α)) : Fallible α :=
  ExceptT.mk do pure ((← p).mapError f)

/-- `FnMut(&mut [u8]) -> Result<(), SigningError>`: a source of random bytes. -/
abbrev FillSource := (n : Nat) → Fallible (Block n)

end SolanaWinternitz
