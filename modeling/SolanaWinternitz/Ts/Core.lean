import SolanaWinternitz.Hash
import SolanaWinternitz.Infra.Js
import SolanaWinternitz.Infra.Os

/-!
# The TypeScript package: `error.ts` and `core.ts`

The package is a second implementation. A `Uint8Array` is a byte string of any length, a number an
integer; the functions check and compute as the source does, with its offsets and bitwise operators.
`keccak_256` is the hash of the Rust crate.
-/

namespace SolanaWinternitz.Ts

open Infra Infra.Os Infra.Js

/-! ## Errors -/

inductive ErrorCode where
  | invalidLength
  | invalidEncoding
  | invalidSignature
deriving DecidableEq, Repr

/-- `messages` -/
def ErrorCode.text : ErrorCode → String
  | invalidLength => "invalid byte length"
  | invalidEncoding => "invalid encoding"
  | invalidSignature => "invalid signature"

structure CryptoError where
  code : ErrorCode
  message : String := code.text
deriving DecidableEq, Repr

inductive SigningErrorCode where
  /-- `Exists` -/
  | fileExists
  | missing
  | locked
  | corrupt
  | leafBelowMinimum
  | invalidLeaf
  | exhausted
  | saltsExhausted
  | random
  | unusable
  | io
deriving DecidableEq, Repr

/-- What is thrown and is no `SigningError`. -/
inductive Cause where
  | crypto (error : CryptoError)
  /-- A failed file call; the text is that of the system. -/
  | system (kind : IoError)
  /-- The random source of the system. -/
  | random (code : Nat)
  | other (text : String)
deriving DecidableEq, Repr

/-- The message of an error: a text, or that of the error that it wraps. -/
inductive ErrorMessage where
  | text (s : String)
  | ofCause (cause : Cause)
deriving DecidableEq, Repr

structure SigningError where
  code : SigningErrorCode
  message : ErrorMessage
deriving DecidableEq, Repr

/-- Anything that is thrown. -/
inductive Thrown where
  | signing (error : SigningError)
  | cause (cause : Cause)
deriving DecidableEq, Repr

/-- `new SigningError(code, text)` -/
def Thrown.of (code : SigningErrorCode) (text : String) : Thrown := .signing ⟨code, .text text⟩

def Thrown.crypto (e : CryptoError) : Thrown := .cause (.crypto e)

def signingError (error : Thrown) (code : SigningErrorCode) : SigningError :=
  match error with
  | .signing e => e
  | .cause c => ⟨code, .ofCause c⟩

/-- `throw signingError(error, code)` -/
def rethrow (code : SigningErrorCode) (error : Thrown) : Thrown :=
  .signing (signingError error code)

/-- The synchronous callback: what it leaves in a buffer of `n` bytes, unless it throws. -/
abbrev FillRandom (σ : Type) := (n : Nat) → Js Thrown σ (Block n)

/-! ## Constants -/

/-- `CHAINS` -/
abbrev chains : Nat := 36
/-- `POSITIONS` -/
abbrev positions : Nat := 16
/-- `ELEMENT_LENGTH` -/
abbrev elementLength : Nat := 23
/-- `SALT_LENGTH` -/
abbrev saltLength : Nat := 21
/-- `PARAMETER_LEN` -/
abbrev parameterLen : Nat := 18
/-- `ELEMENTS_LENGTH` -/
abbrev elementsLength : Nat := chains * elementLength
/-- `TARGET_SUM` -/
abbrev targetSum : Nat := 297
/-- `MAX_TRIALS` -/
abbrev maxTrials : Nat := 4096
/-- `ROLE_CHAIN` -/
abbrev roleChain : Int := 0
/-- `ROLE_TREE` -/
abbrev roleTree : Int := 1
/-- `ROLE_MESSAGE` -/
abbrev roleMessage : Int := 2
/-- `MESSAGE_LEN` -/
abbrev messageLen : Nat := 32
/-- `PUBLIC_KEY_LEN` -/
abbrev publicKeyLen : Nat := elementLength + parameterLen

/-! ## Byte strings -/

/-- `concat`: the parts are written into one array, each where the one before it ends. -/
def concat (parts : List Bytes) : Bytes :=
  let out := List.replicate (parts.foldl (fun n p => n + p.length) 0) 0
  (parts.foldl (fun (out, offset) p => (setBytes out offset p, offset + p.length)) (out, 0)).1

/-- `bytes`: a copy, if the length is right. -/
def bytes (value : Bytes) (length : Nat) (what : String) : Except CryptoError (Block length) :=
  if h : value.length = length then .ok ⟨value, h⟩
  else .error ⟨.invalidLength, s!"{what}: expected {length} bytes"⟩

/-- `Uint8Array.of` -/
def uint8Array (values : List Int) : Bytes := values.map toUint8

def u32be (n : Int) : Bytes := (u32Be (toUint32 n)).toList

def u32le (n : Int) : Bytes := (u32Le (toUint32 n)).toList

def equal (a b : Bytes) : Bool := a == b

/-! ## Hashing -/

variable [Keccak]

/-- `keccak_256` -/
def keccak (data : Bytes) : Bytes := (keccak256 data).toList

/-- Digit `i` of a digest. -/
def digit (digest : Bytes) (i : Int) : Int :=
  bitAnd (shiftRight (byteAt digest (shiftRight i 1)) (4 * bitAnd i 1)) 0x0f

def encode (salt parameter : Bytes) (leaf : Int) (message : Bytes) : Option Bytes :=
  let digest := keccak (concat [salt, parameter, uint8Array [roleMessage], u32le leaf, message])
  let x := uint8Array ((List.range chains).map fun (i : Nat) => digit digest i)
  if x.foldl (fun a b => a + b.toNat) 0 = targetSum then some x else none

/-- One round of the loop of `walk`. -/
def walkStep (parameter : Bytes) (leaf i : Int) (x : Bytes) (k : Nat) : Bytes :=
  subarray (keccak (concat [parameter, uint8Array [roleChain], u32be leaf,
    uint8Array [i, k + 1], x])) 0 elementLength

/-- `walk`, from position `start` to position `stop`. -/
def walk (parameter : Bytes) (leaf i : Int) (start stop : Nat) (x : Bytes) : Bytes :=
  (List.range' start (stop - start)).foldl (walkStep parameter leaf i) x

def treeTweak (level index : Int) : Bytes := concat [uint8Array [roleTree, level], u32be index]

def leafHash (parameter : Bytes) (leaf : Int) (ends : List Bytes) : Bytes :=
  subarray (keccak (concat (parameter :: treeTweak 0 leaf :: ends))) 0 elementLength

def node (parameter : Bytes) (level index : Int) (left right : Bytes) : Bytes :=
  subarray (keccak (concat [parameter, treeTweak level index, left, right])) 0 elementLength

omit [Keccak] in
/-- The start of chain `i` of a leaf. -/
def start (secrets : Bytes) (leaf i : Int) : Bytes :=
  let offset := leaf * elementsLength + i * elementLength
  subarray secrets offset (offset + elementLength)

def endsOf (secrets parameter : Bytes) (leaf : Int) : List Bytes :=
  (List.range chains).map fun (i : Nat) =>
    walk parameter leaf i 0 (positions - 1) (start secrets leaf i)

def endsFromSignature (parameter : Bytes) (leaf : Int) (x elements : Bytes) : List Bytes :=
  (List.range chains).map fun (i : Nat) =>
    walk parameter leaf i (byteAt x i).toNat (positions - 1)
      (subarray elements (i * elementLength) ((i + 1) * elementLength))

/-! ## Signing -/

def signLeaf (secrets parameter : Bytes) (leaf : Int) (message salt : Bytes) :
    Except CryptoError Bytes :=
  match encode salt parameter leaf message with
  | none => .error ⟨.invalidEncoding, "salt misses the target sum"⟩
  | some x =>
    let elements := (List.range chains).map fun (i : Nat) =>
      walk parameter leaf i 0 (byteAt x i).toNat (start secrets leaf i)
    .ok (concat (salt :: elements))

/-- At most `trials` rounds of the loop of `sampleSalt`. -/
def sampleTrials {σ : Type} (parameter : Bytes) (leaf : Int) (message : Bytes)
    (fill : FillRandom σ) :
    Nat → Js Thrown σ Bytes
  | 0 => raise (.of .saltsExhausted "4096 salts missed the target sum; the leaf is spent")
  | trials + 1 => do
    let salt ← onThrow (fill saltLength) fun e => raise (rethrow .random e)
    if (encode salt.toList parameter leaf message).isSome then pure salt.toList
    else sampleTrials parameter leaf message fill trials

def sampleSalt {σ : Type} (parameter : Bytes) (leaf : Int) (message : Bytes) (fill : FillRandom σ) :
    Js Thrown σ Bytes :=
  sampleTrials parameter leaf message fill maxTrials

omit [Keccak] in
/-- The loop of `generateKey`: `rounds` leaves from `offset` on. -/
def fillSecrets {σ : Type} (fill : FillRandom σ) : Nat → Nat → Bytes → Js Thrown σ Bytes
  | 0, _, secrets => pure secrets
  | rounds + 1, offset, secrets => do
    let chunk ← fill elementsLength
    fillSecrets fill rounds (offset + elementsLength) (setBytes secrets offset chunk.toList)

omit [Keccak] in
def generateKey {σ K : Type} (leaves : Nat) (fromSecrets : Bytes → Bytes → Except CryptoError K)
    (fill : FillRandom σ) : Js Thrown σ K :=
  onThrow (do
      let secrets ← fillSecrets fill leaves 0 (List.replicate (leaves * elementsLength) 0)
      let parameter ← fill parameterLen
      ofExcept .crypto (fromSecrets secrets parameter.toList))
    fun e => raise (rethrow .random e)

end SolanaWinternitz.Ts
