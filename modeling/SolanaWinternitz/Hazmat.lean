import SolanaWinternitz.Winternitz
import SolanaWinternitz.Xmss

/-!
# Raw signing with a random source (`src/hazmat.rs`)

* `generate` — Gen: sample the chain starts leaf by leaf, then `P`
* `sampleSalt` — at most 4096 salts, until one is accepted
* `signAt` — sample a salt and sign
-/

namespace SolanaWinternitz

open Infra Infra.Os

/-- The source that a caller passes in. -/
def callerFill : FillSource := fun n => orFail id (invoke (.fill n))

/-- `getrandom::fill`, with its error wrapped in `SigningError::Random`. -/
def osFill : FillSource := fun n => orFail .random (invoke (.random n))

/-- The secret-key type of an instance. -/
def Instance.SecretKey : Instance → Type
  | .winternitz => Winternitz.SecretKey
  | .xmss => Xmss.SecretKey

instance : (k : Instance) → OneTime k.SecretKey
  | .winternitz => inferInstanceAs (OneTime Winternitz.SecretKey)
  | .xmss => inferInstanceAs (OneTime Xmss.SecretKey)

variable [Keccak]

/-- One secret chunk for each leaf, in order. -/
def fillLeaves (fill : FillSource) : Nat → Fallible Bytes
  | 0 => pure []
  | n + 1 => do
    let leaf ← fill elementsLength
    let rest ← fillLeaves fill n
    pure (leaf.toList ++ rest)

def generate (K : Type) [OneTime K] (fill : FillSource) : Fallible K := do
  let secrets ← fillLeaves fill (OneTime.leaves K).toNat
  let parameter ← fill parameterLen
  match (OneTime.fromSecrets secrets parameter).eval keccak256 with
  | .ok key => pure key
  | .error _ => throw .corrupt

/-- At most `trials` rounds of the loop of `sample_salt`. -/
def sampleTrials (parameter : Parameter) (leaf : UInt32) (message : Message) (fill : FillSource) :
    Nat → Fallible Salt
  | 0 => throw .saltsExhausted
  | trials + 1 => do
    let salt ← fill saltLength
    if ((encode salt parameter leaf message).eval keccak256).isSome then pure salt
    else sampleTrials parameter leaf message fill trials

def sampleSalt (parameter : Parameter) (leaf : UInt32) (message : Message) (fill : FillSource) :
    Fallible Salt :=
  sampleTrials parameter leaf message fill maxTrials

/-- `ok_or(SigningError::Corrupt)` -/
def okOrCorrupt {α : Type} : Option α → Except SigningError α
  | some a => .ok a
  | none => .error .corrupt

def signAt {K : Type} [OneTime K] (key : K) (leaf : UInt32) (message : Message)
    (fill : FillSource) : Fallible (OneTime.Signature K) := do
  if leaf ≥ OneTime.leaves K then
    throw .invalidLeaf
  let parameter := ((OneTime.verifyingKey key).eval keccak256).parameter
  let salt ← sampleSalt parameter leaf message fill
  ExceptT.mk (pure (okOrCorrupt ((OneTime.signAtWithSalt key leaf message salt).eval keccak256)))

end SolanaWinternitz
