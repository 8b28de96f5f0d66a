import SolanaWinternitz.Infra.Bytes
import SolanaWinternitz.Infra.Oracle

/-!
# Hashing (`src/hash.rs`)

Everything in the crate hashes through `hashv`, Keccak-256 of the concatenation of slices. The
hash is a parameter: `Keccak` holds any function from byte strings to 32 bytes, and a theorem
about an arbitrary `Keccak` is a theorem about every hash.

The functions of the crate are computations that ask for hashes, so that the hash inputs they
use can be listed (`Oracle.asked`) as well as their results computed (`Oracle.eval`).
-/

namespace SolanaWinternitz

open Infra

/-- `HASH_LENGTH` -/
abbrev hashLength : Nat := 32

/-- The hash function. -/
class Keccak where
  keccak256 : Bytes → Block hashLength

export Keccak (keccak256)

/-- A computation that hashes. -/
abbrev Hashing (α : Type) : Type := Oracle Bytes (Block hashLength) α

/-- Keccak-256 of the concatenation of `data`. -/
def hashv (data : List Bytes) : Hashing (Block hashLength) := Oracle.ask data.flatten

@[simp] theorem eval_hashv [Keccak] (data : List Bytes) :
    (hashv data).eval keccak256 = keccak256 data.flatten := Oracle.eval_ask _ _

@[simp] theorem asked_hashv [Keccak] (data : List Bytes) :
    (hashv data).asked keccak256 = [data.flatten] := Oracle.asked_ask _ _

end SolanaWinternitz
