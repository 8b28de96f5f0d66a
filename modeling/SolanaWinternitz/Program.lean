import SolanaWinternitz.Hazmat

/-!
# The on-chain program (`program/src/lib.rs`)

One account of 74 bytes holds an instance tag, a public key and a bitmap of used leaves. Instruction
0 or 1 registers a key, instruction 2 verifies a signature and marks its leaf.

The account data is a state that is kept when an instruction fails, so that a theorem has to say
that a failed instruction has not written to it. The borrow of the data cannot fail: an instruction
borrows it once.
-/

namespace SolanaWinternitz.Program

open Infra

/-- `KEY_END` -/
abbrev keyEnd : Nat := 1 + publicKeyLen
/-- `KEY_ACCOUNT_LEN`: instance tag, public key, and a 256-bit used-leaf bitmap. -/
abbrev keyAccountLen : Nat := keyEnd + 32

/-- `solana_program_error::ProgramError`, as far as it is used. -/
inductive ProgramError where
  | notEnoughAccountKeys
  | incorrectProgramId
  | invalidAccountData
  | invalidInstructionData
  | missingRequiredSignature
  | accountAlreadyInitialized
  | uninitializedAccount
  | custom (code : UInt32)
deriving DecidableEq, Repr

abbrev Pubkey := Block 32

/-- `solana_account_info::AccountInfo`, as far as it is used. -/
structure AccountInfo where
  owner : Pubkey
  isSigner : Bool
  isWritable : Bool
  data : Bytes

/-- The data of a key account. -/
abbrev KeyAccount := Block keyAccountLen

/-- `data[0]`: zero, or the tag of the instance plus one. -/
abbrev tagByte (bytes : KeyAccount) : UInt8 := bytes.get 0

/-- An instruction on a key account: a failure keeps what was written before. -/
abbrev Instruction (α : Type) := ExceptT ProgramError (StateM KeyAccount) α

/-- `map_err` and `?` -/
def orError {ε α : Type} (e : ProgramError) : Except ε α → Instruction α
  | .ok a => pure a
  | .error _ => throw e

/-- `[0: Winternitz or 1: XMSS][public key: 41]` -/
def create (isSigner : Bool) (tag : UInt8) (data : Bytes) : Instruction Unit := do
  if !isSigner then
    throw .missingRequiredSignature
  let key ← orError .invalidInstructionData (VerifyingKey.fromSlice data)
  let bytes ← get
  if tagByte bytes ≠ 0 then
    throw .accountAlreadyInitialized
  let bytes := copyInto bytes 0 [tag + 1]
  let bytes := copyInto bytes 1 key.bytes.toList
  set (copyInto bytes keyEnd (List.replicate 32 0))

/-- The end of `verify`: the result of the verification, then the bitmap. -/
def markUsed (leaf : Nat) (result : Except Error Unit) : Instruction Unit := do
  orError (.custom 1) result
  let bytes ← get
  -- Verification has checked the leaf bound, so the index is inside the account.
  let used := bytes.toList.getD (keyEnd + leaf / 8) 0
  let mask : UInt8 := 1 <<< UInt8.ofNat (leaf % 8)
  if used &&& mask ≠ 0 then
    throw (.custom 2)
  set (copyInto bytes (keyEnd + leaf / 8) [used ||| mask])

variable [Keccak]

/-- `[2][digest: 32][signature: 849 or 1037]`. The stored instance selects the encoding. -/
def verify (data : Bytes) : Instruction Unit := do
  if data.length < messageLen then
    throw .invalidInstructionData
  let digest : Message := fit messageLen data
  let signature := data.drop messageLen
  let bytes ← get
  let key ← orError .invalidAccountData
    (VerifyingKey.fromSlice (slice bytes.toList 1 publicKeyLen).toList)
  if tagByte bytes = 0 then
    throw .uninitializedAccount
  else if tagByte bytes = 1 then
    let signature ← orError .invalidInstructionData (Winternitz.Signature.fromSlice signature)
    markUsed 0 ((key.verify digest signature).eval keccak256)
  else if tagByte bytes = 2 then
    let signature ← orError .invalidInstructionData (Xmss.Signature.fromSlice signature)
    markUsed signature.leaf.toNat ((key.verify digest signature).eval keccak256)
  else
    throw .invalidAccountData

/-- The dispatch of `process_instruction` on the tag. -/
def dispatch (isSigner : Bool) (tag : UInt8) (data : Bytes) : Instruction Unit :=
  if tag = 0 ∨ tag = 1 then create isSigner tag data
  else if tag = 2 then verify data
  else throw .invalidInstructionData

/-- The result of an instruction and the accounts after it. -/
def processInstruction (id : Pubkey) (accounts : List AccountInfo) (data : Bytes) :
    Except ProgramError Unit × List AccountInfo :=
  match accounts with
  | [] => (.error .notEnoughAccountKeys, accounts)
  | account :: others =>
    if account.owner ≠ id then (.error .incorrectProgramId, accounts)
    else if h : account.isWritable ∧ account.data.length = keyAccountLen then
      match data with
      | [] => (.error .invalidInstructionData, accounts)
      | tag :: data =>
        let (result, bytes) := (dispatch account.isSigner tag data).run.run ⟨account.data, h.2⟩
        (result, { account with data := bytes.toList } :: others)
    else (.error .invalidAccountData, accounts)

end SolanaWinternitz.Program
