import SolanaWinternitz.Hazmat

/-!
# Persistent leaf allocation (`src/signer.rs`)

A signer owns a key file, through an exclusive lock on a permanent sidecar. It records each attempt
before it returns, so that a retry of the recorded message reproduces the recorded signature.

The functions are programs over the calls of `Infra.Os`. A path is a name in the directory of the
key file. `&mut self` is a state that `signWithRng` takes and returns; closing a file and dropping
a signer release its lock, which is the business of the system around it.
-/

namespace SolanaWinternitz

open Infra Infra.Os

/-! ## The key file -/

/--
v2: `version ‖ height ‖ P ‖ next leaf BE ‖ message flag ‖ message ‖ accepted salt ‖ chain starts`.
-/
abbrev Layout.version : UInt8 := 2
abbrev Layout.parameter : Nat := 2
abbrev Layout.nextLeaf : Nat := Layout.parameter + parameterLen
abbrev Layout.hasMessage : Nat := Layout.nextLeaf + 4
abbrev Layout.message : Nat := Layout.hasMessage + 1
abbrev Layout.salt : Nat := Layout.message + messageLen
abbrev Layout.secrets : Nat := Layout.salt + saltLength

/-- The fixed header, 78 bytes. -/
abbrev Header := Block Layout.secrets

namespace Header

def nextLeaf (header : Header) : UInt32 := u32OfBe (slice header.toList Layout.nextLeaf 4)

def parameter (header : Header) : Parameter := slice header.toList Layout.parameter parameterLen

def flag (header : Header) : UInt8 := header.get ⟨Layout.hasMessage, by decide⟩

def lastMessage (header : Header) : Option Message :=
  if header.flag = 1 then some (slice header.toList Layout.message messageLen) else none

def lastSalt (header : Header) : Salt := slice header.toList Layout.salt saltLength

/-- The conditions on which `open` rejects a header. -/
def rejected [Keccak] (header : Header) (height : UInt8) (leaves : UInt32) : Bool :=
  header.get ⟨0, by decide⟩ != Layout.version
    || header.get ⟨1, by decide⟩ != height
    || header.flag > 1
    || header.nextLeaf > leaves
    || (header.lastMessage.isSome && header.nextLeaf == 0)
    || match header.lastMessage with
      | some message =>
        ((encode header.lastSalt header.parameter (header.nextLeaf - 1) message).eval
          keccak256).isNone
      | none => (header.toList.drop Layout.message).any (· != 0)

end Header

/-! ## Paths and locks -/

/-- The name with a suffix, in the same directory. -/
def sibling (path suffix : String) : String := path ++ suffix

/-- Lock a permanent sidecar: replacing the record must not replace its lock. -/
def lock (path : String) : Fallible Fd := do
  let file ← orFail .io (invoke (.openSidecar (sibling path ".lock")))
  orFail (fun
    | .wouldBlock => .locked
    | .error kind => .io kind) (invoke (.tryLock file))
  pure file

/-- Sync the directory entry after creating or replacing the record. -/
def syncDir : Fallible Unit := orFail .io (invoke .syncDir)

/-! ## Signers -/

/-- A signer that holds the lock of its key file. -/
structure SigningKey (K : Type) where
  key : K
  path : String
  /-- `_lock` -/
  lockFile : Fd
  nextLeaf : UInt32
  lastMessage : Option Message
  lastSalt : Salt
  failed : Bool

namespace SigningKey

variable [Keccak] {K : Type} [OneTime K]

def verifyingKey (self : SigningKey K) : VerifyingKey :=
  (OneTime.verifyingKey self.key).eval keccak256

/-- Leaves not yet spent. -/
def remaining (self : SigningKey K) : UInt32 := OneTime.leaves K - self.nextLeaf

/-- The header that `write_record` writes. -/
def header (self : SigningKey K) : Header :=
  let header : Header := zeros _
  let header := copyInto header 0 [Layout.version]
  let header := copyInto header 1 [OneTime.height K]
  let header := copyInto header Layout.parameter self.verifyingKey.parameter.toList
  let header := copyInto header Layout.nextLeaf (u32Be self.nextLeaf).toList
  match self.lastMessage with
  | some message =>
    let header := copyInto header Layout.hasMessage [1]
    let header := copyInto header Layout.message message.toList
    copyInto header Layout.salt self.lastSalt.toList
  | none => header

def writeRecord (self : SigningKey K) (file : Fd) : Fallible Unit := do
  orFail .io (invoke (.writeAll file self.header.toList))
  orFail .io (invoke (.writeAll file (OneTime.secrets self.key)))

/-- Replace the key file: write a sibling, sync it, and rename it. -/
def write (self : SigningKey K) : Fallible Unit := do
  let tmp := sibling self.path ".tmp"
  let file ← orFail .io (invoke (.openTruncate tmp))
  self.writeRecord file
  orFail .io (invoke (.syncAll file))
  orFail .io (invoke (.rename tmp self.path))
  syncDir

/-- The length of the secrets of an instance. -/
def secretsLen (K : Type) [OneTime K] : Nat := (OneTime.leaves K).toNat * elementsLength

/-- `create` once the lock is held. -/
def createLocked (K : Type) [OneTime K] (path : String) (lock : Fd) : Fallible (SigningKey K) := do
  let file ← orFail (fun
    | .alreadyExists => .fileExists
    | kind => .io kind) (invoke (.createNew path))
  let secrets ← osFill (secretsLen K)
  let parameter ← osFill parameterLen
  match (OneTime.fromSecrets secrets.toList parameter).eval keccak256 with
  | .error _ => throw .corrupt
  | .ok key =>
    let signer : SigningKey K :=
      { key, path, lockFile := lock, nextLeaf := 0, lastMessage := none, lastSalt := zeros _,
        failed := false }
    signer.writeRecord file
    orFail .io (invoke (.syncAll file))
    syncDir
    pure signer

/-- Sample every chain start and `P` from the OS random source. Refuses an existing file. -/
def create (K : Type) [OneTime K] (path : String) : Fallible (SigningKey K) := do
  let lock ← lock path
  createLocked K path lock

/-- `open` once the lock is held. -/
def openLocked (K : Type) [OneTime K] (path : String) (lock : Fd) : Fallible (SigningKey K) := do
  let file ← orFail (fun
    | .notFound => .missing
    | kind => .io kind) (invoke (.openRead path))
  let len ← orFail .io (invoke (.fileLen file))
  if len ≠ Layout.secrets + secretsLen K then
    throw .corrupt
  let header : Header ← orFail .io (invoke (.readExact file 0 Layout.secrets))
  if header.rejected (OneTime.height K) (OneTime.leaves K) then
    throw .corrupt
  let secrets : Block (secretsLen K) ←
    orFail .io (invoke (.readExact file Layout.secrets (secretsLen K)))
  match (OneTime.fromSecrets secrets.toList header.parameter).eval keccak256 with
  | .error _ => throw .corrupt
  | .ok key =>
    pure { key, path, lockFile := lock, nextLeaf := header.nextLeaf,
           lastMessage := header.lastMessage, lastSalt := header.lastSalt, failed := false }

/-- `open`: open a v2 key file and hold its permanent sidecar lock. -/
def openFile (K : Type) [OneTime K] (path : String) : Fallible (SigningKey K) := do
  let lock ← lock path
  openLocked K path lock

/-- Require the next unused leaf to be at least `minimum`, without advancing it. -/
def requireNextLeafAtLeast (self : SigningKey K) (minimum : UInt32) :
    Except SigningError (SigningKey K) :=
  if self.nextLeaf < minimum then .error (.leafBelowMinimum self.nextLeaf minimum) else .ok self

/-- The state that an attempt records: the leaf is spent, whether sampling succeeded or not. -/
def advance (self : SigningKey K) (message : Message) (sampled : Except SigningError Salt) :
    SigningKey K :=
  { self with
    nextLeaf := self.nextLeaf + 1
    lastMessage := if sampled.isOk then some message else none
    lastSalt := sampled.toOption.getD (zeros _) }

/-- Sign with an explicit source of salts. Exact retries do not call the source. -/
def signWithRng (self : SigningKey K) (message : Message) (fill : FillSource) :
    Action (Except SigningError (OneTime.Signature K) × SigningKey K) :=
  if self.failed then pure (.error .unusable, self)
  else if self.lastMessage = some message then
    pure (okOrCorrupt ((OneTime.signAtWithSalt self.key (self.nextLeaf - 1) message
      self.lastSalt).eval keccak256), self)
  else if self.nextLeaf ≥ OneTime.leaves K then pure (.error .exhausted, self)
  else do
    let leaf := self.nextLeaf
    let sampled ← (sampleSalt self.verifyingKey.parameter leaf message fill).run
    -- The attempt is persisted before a signature or an error is returned.
    let self := self.advance message sampled
    match ← self.write.run with
    | .error error => pure (.error error, { self with failed := true })
    | .ok () =>
      match sampled with
      | .error error => pure (.error error, self)
      | .ok salt =>
        pure (okOrCorrupt ((OneTime.signAtWithSalt self.key leaf message salt).eval keccak256),
          self)

/-- Sign with salts from the operating system. -/
def sign (self : SigningKey K) (message : Message) :
    Action (Except SigningError (OneTime.Signature K) × SigningKey K) :=
  self.signWithRng message osFill

end SigningKey

end SolanaWinternitz
