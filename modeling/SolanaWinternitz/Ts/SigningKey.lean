import SolanaWinternitz.Ts.Hazmat

/-!
# The TypeScript package: `signing-key.ts`

A method changes the fields of its object, makes file calls and runs the callbacks of its caller, in
the state `Process`. Messages are passed by reference: `buffers` are the byte arrays of the caller,
which callbacks may overwrite, and `captured` is whatever else they keep.

Outcome `i` of the environment decides about the `i`-th call of the process. `openSync`, `fsyncSync`
and `closeSync` on the directory are the one call `syncDir`.
-/

namespace SolanaWinternitz.Ts

open Infra Infra.Os Infra.Js

/-- The private fields of a signer. -/
structure SigningKey (K : Type) where
  key : K
  path : String
  lock : Fd
  nextLeaf : Int
  lastMessage : Option Bytes
  lastSalt : Bytes
  closed : Bool := false
  sampling : Bool := false

/-- A byte array of the caller. -/
abbrev Ref := Nat

/-- A process with one signer, its callers and its files. -/
structure Process (K Pid X : Type) where
  self : SigningKey K
  buffers : Ref → Bytes
  captured : X
  world : World String Pid
  pid : Pid
  outcomes : Nat → Outcome Thrown
  /-- The calls that were made so far. -/
  calls : List (Call String)

/-- A computation of the process. -/
abbrev Action (K Pid X α : Type) : Type := Js Thrown (Process K Pid X) α

variable {K Pid X α : Type}

/-! ## Calls -/

/-- Make one call. -/
def invoke (c : Call String) : Action K Pid X (Answer Thrown c) := fun p =>
  let r := p.world.exec p.pid (p.outcomes p.calls.length) c
  (.ok r.1, { p with world := r.2, calls := p.calls ++ [c] })

/-- A call that throws the error of its result. -/
def orThrow {ε : Type} (f : ε → Thrown) (x : Action K Pid X (Except ε α)) : Action K Pid X α := do
  ofExcept f (← x)

def system (kind : IoError) : Thrown := .cause (.system kind)

def writeFileSync (fd : Fd) (data : Bytes) : Action K Pid X Unit :=
  orThrow system (invoke (.writeAll fd data))

def fsyncSync (fd : Fd) : Action K Pid X Unit := orThrow system (invoke (.syncAll fd))

def closeSync (fd : Fd) : Action K Pid X Unit := orThrow system (invoke (.close fd))

def renameSync (source target : String) : Action K Pid X Unit :=
  orThrow system (invoke (.rename source target))

/-- Open a file, read all of it and close it. -/
def readFileSync (path : String) : Action K Pid X Bytes := do
  let fd ← orThrow system (invoke (.openRead path))
  onExit (do
      let length ← orThrow system (invoke (.fileLen fd))
      let data ← orThrow system (invoke (.readExact fd 0 length))
      pure data.toList)
    (closeSync fd)

def syncDir : Action K Pid X Unit := orThrow system (invoke .syncDir)

/-- `fillRandom` -/
def fillRandom : FillRandom (Process K Pid X) := fun n =>
  onThrow (orThrow (fun code => .cause (.random code)) (invoke (.random n)))
    fun e => raise (rethrow .random e)

/-! ## Locks -/

/-- `flock(fd, LOCK_EX | LOCK_NB) === 0` -/
def flock (fd : Fd) : Action K Pid X Bool := do
  let r : Except TryLockError Unit ← invoke (.tryLock fd)
  pure r.isOk

/-- Lock a permanent sidecar. -/
def acquire (path : String) : Action K Pid X Fd := do
  let fd ← onThrow (orThrow system (invoke (.openSidecar s!"{path}.lock")))
    fun e => raise (rethrow .io e)
  onThrow (do
      if ← flock fd then pure fd
      else raise (.of .locked s!"the key file is held by another signer ({path}.lock)"))
    fun e => do
      closeSync fd
      raise (rethrow .io e)

/-- `closeSync` of the lock. -/
def release (fd : Fd) : Action K Pid X Unit := orThrow system (invoke (.release fd))

/-! ## The key file -/

abbrev Layout.version : Int := 2
abbrev Layout.parameter : Nat := 2
abbrev Layout.nextLeaf : Nat := Layout.parameter + parameterLen
abbrev Layout.hasMessage : Nat := Layout.nextLeaf + 4
abbrev Layout.message : Nat := Layout.hasMessage + 1
abbrev Layout.salt : Nat := Layout.message + messageLen
abbrev Layout.secrets : Nat := Layout.salt + saltLength

/-- `writeUInt32BE`, which refuses a number that is no `u32`. -/
def writeUInt32BE (out : Bytes) (n : Int) (offset : Nat) : Except Cause Bytes :=
  if 0 ≤ n ∧ n < 2 ^ 32 then .ok (setBytes out offset (u32be n))
  else .error (.other "ERR_OUT_OF_RANGE")

/-- `readUInt32BE` -/
def readUInt32BE (record : Bytes) (offset : Nat) : Int := (u32OfBe (slice record offset 4)).toNat

namespace SigningKey

variable [Keccak] [OneTime K]

/-- The header that `#writeRecord` writes. -/
def header (self : SigningKey K) : Except Cause Bytes := do
  let header := List.replicate Layout.secrets 0
  let header := setBytes header 0 (uint8Array [Layout.version])
  let header := setBytes header 1 (uint8Array [OneTime.height K])
  let key ← (OneTime.verifyingKey self.key).mapError .crypto
  let header := setBytes header Layout.parameter (subarrayFrom key.toBytes elementLength)
  let header ← writeUInt32BE header self.nextLeaf Layout.nextLeaf
  match self.lastMessage with
  | none => pure header
  | some message =>
    let header := setBytes header Layout.hasMessage (uint8Array [1])
    let header := setBytes header Layout.message message
    pure (setBytes header Layout.salt self.lastSalt)

/-- `#writeRecord` -/
def writeRecord (self : SigningKey K) (fd : Fd) : Action K Pid X Unit := do
  let header ← ofExcept .cause self.header
  writeFileSync fd header
  writeFileSync fd (OneTime.secrets self.key)

/-- `#write`: write a sibling, sync it, and rename it. -/
def write (self : SigningKey K) : Action K Pid X Unit := do
  let tmp := s!"{self.path}.tmp"
  let fd ← orThrow system (invoke (.openTruncate tmp))
  onExit (do
      self.writeRecord fd
      fsyncSync fd)
    (closeSync fd)
  renameSync tmp self.path
  syncDir

/-- `create` once the lock is held. -/
def createLocked (path : String) (lock : Fd) : Action K Pid X (SigningKey K) := do
  let fd ← onThrow (orThrow system (invoke (.createNew path))) fun e =>
    if e = system .alreadyExists then
      raise (.of .fileExists "a key file already exists at this path: open it instead")
    else raise e
  let signer ← onExit (do
      let secrets ← fillRandom (OneTime.leaves K * elementsLength)
      let parameter ← fillRandom parameterLen
      let key ← ofExcept .crypto (OneTime.fromSecrets secrets.toList parameter.toList)
      let signer : SigningKey K :=
        { key, path, lock, nextLeaf := 0, lastMessage := none,
          lastSalt := List.replicate saltLength 0 }
      signer.writeRecord fd
      fsyncSync fd
      pure signer)
    (closeSync fd)
  syncDir
  pure signer

/-- Sample every chain start and `P` from the OS random source. Refuses an existing file. -/
def create (path : String) : Action K Pid X (SigningKey K) := do
  let lock ← acquire path
  onThrow (createLocked path lock) fun e => do
    release lock
    raise (rethrow .io e)

/-- The conditions on which `open` rejects a record. -/
def rejected (K : Type) [OneTime K] (record : Bytes) : Bool :=
  record.length != Layout.secrets + OneTime.leaves K * elementsLength
    || byteAt record 0 != Layout.version
    || byteAt record 1 != OneTime.height K
    || byteAt record Layout.hasMessage > 1
    || (let parameter := subarray record Layout.parameter Layout.nextLeaf
      let nextLeaf := readUInt32BE record Layout.nextLeaf
      let lastSalt := subarray record Layout.salt Layout.secrets
      nextLeaf > OneTime.leaves K
        || (if byteAt record Layout.hasMessage = 1 then
            let message := subarray record Layout.message Layout.salt
            nextLeaf == 0 || (encode lastSalt parameter (nextLeaf - 1) message).isNone
          else (subarray record Layout.message Layout.secrets).any (· != 0)))

/-- The signer of a record. -/
def ofRecord (path : String) (lock : Fd) (record : Bytes) : Except Thrown (SigningKey K) :=
  if rejected K record then
    .error (.of .corrupt "the key file is not a record of this instance")
  else do
    let parameter := subarray record Layout.parameter Layout.nextLeaf
    let key ← (OneTime.fromSecrets (subarrayFrom record Layout.secrets) parameter).mapError .crypto
    pure {
      key, path, lock
      nextLeaf := readUInt32BE record Layout.nextLeaf
      lastMessage :=
        if byteAt record Layout.hasMessage = 1 then
          some (subarray record Layout.message Layout.salt)
        else none
      lastSalt := subarray record Layout.salt Layout.secrets }

/-- `open` once the lock is held. -/
def openLocked (path : String) (lock : Fd) : Action K Pid X (SigningKey K) := do
  let record ← onThrow (readFileSync path) fun e =>
    if e = system .notFound then
      raise (.of .missing "no key file at this path: usage state is required")
    else raise e
  ofExcept id (ofRecord path lock record)

/-- `open`: open a v2 key file and hold its permanent sidecar lock. -/
def openFile (path : String) : Action K Pid X (SigningKey K) := do
  let lock ← acquire path
  onThrow (openLocked path lock) fun e => do
    release lock
    raise (rethrow .io e)

end SigningKey

/-! ## Methods -/

/-- Change the fields of the signer. -/
def assignSelf (f : SigningKey K → SigningKey K) : Action K Pid X Unit :=
  assign fun p => { p with self := f p.self }

def close : Action K Pid X Unit := do
  let self ← look Process.self
  if self.sampling then
    raise (.of .unusable "cannot release the lock during a signing attempt")
  else if self.closed then pure ()
  else
    assignSelf fun self => { self with closed := true }
    release self.lock

/-- `[Symbol.dispose]` -/
def dispose : Action K Pid X Unit := close

variable [Keccak] [OneTime K]

/-- Require the next unused leaf to be at least `minimum`. Closes the signer and throws if not. -/
def requireNextLeafAtLeast (minimum : Number) : Action K Pid X Unit := do
  let refuse : Action K Pid X Unit := do
    close
    raise (.crypto ⟨.invalidEncoding, "invalid leaf minimum"⟩)
  match minimum with
  | .other => refuse
  | .integer n =>
    if n < 0 ∨ n > OneTime.leaves K then refuse
    else do
      let self ← look Process.self
      if self.nextLeaf < n then
        close
        raise (.of .leafBelowMinimum
          s!"the key file is behind the chain: next leaf {self.nextLeaf}, minimum {n}")
      else pure ()

def verifyingKey : Action K Pid X VerifyingKey := do
  let self ← look Process.self
  ofExcept .crypto (OneTime.verifyingKey self.key)

omit [Keccak] [OneTime K] in
def nextLeaf : Action K Pid X Int := look (·.self.nextLeaf)

def remaining : Action K Pid X Int := look fun p => OneTime.leaves K - p.self.nextLeaf

/-- The attempt of `signWithRng` on a new message. -/
def attempt (message : Bytes) (fill : FillRandom (Process K Pid X)) :
    Action K Pid X (OneTime.Signature K) := do
  let leaf ← nextLeaf
  assignSelf fun self => { self with sampling := true }
  let sampled : Except Thrown Bytes ← onExit
    (onThrow (do
        let key ← verifyingKey
        let salt ← sampleSalt (subarrayFrom key.toBytes elementLength) leaf message fill
        pure (.ok salt))
      fun e => pure (.error (rethrow .random e)))
    (assignSelf fun self => { self with sampling := false })
  -- One attempt per leaf, including failure.
  assignSelf fun self =>
    { self with
      nextLeaf := leaf + 1
      lastMessage := if sampled.isOk then some message else none
      lastSalt := sampled.toOption.getD (List.replicate saltLength 0) }
  let self ← look Process.self
  onThrow self.write fun e => do
    close
    raise (rethrow .io e)
  match sampled with
  | .error failure => raise failure
  | .ok salt => ofExcept .crypto (OneTime.signAtWithSalt self.key (.integer leaf) message salt)

/-- Sign with an explicit source of salts. Exact retries do not call the source. -/
def signWithRng (message : Ref) (fill : FillRandom (Process K Pid X)) :
    Action K Pid X (OneTime.Signature K) := do
  let self ← look Process.self
  if self.closed then raise (.of .unusable "the signer is closed")
  else if self.sampling then
    raise (.of .unusable "a signing attempt is already in progress")
  else do
    let value ← look (·.buffers message)
    let bytesOfMessage ← ofExcept .crypto (bytes value messageLen "message")
    if self.lastMessage.any (equal bytesOfMessage.toList) then
      ofExcept .crypto (OneTime.signAtWithSalt self.key (.integer (self.nextLeaf - 1))
        bytesOfMessage.toList self.lastSalt)
    else if self.nextLeaf ≥ OneTime.leaves K then raise (.of .exhausted "leaves exhausted")
    else attempt bytesOfMessage.toList fill

/-- Sign with salts from the operating system. -/
def sign (message : Ref) : Action K Pid X (OneTime.Signature K) := signWithRng message fillRandom

end SolanaWinternitz.Ts
