import SolanaWinternitz.Signer

/-!
# The signers of one key path

Any number of clients run the functions of `SigningKey` on one path, one file call at a time and in
any order. A client is a signer, or a call that starts one: a process with several signers is
several clients that are killed one after the other. Only these clients touch the key file, its
`.tmp` and its `.lock`.

The log holds what the calls returned, the newest first. `clean` and `retry` are kept for it only.
-/

namespace SolanaWinternitz

open Infra Infra.Os

inductive Client (K : Type) [OneTime K] where
  | idle
  /-- In `create` or `open`; `clean`: every call so far was carried out. -/
  | starting (opening clean : Bool) (rest : Action (Except SigningError (SigningKey K)))
  | live (signer : SigningKey K)
  /-- In `sign` or `sign_with_rng`; `retry`: of the recorded message. -/
  | signing (message : Message) (retry : Bool)
      (rest : Action (Except SigningError (OneTime.Signature K) × SigningKey K))

/-- The client has a signer: it may sign now or is signing. -/
def Client.Live {K : Type} [OneTime K] : Client K → Prop
  | live _ | signing _ _ _ => True
  | _ => False

/-- The signer of a client that may sign now. -/
def Client.signer {K : Type} [OneTime K] : Client K → Option (SigningKey K)
  | live signer => some signer
  | _ => none

theorem Client.eq_live_of_signer {K : Type} [OneTime K] {c : Client K} {signer : SigningKey K}
    (h : c.signer = some signer) : c = .live signer := by
  cases c with
  | live s =>
    cases h
    rfl
  | idle => cases h
  | starting opening clean rest => cases h
  | signing message retry rest => cases h

/-- What a call returned. -/
inductive Report (K : Type) [OneTime K] where
  | started (opening clean : Bool) (result : Except SigningError Unit)
  | signed (message : Message) (retry : Bool)
      (result : Except SigningError (OneTime.Signature K))

/-- The message and the signature that a call returned, if it did. -/
def Report.released {K : Type} [OneTime K] : Report K → Option (Message × OneTime.Signature K)
  | signed message _ (.ok sig) => some (message, sig)
  | _ => none

/-- `create` has returned a signer. -/
def Report.created {K : Type} [OneTime K] : Report K → Bool
  | started false _ (.ok _) => true
  | _ => false

inductive Event (Pid : Type) where
  | create (pid : Pid)
  | openFile (pid : Pid)
  | sign (pid : Pid) (message : Message)
  | signWithRng (pid : Pid) (message : Message)
  | requireNextLeafAtLeast (pid : Pid) (minimum : UInt32)
  /-- The client makes its next file call, or returns to its caller. -/
  | io (pid : Pid) (outcome : Outcome SigningError)
  | drop (pid : Pid)
  | kill (pid : Pid)
  | powerLoss (version : Nat) (left : Nat → Bytes)

def Event.isPowerLoss {Pid : Type} : Event Pid → Bool
  | powerLoss _ _ => true
  | _ => false

/-- The caller's random source does not fail with `Corrupt`. -/
def Event.honest {Pid : Type} : Event Pid → Bool
  | io _ (.error .corrupt) => false
  | _ => true

/-- A directory, the clients that work in it, and what they were given. -/
structure Machine (K Pid : Type) [OneTime K] where
  world : World String Pid
  client : Pid → Client K
  log : List (Report K)

namespace Machine

variable [Keccak] {K Pid : Type} [OneTime K] [DecidableEq Pid]

def boot (files : List (String × Bytes)) : Machine K Pid :=
  { world := World.boot files, client := fun _ => .idle, log := [] }

/-- Every signature that was ever returned, with its message. -/
def released (m : Machine K Pid) : List (Message × OneTime.Signature K) :=
  m.log.filterMap Report.released

def set (m : Machine K Pid) (pid : Pid) (client : Client K) : Machine K Pid :=
  { m with client := Function.update m.client pid client }

/-- The client is gone, and so is its lock. -/
def leave (m : Machine K Pid) (pid : Pid) : Machine K Pid :=
  { m with world := m.world.unlock pid, client := Function.update m.client pid .idle }

def report (m : Machine K Pid) (r : Report K) : Machine K Pid := { m with log := r :: m.log }

/-- A live client calls a function that signs. -/
def signing (m : Machine K Pid) (pid : Pid) (message : Message)
    (function : SigningKey K → Action (Except SigningError (OneTime.Signature K) × SigningKey K)) :
    Machine K Pid :=
  match m.client pid with
  | .live signer =>
    m.set pid (.signing message (signer.lastMessage = some message) (function signer))
  | _ => m

/-- A client goes on with what it is doing. -/
def advance (m : Machine K Pid) (pid : Pid) (o : Outcome SigningError) : Machine K Pid :=
  match m.client pid with
  | .starting opening clean (.call c k) =>
    let (r, world) := m.world.exec pid o c
    { m with world }.set pid (.starting opening (clean && o.isOk) (k r))
  | .starting opening clean (.ret (.ok signer)) =>
    (m.set pid (.live signer)).report (.started opening clean (.ok ()))
  | .starting opening clean (.ret (.error e)) =>
    (m.leave pid).report (.started opening clean (.error e))
  | .signing message retry (.call c k) =>
    let (r, world) := m.world.exec pid o c
    { m with world }.set pid (.signing message retry (k r))
  | .signing message retry (.ret (result, signer)) =>
    (m.set pid (.live signer)).report (.signed message retry result)
  | _ => m

/-- One event. An event that the client cannot take part in changes nothing. -/
def step (path : String) (m : Machine K Pid) : Event Pid → Machine K Pid
  | .create pid =>
    match m.client pid with
    | .idle => m.set pid (.starting false true (SigningKey.create K path).run)
    | _ => m
  | .openFile pid =>
    match m.client pid with
    | .idle => m.set pid (.starting true true (SigningKey.openFile K path).run)
    | _ => m
  | .sign pid message => m.signing pid message (·.sign message)
  | .signWithRng pid message => m.signing pid message (·.signWithRng message callerFill)
  | .requireNextLeafAtLeast pid minimum =>
    match m.client pid with
    | .live signer =>
      match signer.requireNextLeafAtLeast minimum with
      | .ok signer => m.set pid (.live signer)
      | .error _ => m.leave pid
    | _ => m
  | .io pid o => m.advance pid o
  | .drop pid =>
    match m.client pid with
    | .live _ => m.leave pid
    | _ => m
  | .kill pid => m.leave pid
  | .powerLoss version left =>
    { m with world := m.world.powerLoss version left, client := fun _ => .idle }

def run (path : String) (m : Machine K Pid) (events : List (Event Pid)) : Machine K Pid :=
  events.foldl (step path) m

/-- `n` calls of a client in a row that are carried out; a random source delivers `data`. -/
def calls (pid : Pid) (n : Nat) (data : Bytes) : List (Event Pid) :=
  List.replicate n (.io pid (.ok data))

end Machine

end SolanaWinternitz
