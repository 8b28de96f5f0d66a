import SolanaWinternitz.Ts.SigningKey

/-!
# Callbacks of the TypeScript signer

`signWithRng` runs code of its caller while an attempt is under way. That code may call the signer
again, open its key file a second time and overwrite the message that is being signed.

* `Callback`, `NestedCall` — what one call of the callback does, until it fills the buffer or throws
* `Callback.run` — the callback, in the process of the signer
* `Captured` — what the callbacks keep: how often they ran, and what the nested calls were seen
  to do
-/

namespace SolanaWinternitz.Ts

open Infra Infra.Os Infra.Js

/-- What a nested call gives the callback. -/
inductive Reply where
  | signature (bytes : Bytes)
  | verifyingKey (bytes : Bytes)
  | number (n : Int)
  /-- The method returned, with nothing or with a signer. -/
  | done
  | thrown (e : Thrown)

mutual

/-- One call of a callback, from its first nested call on. -/
inductive Callback where
  | call (c : NestedCall) (next : Reply → Callback)
  /-- Write to an array of the caller. -/
  | overwrite (buffer : Ref) (data : Bytes) (next : Callback)
  | fill (data : Bytes)
  | raise (e : Thrown)

/-- A call of the same signer, or of `open` and `create` on its path. -/
inductive NestedCall where
  | sign (message : Ref)
  /-- `callbacks i` is what the callback does when it is called for the `i`-th time. -/
  | signWithRng (message : Ref) (callbacks : Nat → Callback)
  | close
  | dispose
  | requireNextLeafAtLeast (minimum : Number)
  | nextLeaf
  | remaining
  | verifyingKey
  | openFile
  | create

end

/-- The signer and the files before and after a nested call, and what the call gave back. -/
structure Observation (K Pid : Type) where
  before : SigningKey K × World String Pid
  after : SigningKey K × World String Pid
  reply : Reply

/-- What the callbacks keep. -/
structure Captured (K Pid : Type) where
  /-- How often the callback of the call under way has run. -/
  round : Nat
  log : List (Observation K Pid)

variable {K Pid α : Type}

/-- A process whose callbacks keep an account of what they do. -/
abbrev Reentrant (K Pid α : Type) : Type := Action K Pid (Captured K Pid) α

/-- A method called inside `try`. -/
def settle (reply : α → Reply) (x : Reentrant K Pid α) : Reentrant K Pid Reply :=
  onThrow (do pure (reply (← x))) fun e => pure (.thrown e)

def setRound (n : Nat) : Reentrant K Pid Unit :=
  assign fun p => { p with captured := { p.captured with round := n } }

/-- A callback that does something else every time. -/
def fillWith (run : Nat → Reentrant K Pid Bytes) : FillRandom (Process K Pid (Captured K Pid)) :=
  fun n => do
    let round ← look (·.captured.round)
    setRound (round + 1)
    let data ← run round
    pure (fit n data)

/-- Enter a nested call into the account. -/
def observe (x : Reentrant K Pid Reply) : Reentrant K Pid Reply := do
  let before ← look fun p => (p.self, p.world)
  let reply ← x
  assign fun p => { p with
    captured := { p.captured with log := p.captured.log ++ [⟨before, (p.self, p.world), reply⟩] } }
  pure reply

variable [Keccak] [OneTime K]

mutual

def Callback.run : Callback → Reentrant K Pid Bytes
  | .call c next => do
    let reply ← observe c.run
    (next reply).run
  | .overwrite buffer data next => do
    assign fun p => { p with buffers := Function.update p.buffers buffer data }
    next.run
  | .fill data => pure data
  | .raise e => Js.raise e

def NestedCall.run : NestedCall → Reentrant K Pid Reply
  | .sign message => settle (fun sig => .signature (OneTime.toBytes sig)) (Ts.sign message)
  | .signWithRng message callbacks => do
    let round ← look (·.captured.round)
    setRound 0
    let reply ← settle (fun sig => .signature (OneTime.toBytes sig))
      (Ts.signWithRng message (fillWith fun i => (callbacks i).run))
    setRound round
    pure reply
  | .close => settle (fun _ => .done) Ts.close
  | .dispose => settle (fun _ => .done) Ts.dispose
  | .requireNextLeafAtLeast minimum =>
    settle (fun _ => .done) (Ts.requireNextLeafAtLeast minimum)
  | .nextLeaf => settle .number Ts.nextLeaf
  | .remaining => settle .number Ts.remaining
  | .verifyingKey => settle (fun key => .verifyingKey key.toBytes) Ts.verifyingKey
  | .openFile => do
    let self ← look Process.self
    let opened : Reentrant K Pid (SigningKey K) := SigningKey.openFile self.path
    settle (fun _ => .done) opened
  | .create => do
    let self ← look Process.self
    let created : Reentrant K Pid (SigningKey K) := SigningKey.create self.path
    settle (fun _ => .done) created

end

/-- The callback that a caller passes to `signWithRng`. -/
def callbackFill (callbacks : Nat → Callback) : FillRandom (Process K Pid (Captured K Pid)) :=
  fillWith fun i => (callbacks i).run

end SolanaWinternitz.Ts
