import SolanaWinternitz.System

/-!
# Signers at several paths of one directory

The clients of a path are named by the path and a number, so that they are never the clients of
another path. All of them work in one directory; each path has an instance and a log of its own.

`Machine.runAlone` is what a path does if it has the directory to itself.
-/

namespace SolanaWinternitz

open Infra Infra.Os

/-- The same event, of renamed clients. -/
def Event.map {Pid Pid' : Type} (f : Pid → Pid') : Event Pid → Event Pid'
  | .create pid => .create (f pid)
  | .openFile pid => .openFile (f pid)
  | .sign pid message => .sign (f pid) message
  | .signWithRng pid message => .signWithRng (f pid) message
  | .requireNextLeafAtLeast pid minimum => .requireNextLeafAtLeast (f pid) minimum
  | .io pid outcome => .io (f pid) outcome
  | .drop pid => .drop (f pid)
  | .kill pid => .kill (f pid)
  | .powerLoss version left => .powerLoss version left

structure Directory (K : String → Type) (Pid : Type) [∀ path, OneTime (K path)] where
  world : World String (String × Pid)
  client : (path : String) → Pid → Client (K path)
  log : (path : String) → List (Report (K path))

namespace Directory

variable [Keccak] {K : String → Type} [∀ path, OneTime (K path)] {Pid : Type} [DecidableEq Pid]

def boot (files : List (String × Bytes)) : Directory K Pid :=
  { world := World.boot files, client := fun _ _ => .idle, log := fun _ => [] }

/-- The machine that the clients of a path work on. -/
def machine (d : Directory K Pid) (path : String) : Machine (K path) (String × Pid) :=
  ⟨d.world, fun id => if id.1 = path then d.client path id.2 else .idle, d.log path⟩

/-- An event of a client of a path, or a power loss, which ends the clients of every path. -/
def step (d : Directory K Pid) (x : String × Event Pid) : Directory K Pid :=
  let m := (d.machine x.1).step x.1 (x.2.map (x.1, ·))
  let client := if x.2.isPowerLoss then fun _ _ => .idle else d.client
  ⟨m.world, Function.update client x.1 fun pid => m.client (x.1, pid),
    Function.update d.log x.1 m.log⟩

def run (d : Directory K Pid) (events : List (String × Event Pid)) : Directory K Pid :=
  events.foldl step d

/-- What happens at one path. -/
def eventsAt (path : String) (events : List (String × Event Pid)) : List (Event Pid) :=
  (events.filter (·.1 = path)).map Prod.snd

end Directory

namespace Machine

variable [Keccak] {K Pid : Type} [OneTime K] [DecidableEq Pid]

/-- Somewhere else in the file system `n` files are made, which take inodes. -/
def elsewhere (m : Machine K Pid) (n : Nat) : Machine K Pid :=
  { m with world := { m.world with next := m.world.next + n } }

/-- An event of a client of the only path. -/
def stepAlone (path : String) (m : Machine K (String × Pid)) :
    Event Pid ⊕ Nat → Machine K (String × Pid)
  | .inl e => m.step path (e.map (path, ·))
  | .inr n => m.elsewhere n

def runAlone (path : String) (m : Machine K (String × Pid)) (events : List (Event Pid ⊕ Nat)) :
    Machine K (String × Pid) := events.foldl (stepAlone path) m

end Machine

end SolanaWinternitz
