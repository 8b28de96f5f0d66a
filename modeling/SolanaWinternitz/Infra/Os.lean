import SolanaWinternitz.Infra.Bytes

/-!
# An operating system with crashes

Files of one directory, seen by processes that may be killed at any point and by a machine that
may lose power.

* A directory maps names to inodes. `dir` is the visible version; `older` are the versions since
  the last sync of the directory. A power loss brings back any of them (`World.powerLoss`).
* A file's content survives a power loss if it was synced; otherwise anything may be left.
* A lock belongs to an inode and dies with its holder (`World.unlock`).
* Every call may fail, and a failed call may have taken effect (`Outcome.fail`).

`exec` executes one call; what the environment decides is in the `Outcome`.
-/

namespace Infra.Os

/-- Why a file call failed. -/
inductive IoError where
  | alreadyExists
  | notFound
  | unexpectedEof
  | other
deriving DecidableEq, Repr

/-- Why a lock was not obtained. -/
inductive TryLockError where
  | wouldBlock
  | error (kind : IoError)
deriving DecidableEq, Repr

/-- An open file is its inode. -/
abbrev Fd := Nat

/-- What a program may ask of its environment. -/
inductive Call (Name : Type) where
  /-- Open for reading and writing; create if missing, never truncate. -/
  | openSidecar (name : Name)
  | tryLock (fd : Fd)
  /-- Create a file that must not exist. -/
  | createNew (name : Name)
  | openRead (name : Name)
  | fileLen (fd : Fd)
  | readExact (fd : Fd) (off n : Nat)
  /-- Open for writing; create if missing, else empty it. -/
  | openTruncate (name : Name)
  /-- Append to an open file. -/
  | writeAll (fd : Fd) (bytes : Bytes)
  | syncAll (fd : Fd)
  | rename (source target : Name)
  | syncDir
  /-- Close a file that holds no lock. -/
  | close (fd : Fd)
  /-- Close the file that holds a lock. -/
  | release (fd : Fd)
  /-- `n` bytes of the system's random source. -/
  | random (n : Nat)
  /-- `n` bytes of a source that the caller supplies. -/
  | fill (n : Nat)

/-- The answer to a call; `E` is the error type of the caller's random source. -/
def Answer (E : Type) {Name : Type} : Call Name → Type
  | .openSidecar _ => Except IoError Fd
  | .tryLock _ => Except TryLockError Unit
  | .createNew _ => Except IoError Fd
  | .openRead _ => Except IoError Fd
  | .fileLen _ => Except IoError Nat
  | .readExact _ _ n => Except IoError (Block n)
  | .openTruncate _ => Except IoError Fd
  | .writeAll _ _ => Except IoError Unit
  | .syncAll _ => Except IoError Unit
  | .rename _ _ => Except IoError Unit
  | .syncDir => Except IoError Unit
  | .close _ => Except IoError Unit
  | .release _ => Except IoError Unit
  | .random n => Except Nat (Block n)
  | .fill n => Except E (Block n)

/-- What the environment decides about one call. -/
inductive Outcome (E : Type) where
  /-- The call is carried out; `data` is what a random source delivers. -/
  | ok (data : Bytes)
  /-- A file call fails. `late`: after its effect; `left`: how much of a failed write was done. -/
  | fail (kind : IoError) (late : Bool) (left : Nat)
  /-- The system's random source fails. -/
  | osError (code : Nat)
  /-- The caller's random source fails. -/
  | error (e : E)

/-- The call is carried out. -/
def Outcome.isOk {E : Type} : Outcome E → Bool
  | .ok _ => true
  | _ => false

/-- The error with which a file call fails, if it does. -/
def Outcome.failure {E : Type} : Outcome E → Option IoError
  | .fail kind _ _ => some kind
  | _ => none

/-- A file call succeeds iff its outcome is no failure, and fails with that error. -/
def Outcome.Decides {E α : Type} (o : Outcome E) (r : Except IoError α) : Prop :=
  (∃ a, r = .ok a) ∧ o.failure = none ∨ ∃ kind, r = .error kind ∧ o.failure = some kind

theorem Outcome.Decides.of_ok {E α : Type} {o : Outcome E} {a : α} (h : o.Decides (.ok a)) :
    o.failure = none := by
  rcases h with ⟨-, ho⟩ | ⟨kind, he, -⟩
  · exact ho
  · cases he

theorem Outcome.Decides.of_error {E α : Type} {o : Outcome E} {kind : IoError}
    (h : o.Decides (.error kind : Except IoError α)) : o.failure = some kind := by
  rcases h with ⟨⟨a, he⟩, -⟩ | ⟨kind, he, ho⟩
  · cases he
  · cases he
    exact ho

structure File where
  bytes : Bytes
  synced : Bool
deriving DecidableEq

/-- A directory. -/
abbrev Dir (Name : Type) := Name → Option Nat

structure World (Name Pid : Type) where
  dir : Dir Name
  /-- The versions of the directory before `dir`, back to the last synced one. -/
  older : List (Dir Name)
  file : Nat → File
  /-- The next unused inode. -/
  next : Nat
  locks : Nat → Option Pid

namespace World

variable {Name Pid : Type} {E : Type}

/-- What a power loss may bring back, the visible version first and the durable one last. -/
def versions (w : World Name Pid) : List (Dir Name) := w.dir :: w.older

/-- The durable version of the directory: the one that was synced last. -/
def durableDir (w : World Name Pid) : Dir Name := w.versions.getLast (List.cons_ne_nil _ _)

/-- The visible file. -/
def content (w : World Name Pid) (name : Name) : Option File := (w.dir name).map w.file

/-- A file that a power loss may bring back, before the loss of unsynced content. -/
def Survives (w : World Name Pid) (name : Name) (x : Option File) : Prop :=
  ∃ v ∈ w.versions, (v name).map w.file = x

/-- The file that the last sync of the directory made durable. -/
def durable (w : World Name Pid) (name : Name) : Option File := (w.durableDir name).map w.file

theorem survives_content (w : World Name Pid) (name : Name) : w.Survives name (w.content name) :=
  ⟨w.dir, List.mem_cons_self, rfl⟩

theorem survives_durable (w : World Name Pid) (name : Name) : w.Survives name (w.durable name) :=
  ⟨w.durableDir, List.getLast_mem _, rfl⟩

/-! ## Well-formed worlds -/

/-- Inodes are handed out once, and a version of the directory has no two names for one inode. -/
structure Ok (w : World Name Pid) : Prop where
  lt_next : ∀ v ∈ w.versions, ∀ n i, v n = some i → i < w.next
  injective : ∀ v ∈ w.versions, ∀ n m i, v n = some i → v m = some i → n = m

/-- The file under `source` is not a version of the file under `target`. -/
def Apart (w : World Name Pid) (source target : Name) : Prop :=
  ∀ i, w.dir source = some i → ∀ v ∈ w.versions, v target ≠ some i

variable {w : World Name Pid} {n m source target : Name} {i : Nat} {f : File} {x : Option File}

theorem Ok.content_lt (h : w.Ok) (hi : w.dir n = some i) : i < w.next :=
  h.lt_next w.dir List.mem_cons_self n i hi

/-! ## Writing a file -/

def setFile (w : World Name Pid) (i : Nat) (f : File) : World Name Pid :=
  { w with file := Function.update w.file i f }

theorem Ok.setFile (h : w.Ok) (i : Nat) (f : File) : (w.setFile i f).Ok := ⟨h.1, h.2⟩

@[simp] theorem setFile_file_self (w : World Name Pid) (i : Nat) (f : File) :
    (w.setFile i f).file i = f := Function.update_self _ _ _

theorem content_setFile_self (hi : w.dir n = some i) : (w.setFile i f).content n = some f := by
  simp [content, World.setFile, hi]

/-- Writing an inode that no version of a name has changes nothing behind that name. -/
theorem content_setFile_of_ne (hi : w.dir n ≠ some i) :
    (w.setFile i f).content n = w.content n := by
  unfold content World.setFile
  cases hd : w.dir n with
  | none => rfl
  | some j =>
    have hj : j ≠ i := fun he => hi (he ▸ hd)
    simp [Function.update_of_ne hj]

theorem survives_setFile_of_ne (hi : ∀ v ∈ w.versions, v n ≠ some i) :
    (w.setFile i f).Survives n x ↔ w.Survives n x := by
  have hv : ∀ v ∈ w.versions, (v n).map (w.setFile i f).file = (v n).map w.file := by
    intro v hv
    cases hd : v n with
    | none => rfl
    | some j =>
      have hj : j ≠ i := fun he => hi v hv (he ▸ hd)
      simp [World.setFile, Function.update_of_ne hj]
  constructor
  · rintro ⟨v, hmem, hx⟩
    exact ⟨v, hmem, hv v hmem ▸ hx⟩
  · rintro ⟨v, hmem, hx⟩
    exact ⟨v, hmem, (hv v hmem).trans hx⟩

theorem survives_of_setFile (h : (w.setFile i f).Survives n x) : w.Survives n x ∨ x = some f := by
  obtain ⟨v, hv, rfl⟩ := h
  cases hd : v n with
  | none => exact Or.inl ⟨v, hv, by rw [hd]; rfl⟩
  | some j =>
    by_cases hj : j = i
    · exact Or.inr (by simp [World.setFile, hj])
    · exact Or.inl ⟨v, hv, by simp [World.setFile, hd, Function.update_of_ne hj]⟩

/-! ## Syncing the directory -/

/-- Make the visible version of the directory the durable one. -/
def syncDir (w : World Name Pid) : World Name Pid := { w with older := [] }

theorem Ok.syncDir (h : w.Ok) : w.syncDir.Ok := by
  have hmem : ∀ v ∈ w.syncDir.versions, v ∈ w.versions := by
    intro v hv
    rw [List.mem_singleton.mp hv]
    exact List.mem_cons_self
  exact ⟨fun v hv => h.lt_next v (hmem v hv), fun v hv => h.injective v (hmem v hv)⟩

/-- **After a sync of the directory only the visible file survives.** -/
theorem survives_syncDir : w.syncDir.Survives n x ↔
    x = w.content n := by
  constructor
  · rintro ⟨v, hv, rfl⟩
    rw [List.mem_singleton.mp hv]
    rfl
  · rintro rfl
    exact survives_content _ n

theorem Apart.syncDir (h : w.Apart source target) : w.syncDir.Apart source target := by
  intro i hi v hv
  rw [List.mem_singleton.mp hv]
  exact h i hi w.dir List.mem_cons_self

/-! ## Locks -/

def lock (w : World Name Pid) (i : Nat) (pid : Pid) : World Name Pid :=
  { w with locks := Function.update w.locks i (some pid) }

/-- The holder closes the file: it is locked no more. -/
def release (w : World Name Pid) (i : Nat) : World Name Pid :=
  { w with locks := Function.update w.locks i none }

/-- The end of a process: its locks are released, everything visible stays. -/
def unlock [DecidableEq Pid] (w : World Name Pid) (pid : Pid) : World Name Pid :=
  { w with locks := fun i => if w.locks i = some pid then none else w.locks i }

theorem of_lock_locks {pid q : Pid} {j : Nat} (h : (w.lock j pid).locks i = some q) :
    (i = j ∧ q = pid) ∨ w.locks i = some q := by
  change Function.update w.locks j (some pid) i = some q at h
  by_cases hi : i = j
  · subst hi
    rw [Function.update_self] at h
    exact Or.inl ⟨rfl, (Option.some.inj h).symm⟩
  · rw [Function.update_of_ne hi] at h
    exact Or.inr h

/-- A process without locks ends without a trace. -/
theorem unlock_eq_self [DecidableEq Pid] {pid : Pid} (h : ∀ i, w.locks i ≠ some pid) :
    w.unlock pid = w := by
  have hl : (fun i => if w.locks i = some pid then none else w.locks i) = w.locks :=
    funext fun i => if_neg (h i)
  unfold unlock
  rw [hl]

theorem unlock_locks [DecidableEq Pid] {pid q : Pid} :
    (w.unlock pid).locks i = some q ↔ w.locks i = some q ∧ q ≠ pid := by
  show (if w.locks i = some pid then none else w.locks i) = some q ↔ _
  by_cases hl : w.locks i = some pid
  · rw [if_pos hl, hl]
    constructor
    · intro h
      cases h
    · rintro ⟨h, hne⟩
      exact absurd (Option.some.inj h).symm hne
  · rw [if_neg hl]
    exact ⟨fun h => ⟨h, fun he => hl (he ▸ h)⟩, And.left⟩

/-! ## Crashes -/

/-- Lose power: some version of the directory is found again, and unsynced files hold anything. -/
def powerLoss (w : World Name Pid) (version : Nat) (left : Nat → Bytes) : World Name Pid where
  dir := w.versions.getD version w.dir
  older := []
  file i := if (w.file i).synced then w.file i else ⟨left i, true⟩
  next := w.next
  locks _ := none

/-- **A power loss brings back a version of the directory**; synced files are as they were. -/
theorem powerLoss_dir (w : World Name Pid) (version : Nat) (left : Nat → Bytes) :
    (w.powerLoss version left).dir ∈ w.versions := by
  unfold powerLoss
  rw [List.getD_eq_getElem?_getD]
  cases hv : w.versions[version]? with
  | none => exact List.mem_cons_self
  | some v => exact List.mem_of_getElem? hv

theorem Ok.powerLoss (h : w.Ok) (version : Nat) (left : Nat → Bytes) :
    (w.powerLoss version left).Ok := by
  have hmem : ∀ v ∈ (w.powerLoss version left).versions, v ∈ w.versions := by
    intro v hv
    rw [List.mem_singleton.mp hv]
    exact powerLoss_dir w version left
  exact ⟨fun v hv => h.lt_next v (hmem v hv), fun v hv => h.injective v (hmem v hv)⟩

theorem Ok.powerLoss_apart (h : w.Ok) (version : Nat) (left : Nat → Bytes) (hne : source ≠ target) :
    (w.powerLoss version left).Apart source target := by
  intro i hi v hv he
  rw [List.mem_singleton.mp hv] at he
  exact hne (h.injective _ (powerLoss_dir w version left) source target i hi he)

/-- What a power loss leaves behind a name is a survivor, if that one was synced. -/
theorem survives_powerLoss {version : Nat} {left : Nat → Bytes}
    (hx : (w.powerLoss version left).Survives n x) :
    ∃ y, w.Survives n y ∧ ((y = none ∧ x = none) ∨
      ∃ f g, y = some f ∧ x = some g ∧ g.synced = true ∧ (f.synced = true → g = f)) := by
  obtain ⟨v, hv, rfl⟩ := hx
  rw [List.mem_singleton.mp hv]
  have hd := powerLoss_dir w version left
  cases hi : (w.powerLoss version left).dir n with
  | none => exact ⟨none, ⟨_, hd, by rw [hi]; rfl⟩, Or.inl ⟨rfl, rfl⟩⟩
  | some i =>
    refine ⟨some (w.file i), ⟨_, hd, by rw [hi]; rfl⟩,
      Or.inr ⟨w.file i, (w.powerLoss version left).file i, rfl, rfl, ?_, ?_⟩⟩
    · by_cases hs : (w.file i).synced = true <;> simp [World.powerLoss, hs]
    · intro hs
      simp [World.powerLoss, hs]

/-! ## Creating a file -/

def setDir (w : World Name Pid) (dir : Dir Name) : World Name Pid :=
  { w with dir := dir, older := w.versions }

variable [DecidableEq Name]

/-- A new empty file under a name. -/
def create (w : World Name Pid) (name : Name) : World Name Pid :=
  { (w.setFile w.next ⟨[], false⟩).setDir (Function.update w.dir name (some w.next)) with
    next := w.next + 1 }

theorem Ok.create (h : w.Ok) (m : Name) : (w.create m).Ok := by
  have hnew : ∀ n j, Function.update w.dir m (some w.next) n = some j →
      (n = m ∧ j = w.next) ∨ (n ≠ m ∧ w.dir n = some j) := by
    intro n j hj
    by_cases hn : n = m
    · subst hn
      rw [Function.update_self] at hj
      exact Or.inl ⟨rfl, (Option.some.inj hj).symm⟩
    · rw [Function.update_of_ne hn] at hj
      exact Or.inr ⟨hn, hj⟩
  constructor
  · intro v hv n j hj
    show j < w.next + 1
    rcases List.mem_cons.mp hv with rfl | hv
    · rcases hnew n j hj with ⟨-, rfl⟩ | ⟨-, hj⟩
      · omega
      · have := h.content_lt hj
        omega
    · have := h.lt_next v hv n j hj
      omega
  · intro v hv n n' j hn hn'
    rcases List.mem_cons.mp hv with rfl | hv
    · rcases hnew n j hn with ⟨rfl, rfl⟩ | ⟨-, hj⟩ <;>
        rcases hnew n' _ hn' with ⟨rfl, he⟩ | ⟨-, hj'⟩
      · rfl
      · exact absurd (h.content_lt hj') (lt_irrefl _)
      · exact absurd (he ▸ h.content_lt hj) (lt_irrefl _)
      · exact h.injective w.dir List.mem_cons_self n n' j hj hj'
    · exact h.injective v hv n n' j hn hn'

theorem content_create_self (w : World Name Pid) (m : Name) :
    (w.create m).content m = some ⟨[], false⟩ := by
  simp [content, World.create, World.setDir, World.setFile]

theorem file_create_of_lt (hi : i < w.next) (m : Name) : (w.create m).file i = w.file i :=
  Function.update_of_ne (Nat.ne_of_lt hi) _ _

theorem content_create_of_ne (h : w.Ok) (hn : n ≠ m) : (w.create m).content n = w.content n := by
  have hd : (w.create m).dir n = w.dir n := Function.update_of_ne hn _ _
  unfold content
  rw [hd]
  cases hi : w.dir n with
  | none => rfl
  | some j => exact congrArg some (file_create_of_lt (h.content_lt hi) m)

theorem survives_of_create (h : w.Ok) (hs : (w.create m).Survives n x) :
    w.Survives n x ∨ x = (w.create m).content n := by
  obtain ⟨v, hv, rfl⟩ := hs
  rcases List.mem_cons.mp hv with rfl | hv
  · exact Or.inr rfl
  · refine Or.inl ⟨v, hv, ?_⟩
    cases hi : v n with
    | none => rfl
    | some j => exact congrArg some (file_create_of_lt (h.lt_next v hv n j hi) m).symm

theorem survives_create_of_ne (h : w.Ok) (hn : n ≠ m) :
    (w.create m).Survives n x ↔ w.Survives n x := by
  constructor
  · intro hs
    rcases survives_of_create h hs with hs | rfl
    · exact hs
    · rw [content_create_of_ne h hn]
      exact survives_content w n
  · rintro ⟨v, hv, rfl⟩
    refine ⟨v, List.mem_cons_of_mem _ hv, ?_⟩
    cases hi : v n with
    | none => rfl
    | some j => exact congrArg some (file_create_of_lt (h.lt_next v hv n j hi) m)

theorem Apart.create (h : w.Apart source target) (hw : w.Ok) (hne : source ≠ target) (m : Name) :
    (w.create m).Apart source target := by
  intro i hi v hv he
  have hlt : ∀ n v, v ∈ w.versions → v n = some i → i < w.next := fun n v hv => hw.lt_next v hv n i
  by_cases hs : source = m
  · subst hs
    have hi' : w.next = i := by simpa [World.create, World.setDir, World.setFile] using hi
    rcases List.mem_cons.mp hv with rfl | hv
    · have hd : w.dir target = some i := by
        simpa [World.create, World.setDir, World.setFile, Function.update_of_ne hne.symm] using he
      exact absurd (hlt target w.dir List.mem_cons_self hd) (by omega)
    · exact absurd (hlt target v hv he) (by omega)
  · have hd : w.dir source = some i := by
      simpa [World.create, World.setDir, World.setFile, Function.update_of_ne hs] using hi
    rcases List.mem_cons.mp hv with rfl | hv
    · have hin := hlt source w.dir List.mem_cons_self hd
      by_cases ht : target = m
      · subst ht
        rw [show (w.create target).dir target = some w.next from Function.update_self _ _ _] at he
        have := Option.some.inj he
        omega
      · rw [show (w.create m).dir target = w.dir target from Function.update_of_ne ht _ _] at he
        exact h i hd w.dir List.mem_cons_self he
    · exact h i hd v hv he

/-! ## Renaming -/

/-- Move a directory entry, replacing the target. -/
def move (w : World Name Pid) (source target : Name) (i : Nat) : World Name Pid :=
  w.setDir fun n => if n = target then some i else if n = source then none else w.dir n

theorem Ok.move (h : w.Ok) (hi : w.dir source = some i) (target : Name) :
    (w.move source target i).Ok := by
  have hnew : ∀ n j, (w.move source target i).dir n = some j →
      (n = target ∧ j = i) ∨ (n ≠ source ∧ w.dir n = some j) := by
    intro n j hj
    unfold World.move World.setDir at hj
    by_cases hn : n = target
    · simp only [hn, if_true] at hj
      exact Or.inl ⟨hn, (Option.some.inj hj).symm⟩
    · by_cases hs : n = source
      · simp only [if_neg hn, if_pos hs] at hj
        cases hj
      · simp only [if_neg hn, if_neg hs] at hj
        exact Or.inr ⟨hs, hj⟩
  constructor
  · intro v hv n j hj
    rcases List.mem_cons.mp hv with rfl | hv
    · rcases hnew n j hj with ⟨-, rfl⟩ | ⟨-, hj⟩
      · exact h.content_lt hi
      · exact h.content_lt hj
    · exact h.lt_next v hv n j hj
  · intro v hv n n' j hn hn'
    have hdir : ∀ {a b k}, w.dir a = some k → w.dir b = some k → a = b := fun {a b k} =>
      h.injective w.dir List.mem_cons_self a b k
    rcases List.mem_cons.mp hv with rfl | hv
    · rcases hnew n j hn with ⟨rfl, rfl⟩ | ⟨hs, hj⟩ <;>
        rcases hnew n' _ hn' with ⟨rfl, he⟩ | ⟨hs', hj'⟩
      · rfl
      · exact absurd (hdir hj' hi) hs'
      · exact absurd (hdir (he ▸ hj) hi) hs
      · exact hdir hj hj'
    · exact h.injective v hv n n' j hn hn'

theorem content_move_target (w : World Name Pid) (source target : Name) (i : Nat) :
    (w.move source target i).content target = some (w.file i) := by
  simp [content, World.move, World.setDir]

theorem survives_move : (w.move source target i).Survives n x ↔
    x = (w.move source target i).content n ∨ w.Survives n x := by
  constructor
  · rintro ⟨v, hv, rfl⟩
    rcases List.mem_cons.mp hv with rfl | hv
    · exact Or.inl rfl
    · exact Or.inr ⟨v, hv, rfl⟩
  · rintro (rfl | ⟨v, hv, rfl⟩)
    · exact survives_content _ n
    · exact ⟨v, List.mem_cons_of_mem _ hv, rfl⟩

theorem Apart.move (hne : source ≠ target) : (w.move source target i).Apart source target := by
  intro j hj
  simp [World.move, World.setDir, hne] at hj

/-! ## Booting -/

/-- A machine that has just started, with these files on its disk. -/
def boot (files : List (Name × Bytes)) : World Name Pid where
  dir n := files.findIdx? fun f => f.1 = n
  older := []
  file i := ⟨(files[i]?.map Prod.snd).getD [], true⟩
  next := files.length
  locks _ := none

theorem ok_boot (files : List (Name × Bytes)) : (boot files : World Name Pid).Ok := by
  constructor
  · intro v hv n i hi
    rw [List.mem_singleton.mp hv] at hi
    exact (List.findIdx?_eq_some_iff_findIdx_eq.mp hi).1
  · intro v hv n m i hn hm
    rw [List.mem_singleton.mp hv] at hn hm
    obtain ⟨_, hn', _⟩ := List.findIdx?_eq_some_iff_getElem.mp hn
    obtain ⟨_, hm', _⟩ := List.findIdx?_eq_some_iff_getElem.mp hm
    exact (of_decide_eq_true hn').symm.trans (of_decide_eq_true hm')

theorem apart_boot (files : List (Name × Bytes)) (hne : source ≠ target) :
    (boot files : World Name Pid).Apart source target := by
  intro i hi v hv he
  rw [List.mem_singleton.mp hv] at he
  exact hne ((ok_boot files).injective _ List.mem_cons_self source target i hi he)

/-! ## Execution -/

/-- Carry a file call out, or fail before or after its effect. -/
def attempt {α : Type} (w : World Name Pid) (o : Outcome E)
    (done : Except IoError α × World Name Pid) :
    Except IoError α × World Name Pid :=
  match o with
  | .fail kind late _ => (.error kind, if late then done.2 else w)
  | _ => done

/-- Execute one call of process `pid`. -/
def exec (pid : Pid) (w : World Name Pid) (o : Outcome E) :
    (c : Call Name) → Answer E c × World Name Pid
  | .openSidecar name => w.attempt o <|
    match w.dir name with
    | some i => (.ok i, w)
    | none => (.ok w.next, w.create name)
  | .tryLock fd =>
    match o with
    | .fail kind _ _ => (.error (.error kind), w)
    | _ =>
      match w.locks fd with
      | some _ => (.error .wouldBlock, w)
      | none => (.ok (), w.lock fd pid)
  | .createNew name => w.attempt o <|
    match w.dir name with
    | some _ => (.error .alreadyExists, w)
    | none => (.ok w.next, w.create name)
  | .openRead name => w.attempt o <|
    match w.dir name with
    | some i => (.ok i, w)
    | none => (.error .notFound, w)
  | .fileLen fd => w.attempt o (.ok (w.file fd).bytes.length, w)
  | .readExact fd off n => w.attempt o <|
    if off + n ≤ (w.file fd).bytes.length then (.ok (slice (w.file fd).bytes off n), w)
    else (.error .unexpectedEof, w)
  | .openTruncate name => w.attempt o <|
    match w.dir name with
    | some i => (.ok i, w.setFile i ⟨[], false⟩)
    | none => (.ok w.next, w.create name)
  | .writeAll fd bytes =>
    match o with
    | .fail kind _ left =>
      (.error kind, w.setFile fd ⟨(w.file fd).bytes ++ bytes.take left, false⟩)
    | _ => (.ok (), w.setFile fd ⟨(w.file fd).bytes ++ bytes, false⟩)
  | .syncAll fd => w.attempt o (.ok (), w.setFile fd ⟨(w.file fd).bytes, true⟩)
  | .rename source target => w.attempt o <|
    match w.dir source with
    | some i => (.ok (), w.move source target i)
    | none => (.error .notFound, w)
  | .syncDir => w.attempt o (.ok (), w.syncDir)
  | .close _ => w.attempt o (.ok (), w)
  | .release fd => w.attempt o (.ok (), w.release fd)
  | .random n =>
    match o with
    | .osError code => (.error code, w)
    | .ok data => (.ok (fit n data), w)
    | _ => (.ok (zeros n), w)
  | .fill n =>
    match o with
    | .error e => (.error e, w)
    | .ok data => (.ok (fit n data), w)
    | _ => (.ok (zeros n), w)

/-! ## What a call can do -/

variable {α : Type} {pid : Pid} {o : Outcome E} {w' : World Name Pid} {fd : Fd} {bytes : Bytes}

omit [DecidableEq Name] in
theorem attempt_of_isOk {done : Except IoError α × World Name Pid} (h : o.isOk) :
    w.attempt o done = done := by
  cases o with
  | ok data => rfl
  | fail kind late left => cases h
  | osError code => cases h
  | error e => cases h

omit [DecidableEq Name] in
/-- A call that reads changes nothing, and gives its answer if it is carried out. -/
theorem attempt_read {d r : Except IoError α} (h : w.attempt o (d, w) = (r, w')) :
    w' = w ∧ (r = d ∨ (o.isOk = false ∧ ∃ e, r = .error e)) := by
  cases o with
  | fail kind late left =>
    obtain ⟨rfl, rfl⟩ := Prod.mk.inj h
    exact ⟨by cases late <;> rfl, Or.inr ⟨rfl, kind, rfl⟩⟩
  | ok data => exact ⟨(congrArg Prod.snd h).symm, Or.inl (congrArg Prod.fst h).symm⟩
  | osError code => exact ⟨(congrArg Prod.snd h).symm, Or.inl (congrArg Prod.fst h).symm⟩
  | error e => exact ⟨(congrArg Prod.snd h).symm, Or.inl (congrArg Prod.fst h).symm⟩

omit [DecidableEq Name] in
/-- A file call takes effect or not, and on success it did. -/
theorem attempt_eq {done : Except IoError α × World Name Pid} {r : Except IoError α}
    (h : w.attempt o done = (r, w')) :
    (w' = w ∨ w' = done.2) ∧ ∀ a, r = .ok a → done = (.ok a, w') := by
  unfold attempt at h
  cases o with
  | fail kind late left =>
    obtain ⟨rfl, rfl⟩ := Prod.mk.inj h
    refine ⟨?_, fun a ha => ?_⟩
    · cases late with
      | false => exact Or.inl rfl
      | true => exact Or.inr rfl
    · cases ha
  | ok data => exact ⟨Or.inr (congrArg Prod.snd h).symm, fun a ha => ha ▸ h⟩
  | osError code => exact ⟨Or.inr (congrArg Prod.snd h).symm, fun a ha => ha ▸ h⟩
  | error e => exact ⟨Or.inr (congrArg Prod.snd h).symm, fun a ha => ha ▸ h⟩

omit [DecidableEq Name] in
theorem attempt_decides {done : Except IoError α × World Name Pid} {a : α} (h : done.1 = .ok a) :
    o.Decides (w.attempt o done).1 := by
  cases o with
  | fail kind late left => exact Or.inr ⟨kind, rfl, rfl⟩
  | ok data => exact Or.inl ⟨⟨a, h⟩, rfl⟩
  | osError code => exact Or.inl ⟨⟨a, h⟩, rfl⟩
  | error e => exact Or.inl ⟨⟨a, h⟩, rfl⟩

/-- The world after an open that creates a missing file. -/
def touch (w : World Name Pid) (name : Name) : World Name Pid :=
  if w.dir name = none then w.create name else w

theorem locks_touch (w : World Name Pid) (n : Name) : (w.touch n).locks = w.locks := by
  unfold touch
  split <;> rfl

theorem content_touch_of_ne (h : w.Ok) (hn : target ≠ n) :
    (w.touch n).content target = w.content target := by
  unfold touch
  split
  · exact content_create_of_ne h hn
  · rfl

theorem exec_openSidecar {r : Except IoError Fd}
    (h : w.exec pid o (.openSidecar n) = (r, w')) :
    (w' = w ∨ w' = w.touch n) ∧ (∀ fd, r = .ok fd → w'.dir n = some fd) ∧
      (o.isOk → ∃ fd, r = .ok fd) := by
  have hok : o.isOk → (r, w') = _ := fun ho => h.symm.trans (attempt_of_isOk ho)
  obtain ⟨hw, hr⟩ := attempt_eq h
  cases hd : w.dir n with
  | some i =>
    simp only [hd] at hw hr hok
    refine ⟨Or.inl (hw.elim id id), fun fd hfd => ?_, fun ho => ⟨i, congrArg Prod.fst (hok ho)⟩⟩
    obtain ⟨he, rfl⟩ := Prod.mk.inj (hr fd hfd)
    cases he
    exact hd
  | none =>
    simp only [hd] at hw hr hok
    rw [touch, if_pos hd]
    refine ⟨hw, fun fd hfd => ?_, fun ho => ⟨w.next, congrArg Prod.fst (hok ho)⟩⟩
    obtain ⟨he, rfl⟩ := Prod.mk.inj (hr fd hfd)
    cases he
    exact Function.update_self _ _ _

theorem exec_openRead {r : Except IoError Fd} (h : w.exec pid o (.openRead n) = (r, w')) :
    w' = w ∧ (r = (match w.dir n with | some i => .ok i | none => .error .notFound) ∨
      (o.isOk = false ∧ ∃ e, r = .error e)) := by
  refine attempt_read (h ▸ ?_)
  show w.attempt o _ = w.attempt o _
  cases w.dir n <;> rfl

theorem exec_fileLen {r : Except IoError Nat} (h : w.exec pid o (.fileLen fd) = (r, w')) :
    w' = w ∧ (r = .ok (w.file fd).bytes.length ∨ (o.isOk = false ∧ ∃ e, r = .error e)) :=
  attempt_read h

theorem exec_readExact {off k : Nat} {r : Except IoError (Block k)}
    (h : w.exec pid o (.readExact fd off k) = (r, w')) (hlen : off + k ≤ (w.file fd).bytes.length) :
    w' = w ∧ (r = .ok (slice (w.file fd).bytes off k) ∨
      (o.isOk = false ∧ ∃ e, r = .error e)) := by
  refine attempt_read (h ▸ ?_)
  show w.attempt o _ = w.attempt o (if _ then _ else _)
  rw [if_pos hlen]

theorem exec_createNew {r : Except IoError Fd} (h : w.exec pid o (.createNew n) = (r, w')) :
    (w' = w ∨ (w.dir n = none ∧ w' = w.create n)) ∧
      ∀ fd, r = .ok fd → w.dir n = none ∧ w' = w.create n ∧ fd = w.next := by
  obtain ⟨hw, hr⟩ := attempt_eq h
  cases hd : w.dir n with
  | some i =>
    simp only [hd] at hw hr
    refine ⟨Or.inl (hw.elim id id), fun fd hfd => ?_⟩
    cases (Prod.mk.inj (hr fd hfd)).1
  | none =>
    simp only [hd] at hw hr
    refine ⟨hw.imp id fun he => ⟨rfl, he⟩, fun fd hfd => ?_⟩
    obtain ⟨he, rfl⟩ := Prod.mk.inj (hr fd hfd)
    cases he
    exact ⟨rfl, rfl, rfl⟩

theorem exec_openTruncate {r : Except IoError Fd}
    (h : w.exec pid o (.openTruncate n) = (r, w')) :
    (w' = w ∨ (∃ i, w.dir n = some i ∧ w' = w.setFile i ⟨[], false⟩) ∨ w' = w.create n) ∧
      ∀ fd, r = .ok fd → w'.dir n = some fd ∧ w'.file fd = ⟨[], false⟩ := by
  obtain ⟨hw, hr⟩ := attempt_eq h
  cases hd : w.dir n with
  | some i =>
    simp only [hd] at hw hr
    refine ⟨hw.imp id fun he => Or.inl ⟨i, rfl, he⟩, fun fd hfd => ?_⟩
    obtain ⟨he, rfl⟩ := Prod.mk.inj (hr fd hfd)
    cases he
    exact ⟨hd, Function.update_self _ _ _⟩
  | none =>
    simp only [hd] at hw hr
    refine ⟨hw.imp id Or.inr, fun fd hfd => ?_⟩
    obtain ⟨he, rfl⟩ := Prod.mk.inj (hr fd hfd)
    cases he
    exact ⟨Function.update_self _ _ _, Function.update_self _ _ _⟩

theorem exec_writeAll {r : Except IoError Unit}
    (h : w.exec pid o (.writeAll fd bytes) = (r, w')) :
    ∃ done, w' = w.setFile fd ⟨(w.file fd).bytes ++ done, false⟩ ∧ (r = .ok () → done = bytes) := by
  cases o with
  | fail kind late left =>
    obtain ⟨rfl, rfl⟩ := Prod.mk.inj h
    refine ⟨bytes.take left, rfl, fun he => ?_⟩
    cases he
  | ok data => exact ⟨bytes, (congrArg Prod.snd h).symm, fun _ => rfl⟩
  | osError code => exact ⟨bytes, (congrArg Prod.snd h).symm, fun _ => rfl⟩
  | error e => exact ⟨bytes, (congrArg Prod.snd h).symm, fun _ => rfl⟩

theorem exec_syncAll {r : Except IoError Unit} (h : w.exec pid o (.syncAll fd) = (r, w')) :
    (w' = w ∨ w' = w.setFile fd ⟨(w.file fd).bytes, true⟩) ∧
      (r = .ok () → w' = w.setFile fd ⟨(w.file fd).bytes, true⟩) := by
  obtain ⟨hw, hr⟩ := attempt_eq h
  exact ⟨hw, fun he => (congrArg Prod.snd (hr () he)).symm⟩

theorem exec_rename {r : Except IoError Unit} (hi : w.dir source = some i)
    (h : w.exec pid o (.rename source target) = (r, w')) :
    (w' = w ∨ w' = w.move source target i) ∧ (r = .ok () → w' = w.move source target i) := by
  obtain ⟨hw, hr⟩ := attempt_eq h
  simp only [hi] at hw hr
  exact ⟨hw, fun he => (congrArg Prod.snd (hr () he)).symm⟩

theorem exec_syncDir {r : Except IoError Unit} (h : w.exec pid o .syncDir = (r, w')) :
    (w' = w ∨ w' = w.syncDir) ∧ (r = .ok () → w' = w.syncDir) := by
  obtain ⟨hw, hr⟩ := attempt_eq h
  exact ⟨hw, fun he => (congrArg Prod.snd (hr () he)).symm⟩

theorem exec_tryLock {r : Except TryLockError Unit}
    (h : w.exec pid o (.tryLock fd) = (r, w')) :
    (r = .ok () ∧ w.locks fd = none ∧ w' = w.lock fd pid) ∨
      (∃ e, r = .error e ∧ (o.isOk → e = .wouldBlock)) ∧ w' = w := by
  have hdone : ∀ {done : Except TryLockError Unit × World Name Pid}, done = (r, w') →
      (done = match w.locks fd with
        | some _ => (.error .wouldBlock, w)
        | none => (.ok (), w.lock fd pid)) →
      (r = .ok () ∧ w.locks fd = none ∧ w' = w.lock fd pid) ∨
        (∃ e, r = .error e ∧ (o.isOk → e = .wouldBlock)) ∧ w' = w := by
    intro done h hd
    subst hd
    cases hl : w.locks fd with
    | none =>
      simp only [hl] at h
      obtain ⟨rfl, rfl⟩ := Prod.mk.inj h
      exact Or.inl ⟨rfl, rfl, rfl⟩
    | some q =>
      simp only [hl] at h
      obtain ⟨rfl, rfl⟩ := Prod.mk.inj h
      exact Or.inr ⟨⟨_, rfl, fun _ => rfl⟩, rfl⟩
  cases o with
  | fail kind late left =>
    obtain ⟨rfl, rfl⟩ := Prod.mk.inj h
    refine Or.inr ⟨⟨_, rfl, fun hok => ?_⟩, rfl⟩
    cases hok
  | ok data => exact hdone h rfl
  | osError code => exact hdone h rfl
  | error e => exact hdone h rfl

/-! ### Success -/

theorem decides_openTruncate {r : Except IoError Fd}
    (h : w.exec pid o (.openTruncate n) = (r, w')) :
    o.Decides r := by
  have hr : r = (w.exec pid o (.openTruncate n)).1 := by rw [h]
  rw [hr]
  cases hd : w.dir n with
  | some i =>
    simp only [exec, hd]
    exact attempt_decides rfl
  | none =>
    simp only [exec, hd]
    exact attempt_decides rfl

theorem decides_writeAll {r : Except IoError Unit}
    (h : w.exec pid o (.writeAll fd bytes) = (r, w')) : o.Decides r := by
  have hr : r = (w.exec pid o (.writeAll fd bytes)).1 := by rw [h]
  rw [hr]
  cases o with
  | fail kind late left => exact Or.inr ⟨kind, rfl, rfl⟩
  | ok data => exact Or.inl ⟨⟨(), rfl⟩, rfl⟩
  | osError code => exact Or.inl ⟨⟨(), rfl⟩, rfl⟩
  | error e => exact Or.inl ⟨⟨(), rfl⟩, rfl⟩

theorem decides_syncAll {r : Except IoError Unit} (h : w.exec pid o (.syncAll fd) = (r, w')) :
    o.Decides r := by
  have hr : r = (w.exec pid o (.syncAll fd)).1 := by rw [h]
  rw [hr]
  exact attempt_decides rfl

theorem decides_rename {r : Except IoError Unit} (hi : w.dir source = some i)
    (h : w.exec pid o (.rename source target) = (r, w')) : o.Decides r := by
  have hr : r = (w.exec pid o (.rename source target)).1 := by rw [h]
  rw [hr]
  simp only [exec, hi]
  exact attempt_decides rfl

theorem decides_syncDir {r : Except IoError Unit} (h : w.exec pid o .syncDir = (r, w')) :
    o.Decides r := by
  have hr : r = (w.exec pid o .syncDir).1 := by rw [h]
  rw [hr]
  exact attempt_decides rfl

end World

end Infra.Os
