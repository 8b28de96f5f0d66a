import SolanaWinternitz.Properties.FileCalls
import SolanaWinternitz.System

/-!
# What a step of the machine does

`Inv` is the invariant that every event preserves, power losses included:

* the lock belongs to one client at most, and only its holder changes the files (`Turn`)
* the holder goes on as its program is specified, and a live signer owns its file
* every other client is idle or waits for the lock

`step_moved` says what a step does; what the clients are told satisfies `Reported`.
-/

namespace SolanaWinternitz

open Infra Infra.Os

namespace Machine

variable [Keccak] {K Pid : Type} [OneTime K] {path : String}
  {A : Outcome SigningError → Prop} {D : World String Pid → Prop} {pid q : Pid}
  {w w' : World String Pid}

/-! ## Starting -/

/-- `create` or `open` once the lock is held. -/
def afterLock (K : Type) [OneTime K] (path : String) (opening : Bool) (fd : Fd) :
    Fallible (SigningKey K) :=
  if opening then SigningKey.openLocked K path fd else SigningKey.createLocked K path fd

/-- `create` or `open` with the answer of the lock. -/
def locked (K : Type) [OneTime K] (path : String) (opening : Bool) (fd : Fd) :
    Except TryLockError Unit → Action (Except SigningError (SigningKey K))
  | .ok () => (afterLock K path opening fd).run
  | .error .wouldBlock => .ret (.error .locked)
  | .error (.error kind) => .ret (.error (.io kind))

/-- `create` or `open` once the lock file is open. -/
def acquire (K : Type) [OneTime K] (path : String) (opening : Bool) (fd : Fd) :
    Action (Except SigningError (SigningKey K)) :=
  .call (.tryLock fd) (locked K path opening fd)

/-- `create` or `open` with the lock file. -/
def opened (K : Type) [OneTime K] (path : String) (opening : Bool) :
    Except IoError Fd → Action (Except SigningError (SigningKey K))
  | .ok fd => acquire K path opening fd
  | .error kind => .ret (.error (.io kind))

/-- `create` or `open`. -/
def begin (K : Type) [OneTime K] (path : String) (opening : Bool) :
    Action (Except SigningError (SigningKey K)) :=
  .call (.openSidecar (sibling path ".lock")) (opened K path opening)

/-- Both functions take the lock first. -/
theorem lock_bind (opening : Bool) :
    (lock path >>= afterLock K path opening).run = begin K path opening := by
  refine congrArg (Prog.call _) (funext fun r => ?_)
  change Except IoError Fd at r
  cases r with
  | error kind => rfl
  | ok fd =>
    refine congrArg (Prog.call _) (funext fun r => ?_)
    change Except TryLockError Unit at r
    cases r with
    | ok u => rfl
    | error e => cases e <;> rfl

theorem create_eq : (SigningKey.create K path).run = begin K path false := lock_bind false

theorem openFile_eq : (SigningKey.openFile K path).run = begin K path true := lock_bind true

/-! ## What an event does -/

/-- The client that an event is about. -/
def actor : Event Pid → Option Pid
  | .create pid | .openFile pid | .sign pid _ | .signWithRng pid _
  | .requireNextLeafAtLeast pid _ | .io pid _ | .drop pid | .kill pid => some pid
  | .powerLoss _ _ => none

section

variable [DecidableEq Pid]

/--
What client `pid` does in event `e`: the directory that it leaves, what it is doing then, and what
it was told.
-/
inductive Acts (path : String) (m : Machine K Pid) (e : Event Pid) (pid : Pid) :
    World String Pid → Client K → Option (Report K) → Prop where
  | start {opening : Bool} (h : m.client pid = .idle) :
      Acts path m e pid m.world (.starting opening true (begin K path opening)) none
  | sign {message : Message} {fill : FillSource} {signer : SigningKey K}
      (h : m.client pid = .live signer)
      (he : e = .sign pid message ∧ fill = osFill ∨
        e = .signWithRng pid message ∧ fill = callerFill) :
      Acts path m e pid m.world
        (.signing message (signer.lastMessage = some message)
          (signer.signWithRng message fill)) none
  | leave : Acts path m e pid (m.world.unlock pid) .idle none
  | startCall {opening clean : Bool} {c : Call String} {k} {o : Outcome SigningError}
      {r : Answer SigningError c} {w : World String Pid}
      (h : m.client pid = .starting opening clean (.call c k)) (he : e = .io pid o)
      (hexec : m.world.exec pid o c = (r, w)) :
      Acts path m e pid w (.starting opening (clean && o.isOk) (k r)) none
  | started {opening clean : Bool} {signer : SigningKey K}
      (h : m.client pid = .starting opening clean (.ret (.ok signer))) :
      Acts path m e pid m.world (.live signer) (some (.started opening clean (.ok ())))
  | refused {opening clean : Bool} {error : SigningError}
      (h : m.client pid = .starting opening clean (.ret (.error error))) :
      Acts path m e pid (m.world.unlock pid) .idle (some (.started opening clean (.error error)))
  | signCall {message : Message} {retry : Bool} {c : Call String} {k} {o : Outcome SigningError}
      {r : Answer SigningError c} {w : World String Pid}
      (h : m.client pid = .signing message retry (.call c k)) (he : e = .io pid o)
      (hexec : m.world.exec pid o c = (r, w)) :
      Acts path m e pid w (.signing message retry (k r)) none
  | signed {message : Message} {retry : Bool}
      {result : Except SigningError (OneTime.Signature K)} {signer : SigningKey K}
      (h : m.client pid = .signing message retry (.ret (result, signer))) :
      Acts path m e pid m.world (.live signer) (some (.signed message retry result))

/-- The machine after an action. -/
def acted (m : Machine K Pid) (pid : Pid) (w : World String Pid) (c : Client K)
    (report : Option (Report K)) : Machine K Pid :=
  { world := w, client := Function.update m.client pid c, log := report.toList ++ m.log }

variable {m : Machine K Pid} {e : Event Pid}

/-- The call that the client makes next. -/
def Calls (c : Call String) : Client K → Prop
  | .starting _ _ (.call c' _) | .signing _ _ (.call c' _) => c' = c
  | _ => False

/-- Two machines in which the client of the event does the same, and `T` of the directories. -/
inductive ActedBoth (path : String) (T : World String Pid → World String Pid → Prop)
    (m m' : Machine K Pid) (e : Event Pid) (m1 m1' : Machine K Pid) : Prop where
  | none (h : m1 = m) (h' : m1' = m')
  | acts {pid : Pid} {w w' : World String Pid} {c : Client K} {report : Option (Report K)}
      (hactor : actor e = some pid) (ha : Acts path m e pid w c report) (hT : T w w')
      (h : m1 = m.acted pid w c report) (h' : m1' = m'.acted pid w' c report)

variable {T : World String Pid → World String Pid → Prop} {m' : Machine K Pid}

theorem actedBoth_advance {o : Outcome SigningError} (hclient : m'.client pid = m.client pid)
    (hsame : T m.world m'.world) (hunlock : T (m.world.unlock pid) (m'.world.unlock pid))
    (hexec : ∀ c, Calls c (m.client pid) →
      (m.world.exec pid o c).1 = (m'.world.exec pid o c).1 ∧
        T (m.world.exec pid o c).2 (m'.world.exec pid o c).2) :
    ActedBoth path T m m' (.io pid o) (m.advance pid o) (m'.advance pid o) := by
  unfold advance
  cases hc : m.client pid with
  | idle =>
    rw [hclient, hc]
    exact .none rfl rfl
  | live signer =>
    rw [hclient, hc]
    exact .none rfl rfl
  | starting opening clean rest =>
    rw [hclient, hc]
    cases rest with
    | ret r =>
      cases r with
      | ok signer => exact .acts rfl (.started hc) hsame rfl rfl
      | error e => exact .acts rfl (.refused hc) hunlock rfl rfl
    | call c k =>
      obtain ⟨hanswer, hT⟩ := hexec c (by rw [hc]; rfl)
      refine .acts (w := (m.world.exec pid o c).2) rfl
        (.startCall hc rfl Prod.mk.eta.symm) hT rfl ?_
      show m'.acted pid (m'.world.exec pid o c).2
        (.starting opening (clean && o.isOk) (k (m'.world.exec pid o c).1)) none = _
      rw [← hanswer]
  | signing message retry rest =>
    rw [hclient, hc]
    cases rest with
    | ret r => exact .acts rfl (.signed hc) hsame rfl rfl
    | call c k =>
      obtain ⟨hanswer, hT⟩ := hexec c (by rw [hc]; rfl)
      refine .acts (w := (m.world.exec pid o c).2) rfl (.signCall hc rfl Prod.mk.eta.symm) hT rfl ?_
      show m'.acted pid (m'.world.exec pid o c).2
        (.signing message retry (k (m'.world.exec pid o c).1)) none = _
      rw [← hanswer]

/-- **What a client does depends on itself and on the answer to its call only.** -/
theorem actedBoth_step (path : String) (he : e.isPowerLoss = false)
    (hclient : ∀ pid, actor e = some pid → m'.client pid = m.client pid)
    (hsame : T m.world m'.world)
    (hunlock : ∀ pid, actor e = some pid → T (m.world.unlock pid) (m'.world.unlock pid))
    (hexec : ∀ pid o c, e = .io pid o → Calls c (m.client pid) →
      (m.world.exec pid o c).1 = (m'.world.exec pid o c).1 ∧
        T (m.world.exec pid o c).2 (m'.world.exec pid o c).2) :
    ActedBoth path T m m' e (m.step path e) (m'.step path e) := by
  cases e with
  | create pid =>
    simp only [step, hclient pid rfl]
    cases hc : m.client pid with
    | idle =>
      rw [create_eq]
      exact .acts rfl (.start hc) hsame rfl rfl
    | _ => exact .none rfl rfl
  | openFile pid =>
    simp only [step, hclient pid rfl]
    cases hc : m.client pid with
    | idle =>
      rw [openFile_eq]
      exact .acts rfl (.start hc) hsame rfl rfl
    | _ => exact .none rfl rfl
  | sign pid message =>
    simp only [step, signing, hclient pid rfl]
    cases hc : m.client pid with
    | live signer => exact .acts rfl (.sign hc (Or.inl ⟨rfl, rfl⟩)) hsame rfl rfl
    | _ => exact .none rfl rfl
  | signWithRng pid message =>
    simp only [step, signing, hclient pid rfl]
    cases hc : m.client pid with
    | live signer => exact .acts rfl (.sign hc (Or.inr ⟨rfl, rfl⟩)) hsame rfl rfl
    | _ => exact .none rfl rfl
  | requireNextLeafAtLeast pid minimum =>
    have hc' := hclient pid rfl
    simp only [step, hc']
    cases hc : m.client pid with
    | live signer =>
      dsimp only
      unfold SigningKey.requireNextLeafAtLeast
      by_cases hlt : signer.nextLeaf < minimum
      · rw [if_pos hlt]
        exact .acts rfl .leave (hunlock pid rfl) rfl rfl
      · rw [if_neg hlt]
        refine .none ?_ ?_
        · dsimp only
          rw [← hc, set, Function.update_eq_self]
        · dsimp only
          rw [← hc, ← hc', set, Function.update_eq_self]
    | _ => exact .none rfl rfl
  | io pid o =>
    exact actedBoth_advance (hclient pid rfl) hsame (hunlock pid rfl) fun c => hexec pid o c rfl
  | drop pid =>
    simp only [step, hclient pid rfl]
    cases hc : m.client pid with
    | live signer => exact .acts rfl .leave (hunlock pid rfl) rfl rfl
    | _ => exact .none rfl rfl
  | kill pid => exact .acts rfl .leave (hunlock pid rfl) rfl rfl
  | powerLoss version left => cases he

/-- **Every event but a power loss is an action of one client**, or changes nothing. -/
theorem acted_step (path : String) (m : Machine K Pid) (he : e.isPowerLoss = false) :
    m.step path e = m ∨ ∃ pid w c report, actor e = some pid ∧ Acts path m e pid w c report ∧
      m.step path e = m.acted pid w c report := by
  have hself : ActedBoth path (fun _ _ => True) m m e (m.step path e) (m.step path e) :=
    actedBoth_step path he (fun _ _ => rfl) trivial (fun _ _ => trivial)
      fun _ _ _ _ _ => ⟨rfl, trivial⟩
  cases hself with
  | none h => exact Or.inl h
  | acts hactor ha hT h => exact Or.inr ⟨_, _, _, _, hactor, ha, h⟩

end

/-! ## The lock -/

/-- The client holds the lock of the path. -/
def Holds (path : String) (w : World String Pid) (pid : Pid) : Prop :=
  ∃ i, w.dir (sibling path ".lock") = some i ∧ w.locks i = some pid

omit [Keccak] in
theorem Holds.unique (h : Holds path w pid) (h' : Holds path w q) : pid = q := by
  obtain ⟨i, hi, hp⟩ := h
  obtain ⟨j, hj, hq⟩ := h'
  cases hi.symm.trans hj
  exact Option.some.inj (hp.symm.trans hq)

/-- A directory in which signers can work: only the lock file is locked. -/
structure WorldOk (path : String) (w : World String Pid) : Prop where
  ok : w.Ok
  apart : w.Apart (sibling path ".tmp") path
  locks : ∀ i pid, w.locks i = some pid → w.dir (sibling path ".lock") = some i

omit [Keccak] in
theorem Holds.of_locks (h : WorldOk path w) (hlocks : w'.locks = w.locks)
    (hpid : Holds path w' pid) : Holds path w pid := by
  obtain ⟨i, -, hi⟩ := hpid
  rw [hlocks] at hi
  exact ⟨i, h.locks i pid hi, hi⟩

/-- What one client may do to the directory, the lock and the others. -/
structure Turn (K : Type) [OneTime K] (path : String) (pid : Pid) (w w' : World String Pid) :
    Prop where
  worldOk : WorldOk path w'
  evolves : World.Evolves (decode K) Record.After path w w'
  lockFile : ∀ i, w.dir (sibling path ".lock") = some i → w'.dir (sibling path ".lock") = some i
  holds : ∀ q, q ≠ pid → Holds path w' q → Holds path w q
  same : ∀ q, q ≠ pid → Holds path w q → w' = w

theorem Turn.refl (h : WorldOk path w) : Turn K path pid w w :=
  ⟨h, .refl w, fun _ hi => hi, fun _ _ hq => hq, fun _ _ _ => rfl⟩

/-- The holder makes a call. -/
theorem Turn.frame (h : WorldOk path w) (hpid : Holds path w pid) (hf : Frame K path w w') :
    Turn K path pid w w' where
  worldOk := ⟨hf.ok, hf.apart, fun i q hq => by
    rw [hf.lockFile]
    exact h.locks i q (hf.locks ▸ hq)⟩
  evolves := hf.evolves
  lockFile i hi := hf.lockFile.trans hi
  holds q _ := by
    rintro ⟨i, hi, hq⟩
    exact ⟨i, hf.lockFile ▸ hi, hf.locks ▸ hq⟩
  same q hne hq := absurd (hq.unique hpid) hne

/-- The client lets go of the lock, if it held it. -/
theorem Turn.unlock [DecidableEq Pid] (h : WorldOk path w) : Turn K path pid w (w.unlock pid) where
  worldOk := ⟨⟨h.ok.1, h.ok.2⟩, h.apart, fun i q hq => h.locks i q (World.unlock_locks.mp hq).1⟩
  evolves := .of_eq rfl fun _ hx => hx
  lockFile _ hi := hi
  holds q _ := by
    rintro ⟨i, hi, hq⟩
    exact ⟨i, hi, (World.unlock_locks.mp hq).1⟩
  same q hne hq := World.unlock_eq_self fun i hi => hne (hq.unique ⟨i, h.locks i pid hi, hi⟩)

omit [Keccak] in
theorem not_holds_unlock [DecidableEq Pid] : ¬ Holds path (w.unlock pid) pid := by
  rintro ⟨i, -, hi⟩
  exact (World.unlock_locks.mp hi).2 rfl

/-- The client opens the lock file, which it creates if there is none. -/
theorem Turn.touch (h : WorldOk path w) : Turn K path pid w (w.touch (sibling path ".lock")) := by
  unfold World.touch
  by_cases hd : w.dir (sibling path ".lock") = none
  · have hfree : ∀ i q, w.locks i ≠ some q := fun i q hq => by
      cases hd.symm.trans (h.locks i q hq)
    have hne : path ≠ sibling path ".lock" := (sibling_ne (by decide)).symm
    rw [if_pos hd]
    exact {
      worldOk := ⟨h.ok.create _, h.apart.create h.ok (sibling_ne (by decide)) _,
        fun i q hq => absurd hq (hfree i q)⟩
      evolves := .of_eq (World.content_create_of_ne h.ok hne)
        fun x => (World.survives_create_of_ne h.ok hne).mp
      lockFile := fun i hi => by cases hd.symm.trans hi
      holds := fun q _ ⟨i, _, hi⟩ => absurd hi (hfree i q)
      same := fun q _ ⟨i, _, hi⟩ => absurd hi (hfree i q) }
  · rw [if_neg hd]
    exact .refl h

/-- The client gets the lock. -/
theorem Turn.lock {fd : Fd} (h : WorldOk path w) (hfd : w.dir (sibling path ".lock") = some fd)
    (hfree : w.locks fd = none) : Turn K path pid w (w.lock fd pid) where
  worldOk := ⟨⟨h.ok.1, h.ok.2⟩, h.apart, fun i q hq => by
    rcases World.of_lock_locks hq with ⟨rfl, -⟩ | hq
    · exact hfd
    · exact h.locks i q hq⟩
  evolves := .of_eq rfl fun _ hx => hx
  lockFile _ hi := hi
  holds := by
    rintro q hne ⟨i, hi, hq⟩
    rcases World.of_lock_locks hq with ⟨-, rfl⟩ | hq
    · exact absurd rfl hne
    · exact ⟨i, hi, hq⟩
  same := by
    rintro q - ⟨i, hi, hq⟩
    cases hi.symm.trans hfd
    cases hfree.symm.trans hq

omit [Keccak] in
theorem holds_lock {fd : Fd} (hfd : w.dir (sibling path ".lock") = some fd) :
    Holds path (w.lock fd pid) pid := ⟨fd, hfd, Function.update_self _ _ _⟩

/-! ## The invariant -/

/-- A client that has called `create` or `open` and has no lock. -/
inductive Waiting (K : Type) [OneTime K] (path : String) (w : World String Pid)
    (opening clean : Bool) : Action (Except SigningError (SigningKey K)) → Prop where
  | begin : Waiting K path w opening clean (begin K path opening)
  | acquire {fd : Fd} (h : w.dir (sibling path ".lock") = some fd) :
      Waiting K path w opening clean (acquire K path opening fd)
  | failed {e : SigningError} (h : clean = true → e = .locked) :
      Waiting K path w opening clean (.ret (.error e))

/-- What `create` and `open` return once they hold the lock. -/
def Started (path : String) (opening : Bool) (r : Except SigningError (SigningKey K))
    (s : View Pid) : Prop :=
  match r with
  | .ok signer => Owns path s.1 signer ∧ (opening = false →
      ∃ f, s.1.Durable path f ∧ decode K f.bytes = some signer.record)
  | .error _ => opening = true → s.2 = true → s.1.visible (decode K) path = none

def ClientOk (path : String) (A : Outcome SigningError → Prop) (D : World String Pid → Prop)
    (w : World String Pid) (pid : Pid) : Client K → Prop
  | .idle => ¬ Holds path w pid
  | .starting opening clean rest =>
    (¬ Holds path w pid ∧ Waiting K path w opening clean rest) ∨
      (Holds path w pid ∧ rest.Always (Runs A pid) (fun s s' => Frame K path s.1 s'.1)
        (Started path opening) (w, clean))
  | .live signer => Holds path w pid ∧ Owns path w signer
  | .signing message retry rest =>
    Holds path w pid ∧ ∃ clean, rest.Always (Runs A pid) (fun s s' => Frame K path s.1 s'.1)
      (fun r s => Signed path A D message retry r s.1) (w, clean)

structure Inv (path : String) (A : Outcome SigningError → Prop) (D : World String Pid → Prop)
    (m : Machine K Pid) : Prop where
  world : WorldOk path m.world
  client : ∀ pid, ClientOk path A D m.world pid (m.client pid)

/-- The steps of other clients do not disturb a client. -/
theorem ClientOk.turn {c : Client K} (ht : Turn K path pid w w') (hne : q ≠ pid)
    (h : ClientOk path A D w q c) : ClientOk path A D w' q c := by
  by_cases hq : Holds path w q
  · rw [ht.same q hne hq]
    exact h
  · have hq' : ¬ Holds path w' q := fun h' => hq (ht.holds q hne h')
    cases c with
    | idle => exact hq'
    | live signer => exact absurd h.1 hq
    | signing message retry rest => exact absurd h.1 hq
    | starting opening clean rest =>
      rcases h with ⟨-, hwait⟩ | ⟨h, -⟩
      · refine Or.inl ⟨hq', ?_⟩
        cases hwait with
        | begin => exact .begin
        | acquire hfd => exact .acquire (ht.lockFile _ hfd)
        | failed he => exact .failed he
      · exact absurd h hq

/-- A client that has a signer holds the lock. -/
theorem Inv.holds {m : Machine K Pid} (h : Inv path A D m) (hlive : (m.client pid).Live) :
    Holds path m.world pid := by
  have hc := h.client pid
  cases hm : m.client pid with
  | idle =>
    rw [hm] at hlive
    exact hlive.elim
  | starting opening clean rest =>
    rw [hm] at hlive
    exact hlive.elim
  | live signer => exact (hm ▸ hc : ClientOk path A D m.world pid (.live signer)).1
  | signing message retry rest =>
    exact (hm ▸ hc : ClientOk path A D m.world pid (.signing message retry rest)).1

/-- A live signer owns its file. -/
theorem Inv.owns {m : Machine K Pid} (h : Inv path A D m) {signer : SigningKey K}
    (hlive : m.client pid = .live signer) : Owns path m.world signer := by
  have hc := h.client pid
  rw [hlive] at hc
  exact hc.2

/-! ## One step -/

/-- What is known about a new entry of the log. -/
def Reported (path : String) (A : Outcome SigningError → Prop) (D : World String Pid → Prop)
    (w : World String Pid) : Report K → Prop
  | .started opening _ (.ok ()) => opening = false →
      ∃ f record, w.Durable path f ∧ decode K f.bytes = some record
  | .started opening clean (.error e) => opening = true → clean = true →
      e = .locked ∨ w.visible (decode K) path = none
  | .signed message retry (.ok sig) => ∃ f record, w.content path = some f ∧
      decode K f.bytes = some record ∧ record.Signs message sig ∧
      (retry = false → w.Durable path f) ∧ (retry = true → D w)
  | .signed _ _ (.error e) => e = .corrupt → A (.error .corrupt)

/-- A step of one client. -/
structure Moved (path : String) (A : Outcome SigningError → Prop) (D : World String Pid → Prop)
    (pid : Pid) (m m' : Machine K Pid) : Prop where
  turn : Turn K path pid m.world m'.world
  client : ClientOk path A D m'.world pid (m'.client pid)
  others : ∀ q, q ≠ pid → m'.client q = m.client q
  log : m'.log = m.log ∨ ∃ r, m'.log = r :: m.log ∧ Reported path A D m'.world r

theorem Moved.refl {m : Machine K Pid} (h : Inv path A D m) (pid : Pid) : Moved path A D pid m m :=
  ⟨.refl h.world, h.client pid, fun _ _ => rfl, Or.inl rfl⟩

theorem Inv.moved {m m' : Machine K Pid} (h : Inv path A D m) (hm : Moved path A D pid m m') :
    Inv path A D m' where
  world := hm.turn.worldOk
  client q := by
    by_cases hq : q = pid
    · subst hq
      exact hm.client
    · rw [hm.others q hq]
      exact (h.client q).turn hm.turn hq

theorem Moved.report {m m' : Machine K Pid} (hm : Moved path A D pid m m') (hlog : m'.log = m.log)
    {r : Report K} (hr : Reported path A D m'.world r) : Moved path A D pid m (m'.report r) :=
  ⟨hm.turn, hm.client, hm.others, Or.inr ⟨r, congrArg (r :: ·) hlog, hr⟩⟩

variable [DecidableEq Pid] {m : Machine K Pid}

/-- The client changes, and the directory with it. -/
theorem Moved.set {c : Client K} (ht : Turn K path pid m.world w) (hc : ClientOk path A D w pid c) :
    Moved path A D pid m ({ m with world := w }.set pid c) where
  turn := ht
  client := by
    show ClientOk path A D w pid (Function.update m.client pid c pid)
    rw [Function.update_self]
    exact hc
  others q hq := Function.update_of_ne hq _ _
  log := Or.inl rfl

theorem Moved.leave (h : Inv path A D m) (pid : Pid) : Moved path A D pid m (m.leave pid) :=
  Moved.set (c := .idle) (.unlock h.world) not_holds_unlock

omit [DecidableEq Pid] in
/-- The holder makes a call. -/
theorem Holds.frame (hpid : Holds path w pid) (hf : Frame K path w w') : Holds path w' pid := by
  obtain ⟨i, hi, hp⟩ := hpid
  exact ⟨i, hf.lockFile.trans hi, hf.locks ▸ hp⟩

/-- A waiting client opens the lock file. -/
theorem begin_moved (h : Inv path A D m) (hpid : ¬ Holds path m.world pid) {opening clean : Bool}
    {o : Outcome SigningError} {r : Except IoError Fd}
    (hexec : m.world.exec pid o (.openSidecar (sibling path ".lock")) = (r, w)) :
    Moved path A D pid m ({ m with world := w }.set pid
      (.starting opening (clean && o.isOk) (opened K path opening r))) := by
  obtain ⟨hw, hopened, hok⟩ := World.exec_openSidecar hexec
  have hturn : Turn K path pid m.world w := by
    rcases hw with rfl | rfl
    · exact .refl h.world
    · exact .touch h.world
  have hlocks : w.locks = m.world.locks := by
    rcases hw with rfl | rfl
    · rfl
    · exact World.locks_touch m.world _
  have hpid' : ¬ Holds path w pid := fun hw => hpid (hw.of_locks h.world hlocks)
  refine .set hturn (Or.inl ⟨hpid', ?_⟩)
  cases r with
  | ok fd => exact .acquire (hopened fd rfl)
  | error kind =>
    refine .failed fun hclean => ?_
    obtain ⟨fd, hfd⟩ := hok (Bool.and_eq_true_iff.mp hclean).2
    cases hfd

/-- A waiting client tries to lock the lock file. -/
theorem acquire_moved [LawfulOneTime K] (h : Inv path A D m) (hpid : ¬ Holds path m.world pid)
    {opening clean : Bool} {fd : Fd} (hfd : m.world.dir (sibling path ".lock") = some fd)
    {o : Outcome SigningError} {r : Except TryLockError Unit}
    (hexec : m.world.exec pid o (.tryLock fd) = (r, w)) :
    Moved path A D pid m ({ m with world := w }.set pid
      (.starting opening (clean && o.isOk) (locked K path opening fd r))) := by
  rcases World.exec_tryLock hexec with ⟨rfl, hfree, rfl⟩ | ⟨⟨e, rfl, hok⟩, rfl⟩
  · have hturn : Turn K path pid m.world (m.world.lock fd pid) := .lock h.world hfd hfree
    refine .set hturn (Or.inr ⟨holds_lock hfd, ?_⟩)
    cases opening with
    | true =>
      refine (always_openLocked (fun _ _ => .refl hturn.worldOk.ok hturn.worldOk.apart)
        (clean && o.isOk) fd).imp (fun _ _ hG => hG) ?_
      rintro (e | signer) ⟨w', clean'⟩ ⟨hw', hr⟩
      · intro _ hclean
        rw [show w' = _ from hw']
        exact hr hclean
      · obtain ⟨hvisible, hpath, -⟩ := hr
        rw [show w' = _ from hw']
        exact ⟨.of_decode hpath hvisible, fun he => by cases he⟩
    | false =>
      refine (ensures_createLocked hturn.worldOk.ok hturn.worldOk.apart fd (clean && o.isOk)).imp
        (fun _ _ hG => hG) ?_
      rintro (e | signer) ⟨w', clean'⟩ hr
      · exact fun he => by cases he
      · exact ⟨(hr signer rfl).1, fun _ => (hr signer rfl).2⟩
  · refine .set (.refl h.world) (Or.inl ⟨hpid, ?_⟩)
    cases e with
    | wouldBlock => exact .failed fun _ => rfl
    | error kind =>
      refine .failed fun hclean => ?_
      cases hok (Bool.and_eq_true_iff.mp hclean).2

/-- The environment decides about the call within `A`, and a retry starts only in `D`. -/
structure Allowed (A : Outcome SigningError → Prop) (D : World String Pid → Prop)
    (m : Machine K Pid) (e : Event Pid) : Prop where
  call : ∀ pid o, e = .io pid o → A o
  retry : ∀ pid message signer, e = .sign pid message ∨ e = .signWithRng pid message →
    m.client pid = .live signer → signer.failed = false →
      signer.lastMessage = some message → D m.world

/-- **What an action does.** -/
theorem Acts.moved [LawfulOneTime K] (h : Inv path A D m) {e : Event Pid} (hA : Allowed A D m e)
    {c : Client K} {report : Option (Report K)} (ha : Acts path m e pid w c report) :
    Moved path A D pid m (m.acted pid w c report) := by
  have hclient := h.client pid
  cases ha with
  | start hc =>
    rw [hc] at hclient
    exact .set (.refl h.world) (Or.inl ⟨hclient, .begin⟩)
  | @sign message fill signer hc he =>
    rw [hc] at hclient
    have hsource : Source K path A pid m.world fill ∧
        (signer.failed = false → signer.lastMessage = some message → D m.world) := by
      rcases he with ⟨he, rfl⟩ | ⟨he, rfl⟩
      · exact ⟨source_osFill h.world.ok h.world.apart, hA.retry pid message signer (Or.inl he) hc⟩
      · exact ⟨source_callerFill h.world.ok h.world.apart,
          hA.retry pid message signer (Or.inr he) hc⟩
    exact .set (.refl h.world) ⟨hclient.1, true, ensures_signWithRng hclient.2 h.world.ok
      h.world.apart hsource.1 message hsource.2 true⟩
  | leave => exact .leave h pid
  | @startCall opening clean call k o r w hc he hexec =>
    rw [hc] at hclient
    rcases hclient with ⟨hpid, hwait⟩ | ⟨hpid, halways⟩
    · cases hwait with
      | begin => exact begin_moved h hpid hexec
      | acquire hfd => exact acquire_moved h hpid hfd hexec
    · obtain ⟨hframe, hrest⟩ := halways r (w, clean && o.isOk) ⟨o, hA.call pid o he, hexec, rfl⟩
      exact .set (.frame h.world hpid hframe) (Or.inr ⟨hpid.frame hframe, hrest⟩)
  | started hc =>
    rw [hc] at hclient
    obtain ⟨-, hwait⟩ | ⟨hpid, halways⟩ := hclient
    · cases hwait
    · exact (Moved.set (c := .live _) (.refl h.world) ⟨hpid, halways.1⟩).report rfl
        fun hopening => (halways.2 hopening).imp fun f hf => ⟨_, hf⟩
  | refused hc =>
    rw [hc] at hclient
    refine (Moved.leave h pid).report rfl fun hopening hclean => ?_
    obtain ⟨-, hwait⟩ | ⟨-, halways⟩ := hclient
    · cases hwait with
      | failed he => exact Or.inl (he hclean)
    · exact Or.inr (halways hopening hclean)
  | @signCall message retry call k o r w hc he hexec =>
    rw [hc] at hclient
    obtain ⟨hpid, clean, halways⟩ := hclient
    obtain ⟨hframe, hrest⟩ := halways r (w, clean && o.isOk) ⟨o, hA.call pid o he, hexec, rfl⟩
    exact .set (.frame h.world hpid hframe) ⟨hpid.frame hframe, _, hrest⟩
  | @signed message retry result signer hc =>
    rw [hc] at hclient
    obtain ⟨hpid, clean, howns, hresult⟩ := hclient
    refine (Moved.set (c := .live signer) (.refl h.world) ⟨hpid, howns⟩).report rfl ?_
    cases result with
    | ok sig => exact hresult
    | error e => exact hresult

/-- **What an event does, unless it is a power loss.** -/
theorem step_moved [LawfulOneTime K] (h : Inv path A D m) {e : Event Pid} (hA : Allowed A D m e)
    (he : e.isPowerLoss = false) : ∃ pid, Moved path A D pid m (m.step path e) := by
  obtain heq | ⟨pid, w, c, report, -, ha, heq⟩ := acted_step path m he
  · rw [heq]
    cases e with
    | powerLoss version left => cases he
    | _ pid => exact ⟨pid, .refl h pid⟩
  · rw [heq]
    exact ⟨pid, ha.moved h hA⟩

/-! ## Runs -/

omit [DecidableEq Pid] in
theorem inv_powerLoss (h : Inv path A D m) (version : Nat) (left : Nat → Bytes) :
    Inv path A D { m with world := m.world.powerLoss version left, client := fun _ => .idle } where
  world := ⟨h.world.ok.powerLoss version left,
    h.world.ok.powerLoss_apart version left (sibling_ne (by decide)), fun i pid hi => by cases hi⟩
  client pid := by
    rintro ⟨i, -, hi⟩
    cases hi

omit [DecidableEq Pid] in
theorem inv_boot (files : List (String × Bytes)) : Inv path A D (boot files : Machine K Pid) where
  world := ⟨World.ok_boot files, World.apart_boot files (sibling_ne (by decide)),
    fun i pid hi => by cases hi⟩
  client pid := by
    rintro ⟨i, -, hi⟩
    cases hi

theorem inv_step [LawfulOneTime K] (h : Inv path A D m) {e : Event Pid} (hA : Allowed A D m e) :
    Inv path A D (m.step path e) := by
  cases he : e.isPowerLoss with
  | false =>
    obtain ⟨pid, hm⟩ := step_moved h hA he
    exact h.moved hm
  | true =>
    cases e with
    | powerLoss version left => exact inv_powerLoss h version left
    | _ => cases he

theorem run_append (m : Machine K Pid) (before after : List (Event Pid)) :
    m.run path (before ++ after) = (m.run path before).run path after := List.foldl_append

/-- A condition on every step of a run, and on the state before it. -/
def Along (path : String) (P : Machine K Pid → Event Pid → Prop) :
    Machine K Pid → List (Event Pid) → Prop
  | _, [] => True
  | m, e :: es => P m e ∧ Along path P (m.step path e) es

theorem along_of_forall {P : Machine K Pid → Event Pid → Prop} : ∀ {events : List (Event Pid)}
    (m : Machine K Pid), (∀ e ∈ events, ∀ m, P m e) → Along path P m events
  | [], _, _ => trivial
  | e :: _, m, h => ⟨h e List.mem_cons_self m,
      along_of_forall (m.step path e) fun e' he' => h e' (List.mem_cons_of_mem e he')⟩

theorem along_append {P : Machine K Pid → Event Pid → Prop} {after : List (Event Pid)} :
    ∀ {before : List (Event Pid)} {m : Machine K Pid}, Along path P m (before ++ after) ↔
      Along path P m before ∧ Along path P (m.run path before) after
  | [], _ => ⟨fun h => ⟨trivial, h⟩, And.right⟩
  | _ :: _, _ => ⟨fun h => ⟨⟨h.1, (along_append.mp h.2).1⟩, (along_append.mp h.2).2⟩,
      fun h => ⟨h.1.1, along_append.mpr ⟨h.1.2, h.2⟩⟩⟩

/-- **What every step preserves holds at the end of a run.** -/
theorem run_rule {P : Machine K Pid → Event Pid → Prop} {Q : Machine K Pid → Prop}
    (hstep : ∀ m e, Q m → P m e → Q (m.step path e)) : ∀ (events : List (Event Pid))
    {m : Machine K Pid}, Q m → Along path P m events → Q (m.run path events)
  | [], _, h, _ => h
  | e :: es, _, h, hP => run_rule hstep es (hstep _ e h hP.1) hP.2

/-- **The invariant holds in every reachable state.** -/
theorem inv_run [LawfulOneTime K] (events : List (Event Pid)) (h : Inv path A D m)
    (hA : Along path (Allowed A D) m events) : Inv path A D (m.run path events) :=
  run_rule (Q := Inv path A D) (fun _ _ h hA => inv_step h hA) events h hA

omit [DecidableEq Pid] in
/-- **At most one client has a signer.** -/
theorem Inv.live_unique (h : Inv path A D m) (hp : (m.client pid).Live) (hq : (m.client q).Live) :
    pid = q := (h.holds hp).unique (h.holds hq)

end Machine

end SolanaWinternitz
