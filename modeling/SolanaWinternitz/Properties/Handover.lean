import SolanaWinternitz.Properties.TsServes

/-!
# Handing a key file over

A key file is used in sessions: a process of either language opens it, signs some messages and
closes it. Every file call is carried out, and the salts come from a source that all processes
share.

* `Session.run_eq` — one session, in either language
* `hand_over` — **however the messages are cut into sessions, and whatever the languages of the
  sessions are, the results and the file are those of one signer without a file**
-/

namespace SolanaWinternitz

open Infra Infra.Os Infra.Js

/-! ## Sessions -/

/-- The language of a process. -/
inductive Language where
  | rust
  | typescript

/-- A process that opens the key file, signs some messages and closes it. -/
structure Session (Pid : Type) where
  language : Language
  pid : Pid
  messages : List Message

/-- What a process gets for a message: the bytes of a signature, or the error of its language. -/
inductive Result where
  | rust (result : Except SigningError Bytes)
  | typescript (result : Except Ts.Thrown Bytes)

/-- What a process of this language gets. -/
def Language.result : Language → Except Refusal Bytes → Result
  | rust, result => .rust (result.mapError Refusal.rust)
  | typescript, result => .typescript (result.mapError Refusal.ts)

section

variable [Keccak] {K : Type} [OneTime K]

/-- Sign one message after the other. -/
def SigningKey.signEach (signer : SigningKey K) :
    List Message → Action (List (Except SigningError Bytes) × SigningKey K)
  | [] => pure ([], signer)
  | message :: rest => do
    let (result, signer) ← signer.signWithRng message callerFill
    let (results, signer) ← signer.signEach rest
    pure (result.map SealedSignature.asBytes :: results, signer)

/-- A process of the crate. Dropping the signer closes its lock file. -/
def SigningKey.session (K : Type) [OneTime K] (path : String) (messages : List Message) :
    Action (Except SigningError (List (Except SigningError Bytes))) := do
  match ← (SigningKey.openFile K path).run with
  | .error e => pure (.error e)
  | .ok signer =>
    let (results, signer) ← signer.signEach messages
    let _ ← (invoke (.release signer.lockFile) : Action (Except IoError Unit))
    pure (.ok results)

end

namespace Ts

variable [Keccak] {K Pid X α : Type} [OneTime K]

/-- A method that is called inside `try`. -/
def tried (x : Action K Pid X α) : Action K Pid X (Except Thrown α) :=
  Js.onThrow (do pure (.ok (← x))) fun e => pure (.error e)

omit [Keccak] [OneTime K] in
theorem tried_apply {x : Action K Pid X α} {p p' : Process K Pid X} {result : Except Thrown α}
    (h : x p = (result, p')) : tried x p = (.ok result, p') := by
  cases result with
  | error e => exact Js.onThrow_error (Js.bind_error h)
  | ok a => exact Js.onThrow_ok (Js.bind_ok h)

/-- Sign one message after the other. -/
def signEach (fill : FillRandom (Process K Pid X)) :
    List Message → Action K Pid X (List (Except Thrown Bytes))
  | [] => pure []
  | message :: rest => do
    assign fun p => { p with buffers := fun _ => message.toList }
    let result ← tried (signWithRng 0 fill)
    let results ← signEach fill rest
    pure (result.map OneTime.toBytes :: results)

/-- A process of the TypeScript package. -/
def session (path : String) (fill : FillRandom (Process K Pid X)) (messages : List Message) :
    Action K Pid X (List (Except Thrown Bytes)) := do
  let signer ← SigningKey.openFile path
  assignSelf fun _ => signer
  let results ← signEach fill messages
  close
  pure results

end Ts

variable [Keccak] {K K' Pid σ : Type} [OneTime K] [Ts.OneTime K'] [SameOneTime K K']
  [LawfulOneTime K] {path : String} (source : SharedSource σ) {r : Record K} {pid : Pid}
  {w : World String Pid}

omit [Ts.OneTime K'] [SameOneTime K K'] in
theorem SigningKey.Serves.signEach (messages : List Message) : ∀ {r : Record K}
    {signer : SigningKey K} {w : World String Pid}, signer.Serves path pid r w → r.Valid → ∀ s : σ,
    ∃ signer' w', (signer.signEach messages).run (environment source pid) (w, s)
        = (((Record.signAll source messages r s).1.map (·.mapError Refusal.rust), signer'),
          (w', (Record.signAll source messages r s).2.2)) ∧
      signer'.Serves path pid (Record.signAll source messages r s).2.1 w' := by
  induction messages with
  | nil => exact fun h _ s => ⟨_, _, rfl, h⟩
  | cons message rest ih =>
    intro r signer w h hr s
    obtain ⟨result, signer1, w1, hrun, hresult, hserves⟩ := h.sign source hr message s
    obtain ⟨signer2, w2, hrest, hlast⟩ :=
      ih hserves (hr.sign message s) (r.sign source message s).2.2
    refine ⟨signer2, w2, ?_, hlast⟩
    rw [SigningKey.signEach, Prog.run_bind, hrun]
    dsimp only
    rw [Prog.run_bind, hrest, hresult]
    rfl

theorem ServesTs.signEach (messages : List Message) : ∀ {r : Record K}
    {p : Ts.Process K' Pid σ}, ServesTs path r p → r.Valid →
    ∃ p', Ts.signEach (Ts.sharedFill source) messages p
        = (.ok ((Record.signAll source messages r p.captured).1.map (·.mapError Refusal.ts)), p') ∧
      ServesTs path (Record.signAll source messages r p.captured).2.1 p' ∧
      p'.captured = (Record.signAll source messages r p.captured).2.2 := by
  induction messages with
  | nil => exact fun {_ p} h _ => ⟨p, rfl, h, rfl⟩
  | cons message rest ih =>
    intro r p h hr
    let q : Ts.Process K' Pid σ := { p with buffers := fun _ => message.toList }
    have hq : ServesTs path r q := ⟨h.record, h.name, h.opened, h.idle, h.fine, h.held⟩
    obtain ⟨result, p1, hrun, hresult, hserves, hs, -⟩ := hq.sign source (m := 0) hr rfl
    obtain ⟨p2, hrest, hlast, hs'⟩ := ih hserves (hr.sign message p.captured)
    rw [hs] at hrest hlast hs'
    refine ⟨p2, ?_, hlast, hs'⟩
    have hboth := (Js.bind_ok (Ts.tried_apply hrun) (f := fun result => do
      let results ← Ts.signEach (Ts.sharedFill source) rest
      pure (result.map Ts.OneTime.toBytes :: results))).trans (Js.bind_ok hrest)
    rw [Ts.signEach, Js.assign_bind]
    rw [hresult] at hboth
    exact hboth

/-! ## One session -/

/-- The sessions of the crate. -/
theorem Stored.session_rust (pid : Pid) (h : Stored path r.encoded w) (hr : r.Valid)
    (messages : List Message) (s : σ) :
    ∃ w', (SigningKey.session K path messages).run (environment source pid) (w, s)
        = (.ok ((Record.signAll source messages r s).1.map (·.mapError Refusal.rust)),
          (w', (Record.signAll source messages r s).2.2)) ∧
      Stored path (Record.signAll source messages r s).2.1.encoded w' := by
  obtain ⟨signer, w1, hopen, hserves⟩ := h.open_rust pid source hr s
  obtain ⟨signer', w2, hsign, hlast⟩ := hserves.signEach source messages hr s
  refine ⟨w2.release signer'.lockFile, ?_, hlast.held.release⟩
  rw [SigningKey.session, Prog.run_bind, hopen]
  dsimp only
  rw [Prog.run_bind, hsign]
  rfl

/-- The sessions of the TypeScript package. -/
theorem Stored.session_ts {p : Ts.Process K' Pid σ} (h : Stored path r.encoded p.world)
    (hr : r.Valid) (hp : p.Fine) (messages : List Message) :
    ∃ p', Ts.session path (Ts.sharedFill source) messages p
        = (.ok ((Record.signAll source messages r p.captured).1.map (·.mapError Refusal.ts)), p') ∧
      Stored path (Record.signAll source messages r p.captured).2.1.encoded p'.world ∧
      p'.captured = (Record.signAll source messages r p.captured).2.2 := by
  obtain ⟨signer, p1, hopen, hserves, hs, -⟩ := h.open_ts hr hp
  obtain ⟨q, hq⟩ : ∃ q : Ts.Process K' Pid σ, q = { p1 with self := signer } := ⟨_, rfl⟩
  rw [← hq] at hserves
  obtain ⟨p2, hsign, hlast, hs'⟩ := hserves.signEach source messages hr
  obtain ⟨p3, hclose, hstored, hs''⟩ := hlast.close
  have hstate : q.captured = p.captured := by
    rw [hq]
    exact hs
  rw [hstate] at hsign hs' hstored
  refine ⟨p3, ?_, hstored, hs''.trans hs'⟩
  unfold Ts.session Ts.assignSelf
  refine (Js.bind_ok hopen).trans ?_
  rw [Js.assign_bind, ← hq]
  exact (Js.bind_ok hsign).trans (Js.bind_ok hclose)

/-! ## One after the other -/

section

variable (K K' σ path)

/-- A process before it opens a signer: its variable holds anything. -/
def newProcess (unset : Ts.SigningKey K') (pid : Pid) (t : World String Pid × σ) :
    Ts.Process K' Pid σ :=
  { self := unset, buffers := fun _ => [], captured := t.2, world := t.1, pid
    outcomes := fun _ => .ok [], calls := [] }

/-- Run a session on the files: the results, unless opening or closing fails. -/
def Session.run (unset : Ts.SigningKey K') (session : Session Pid) (t : World String Pid × σ) :
    Option (List Result) × (World String Pid × σ) :=
  match session.language with
  | .rust =>
    let r := (SigningKey.session K path session.messages).run (environment source session.pid) t
    (r.1.toOption.map (·.map .rust), r.2)
  | .typescript =>
    let r := Ts.session path (Ts.sharedFill source) session.messages
      (newProcess K' σ unset session.pid t)
    (r.1.toOption.map (·.map .typescript), (r.2.world, r.2.captured))

/-- Run one session after the other. -/
def runSessions (unset : Ts.SigningKey K') :
    List (Session Pid) → World String Pid × σ → Option (List Result) × (World String Pid × σ)
  | [], t => (some [], t)
  | session :: rest, t =>
    let first := session.run K K' σ path source unset t
    let others := runSessions unset rest first.2
    (first.1.bind fun results => others.1.map (results ++ ·), others.2)

end

/-- **One session, in either language.** -/
theorem Session.run_eq (unset : Ts.SigningKey K') (session : Session Pid)
    (h : Stored path r.encoded w) (hr : r.Valid) (s : σ) :
    ∃ w', session.run K K' σ path source unset (w, s)
        = (some ((Record.signAll source session.messages r s).1.map session.language.result),
          (w', (Record.signAll source session.messages r s).2.2)) ∧
      Stored path (Record.signAll source session.messages r s).2.1.encoded w' := by
  obtain ⟨language, pid, messages⟩ := session
  cases language with
  | rust =>
    obtain ⟨w', hrun, hstored⟩ := h.session_rust source pid hr messages s
    refine ⟨w', ?_, hstored⟩
    unfold Session.run
    dsimp only
    rw [hrun]
    simp [Except.toOption, Language.result]
  | typescript =>
    obtain ⟨p', hrun, hstored, hs⟩ := Stored.session_ts source
      (p := newProcess K' σ unset pid (w, s)) h hr rfl messages
    refine ⟨p'.world, ?_, hstored⟩
    unfold Session.run
    dsimp only
    rw [hrun]
    dsimp only
    rw [hs]
    simp [Except.toOption, Language.result, newProcess]

/-- The languages in which the messages of some sessions are signed. -/
def languages (sessions : List (Session Pid)) : List Language :=
  sessions.flatMap fun session => List.replicate session.messages.length session.language

omit [Keccak] in
theorem zipWith_replicate_length {α β γ : Type} (f : α → β → γ) (a : α) (bs : List β) :
    List.zipWith f (List.replicate bs.length a) bs = bs.map (f a) := by
  induction bs with
  | nil => rfl
  | cons b bs ih => exact congrArg (f a b :: ·) ih

theorem runSessions_eq (unset : Ts.SigningKey K') (sessions : List (Session Pid)) :
    ∀ {r : Record K} {w : World String Pid}, Stored path r.encoded w → r.Valid → ∀ s : σ,
    ∃ w', runSessions K K' σ path source unset sessions (w, s)
        = (some (List.zipWith Language.result (languages sessions)
            (Record.signAll source (sessions.flatMap Session.messages) r s).1),
          (w', (Record.signAll source (sessions.flatMap Session.messages) r s).2.2)) ∧
      Stored path
        (Record.signAll source (sessions.flatMap Session.messages) r s).2.1.encoded w' := by
  induction sessions with
  | nil => exact fun {_ w} h _ _ => ⟨w, rfl, h⟩
  | cons session rest ih =>
    intro r w h hr s
    obtain ⟨w1, hfirst, hstored⟩ := session.run_eq source unset h hr s
    obtain ⟨w2, hrest, hlast⟩ := ih hstored (hr.signAll session.messages s)
      (Record.signAll source session.messages r s).2.2
    refine ⟨w2, ?_, ?_⟩
    · rw [runSessions, hfirst]
      dsimp only
      rw [hrest]
      have hlen := Record.signAll_length source session.messages r s
      have hlanguages : languages (session :: rest)
          = List.replicate session.messages.length session.language ++ languages rest :=
        List.flatMap_cons
      rw [List.flatMap_cons, Record.signAll_append, hlanguages,
        List.zipWith_append (by rw [List.length_replicate, hlen]), ← hlen, zipWith_replicate_length]
      rfl
    · rw [List.flatMap_cons, Record.signAll_append]
      exact hlast

/--
**A key file is handed from language to language.** A file that `open` accepts is used in any number
of sessions, each in either language and with any messages. Every session opens the file, and gets
for each message what one signer without a file gets if it signs all the messages one after the
other: the same bytes, or an error of the same kind. In the end the file is the encoding of that
signer's record, and as many salts were asked for.
-/
theorem hand_over (k : Instance) {Pid σ : Type} (source : SharedSource σ) (path : String)
    (unset : Ts.SigningKey (Ts.SecretKey k)) (sessions : List (Session Pid))
    {w : World String Pid} {b : Bytes} {r : Record k.SecretKey} (hw : Stored path b w)
    (hr : decode k.SecretKey b = some r) (s : σ) :
    ∃ results r' s' w',
      Record.signAll source (sessions.flatMap Session.messages) r s = (results, r', s') ∧
      runSessions k.SecretKey (Ts.SecretKey k) σ path source unset sessions (w, s)
        = (some (List.zipWith Language.result (languages sessions) results), (w', s')) ∧
      Stored path r'.encoded w' ∧ r'.Valid := by
  have hvalid : r.Valid := valid_of_decode hr
  have hencoded : r.encoded = b := SigningKey.encoded_of_decode hr
  rw [← hencoded] at hw
  obtain ⟨w', hrun, hstored⟩ := runSessions_eq source unset sessions hw hvalid s
  exact ⟨_, _, _, w', rfl, hrun, hstored, hvalid.signAll _ s⟩

/-! ## A fresh key -/

/-- The record of a key of zeros that has signed nothing. -/
def freshRecord : Record Winternitz.SecretKey := ⟨⟨zeros _, zeros _⟩, 0, none, zeros _⟩

theorem valid_freshRecord : freshRecord.Valid where
  built := ⟨_, _, Winternitz.builds _⟩
  nextLeaf_le := by decide
  spent m hm := by cases hm
  empty _ := rfl

theorem stored_freshRecord : Stored "key" freshRecord.encoded
    (World.boot [("key", freshRecord.encoded)] : World String Unit) where
  world := ⟨World.ok_boot _, World.apart_boot _ (sibling_ne (by decide)), fun _ _ h => by cases h⟩
  free _ := by
    rintro ⟨_, _, h⟩
    cases h
  content := ⟨⟨freshRecord.encoded, true⟩, rfl, rfl⟩

/-- A source that never fails and counts how often it is asked. -/
def zeroSource : SharedSource Nat := fun n s => (.ok (zeros n), s + 1)

/-- A process that signs a message, and one that asks for it again and then for another one. -/
def twoSessions : List (Session Unit) :=
  [⟨.rust, (), [zeros _]⟩, ⟨.typescript, (), [zeros _, List.Vector.replicate _ 1]⟩]

/-- The variable of a process that has no signer yet. -/
def noSigner : Ts.SigningKey Ts.Winternitz.SecretKey :=
  { key := ⟨zeros _, zeros _⟩, path := "", lock := 0, nextLeaf := 0, lastMessage := none,
    lastSalt := [], closed := true }

omit [Keccak] in
theorem hand_over_twoSessions :
    letI := constantHash
    ∃ results r' s' w',
      Record.signAll zeroSource (twoSessions.flatMap Session.messages) freshRecord 0
        = (results, r', s') ∧
      runSessions Instance.winternitz.SecretKey (Ts.SecretKey .winternitz) Nat "key" zeroSource
          noSigner twoSessions (World.boot [("key", freshRecord.encoded)], 0)
        = (some (List.zipWith Language.result (languages twoSessions) results), (w', s')) ∧
      Stored "key" r'.encoded w' ∧ r'.Valid := by
  let _ := constantHash
  exact hand_over .winternitz zeroSource "key" noSigner twoSessions stored_freshRecord
    valid_freshRecord.decode_encoded 0

/-! ## Opening -/

/-- Two signers, one in each language, that are open on files with the same valid record. -/
structure Twinned (path : String) (pid : Pid) (r : Record K) (signer : SigningKey K)
    (w : World String Pid) (p : Ts.Process K' Pid σ) : Prop where
  valid : r.Valid
  rust : signer.Serves path pid r w
  ts : ServesTs path r p

/--
Both languages open the file and find the same record in it. Or both call it corrupt, and leave it
as it is with its lock free.
-/
def OpensTwinned (k : Instance) {Pid σ : Type} (source : SharedSource σ) (s : σ) (path : String)
    (b : Bytes) (p : Ts.Process (Ts.SecretKey k) Pid σ) : Prop :=
  (∃ (r : Record k.SecretKey) (signer : SigningKey k.SecretKey)
      (ts : Ts.SigningKey (Ts.SecretKey k)) (p' : _) (w' : _), r.encoded = b ∧
    (SigningKey.openFile k.SecretKey path).run.run (environment source p.pid) (p.world, s)
        = (.ok signer, (w', s)) ∧
      Ts.SigningKey.openFile path p = (.ok ts, p') ∧ p'.world = w' ∧
      Twinned path p.pid r signer w' { p' with self := ts }) ∨
  ∃ (text : String) (p' : _) (w' : _),
    (SigningKey.openFile k.SecretKey path).run.run (environment source p.pid) (p.world, s)
        = (.error .corrupt, (w', s)) ∧
      Ts.SigningKey.openFile path p = (.error (.of .corrupt text), p') ∧
      p'.world = w'.release (p.world.inode (sibling path ".lock")) ∧ Stored path b p'.world

theorem Stored.opens_twinned {k : Instance} {Pid σ : Type} (source : SharedSource σ) (s : σ)
    {path : String} {b : Bytes} {p : Ts.Process (Ts.SecretKey k) Pid σ}
    (h : Stored path b p.world) (hp : p.Fine) : OpensTwinned k source s path b p := by
  have hrust := h.open_rust_eq (K := k.SecretKey) p.pid source s
  cases hb : decode k.SecretKey b with
  | some r =>
    have hencoded : r.encoded = b := SigningKey.encoded_of_decode hb
    have hr : r.Valid := valid_of_decode hb
    rw [hb] at hrust
    rw [← hencoded] at h
    obtain ⟨ts, p', hts, hserves, -, hworld⟩ := h.open_ts hr hp
    exact Or.inl ⟨r, _, ts, p', _, hencoded, hrust, hts, hworld, hr,
      ⟨rfl, rfl, rfl, h.acquire p.pid⟩, hserves⟩
  | none =>
    rw [hb] at hrust
    obtain ⟨p', hts, hworld⟩ := h.open_ts_none hb hp
    exact Or.inr ⟨_, p', _, hrust, hts, hworld, hworld ▸ (h.acquire p.pid).release⟩

/--
Both languages open the file: they have the same state, and would write the very same file. Or both
call it corrupt, and leave it as it is with its lock free.
-/
def OpensAlike (k : Instance) {Pid σ : Type} (source : SharedSource σ) (s : σ) (path : String)
    (b : Bytes) (p : Ts.Process (Ts.SecretKey k) Pid σ) : Prop :=
  (∃ (signer : SigningKey k.SecretKey) (ts : Ts.SigningKey (Ts.SecretKey k)) (p' : _) (w' : _),
    (SigningKey.openFile k.SecretKey path).run.run (environment source p.pid) (p.world, s)
        = (.ok signer, (w', s)) ∧
      Ts.SigningKey.openFile path p = (.ok ts, p') ∧ p'.world = w' ∧
      Corresponds signer.record ts ∧ signer.encoded = b ∧
      ts.header.map (· ++ Ts.OneTime.secrets ts.key) = .ok b) ∨
  ∃ (text : String) (p' : _) (w' : _),
    (SigningKey.openFile k.SecretKey path).run.run (environment source p.pid) (p.world, s)
        = (.error .corrupt, (w', s)) ∧
      Ts.SigningKey.openFile path p = (.error (.of .corrupt text), p') ∧
      p'.world = w'.release (p.world.inode (sibling path ".lock")) ∧ Stored path b p'.world

/-- **Both languages accept the same files**, and find the same state in them. -/
theorem open_agrees (k : Instance) {Pid σ : Type} (source : SharedSource σ) (s : σ) (path : String)
    {b : Bytes} (p : Ts.Process (Ts.SecretKey k) Pid σ) (hp : p.Fine) (h : Stored path b p.world) :
    OpensAlike k source s path b p := by
  rcases h.opens_twinned source s hp with
    ⟨r, signer, ts, p', w', hb, hrust, hts, hworld, htwinned⟩ | hcorrupt
  · obtain ⟨hrecord, -, -, -⟩ := htwinned.rust
    subst hrecord
    have hcorr : Corresponds signer.record ts := htwinned.ts.record
    have hencoded : signer.encoded = b := hb
    exact Or.inl ⟨signer, ts, p', w', hrust, hts, hworld, hcorr, hencoded,
      hencoded ▸ hcorr.encoded⟩
  · exact Or.inr hcorrupt

omit [Keccak] in
theorem open_agrees_freshRecord :
    letI := constantHash
    OpensAlike .winternitz zeroSource 0 "key" freshRecord.encoded
      (newProcess Ts.Winternitz.SecretKey Nat noSigner ()
        (World.boot [("key", freshRecord.encoded)], 0)) := by
  let _ := constantHash
  exact open_agrees .winternitz zeroSource 0 "key" _ rfl stored_freshRecord

end SolanaWinternitz
