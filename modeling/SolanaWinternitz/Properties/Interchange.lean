import SolanaWinternitz.Properties.Handover
import SolanaWinternitz.Properties.Reentrancy

/-!
# Interchangeable signers

A signer of the crate and one of the TypeScript package that are open on files with the same record
(`Twinned`) go through the same states.

* `Twinned.signs` — a step of both, every file call carried out
* `Twinned.fails_shut` — **a step whose file update fails returns no signature and is the last one**
* `Stored.runs_alike` — the same messages, cut in two ways into sessions of either language
* `key_file_interchangeable` — all of it, from `open` on
-/

namespace SolanaWinternitz

open Infra Infra.Os Infra.Js

/-! ## Signers that are shut -/

section

variable [Keccak] {K : Type}

/-- In any environment every message is refused, and nothing changes. -/
def SigningKey.Refuses [OneTime K] (signer : SigningKey K) : Prop :=
  ∀ (τ : Type) (h : (c : Call String) → τ → Answer SigningError c × τ) (t : τ) (message : Message)
    (fill : FillSource),
    (signer.signWithRng message fill).run h t = ((.error .unusable, signer), t)

theorem SigningKey.refuses_of_failed [OneTime K] {signer : SigningKey K}
    (hfailed : signer.failed = true) : signer.Refuses := by
  intro τ h t message fill
  rw [signer.signWithRng_failed hfailed]
  rfl

/-- In any process every message is refused, and nothing changes. -/
def Ts.SigningKey.Refuses [Ts.OneTime K] (self : Ts.SigningKey K) : Prop :=
  ∀ (Pid X : Type) (p : Ts.Process K Pid X) (message : Ts.Ref)
    (fill : Ts.FillRandom (Ts.Process K Pid X)), p.self = self →
    Ts.signWithRng message fill p = (.error (.of .unusable "the signer is closed"), p)

theorem Ts.SigningKey.refuses_of_closed [Ts.OneTime K] {self : Ts.SigningKey K}
    (hclosed : self.closed = true) : self.Refuses := by
  rintro Pid X p message fill rfl
  exact Ts.signWithRng_closed hclosed message fill

end

/-! ## One step -/

variable [Keccak] {K K' Pid σ : Type} [OneTime K] [Ts.OneTime K'] {path : String} {pid : Pid}
  {r : Record K} {signer : SigningKey K} {w : World String Pid} {p : Ts.Process K' Pid σ}
  {m : Ts.Ref} {message : Message} (source : SharedSource σ)

/--
Both sign a message with the salts of the source, and every file call is carried out: the same bytes
or an error of the same kind, and signers that are open on the same file again.
-/
def SignsTwinned (path : String) (pid : Pid) (r : Record K) (signer : SigningKey K)
    (w : World String Pid) (p : Ts.Process K' Pid σ) (m : Ts.Ref) (message : Message) : Prop :=
  ∃ x r' s' result result' signer' w' p', r.sign source message p.captured = (x, r', s') ∧
    (signer.signWithRng message callerFill).run (environment source pid) (w, p.captured)
      = ((result, signer'), (w', s')) ∧
    Ts.signWithRng m (Ts.sharedFill source) p = (result', p') ∧ p'.captured = s' ∧
    result.map SealedSignature.asBytes = x.mapError Refusal.rust ∧
    result'.map Ts.OneTime.toBytes = x.mapError Refusal.ts ∧
    Twinned path pid r' signer' w' p'

/-- The crate with the source, in an environment that answers the file calls in any way. -/
abbrev SharedSource.among (files : (c : Call String) → World String Pid × σ →
    Answer SigningError c × (World String Pid × σ)) :
    (c : Call String) → World String Pid × σ → Answer SigningError c × (World String Pid × σ) :=
  (source.beside Pid).handler files

/--
Both attempt a message, and the file update fails: each returns an error and refuses every message
from then on.
-/
structure FailsShut (r : Record K) (signer : SigningKey K) (w : World String Pid)
    (p : Ts.Process K' Pid σ) (m : Ts.Ref) (message : Message) : Prop where
  rust : ∀ sampled s, firstAccepted source (r.accepts message) maxTrials p.captured = (sampled, s) →
    ∀ files e t, (signer.advance message (sampled.mapError Refusal.rust)).write.run.run
        (source.among files) (w, s) = (.error e, t) →
      ∃ signer', (signer.signWithRng message callerFill).run (source.among files) (w, p.captured)
        = ((.error e, signer'), t) ∧ signer'.Refuses
  ts : ∀ sampled s, firstAccepted source (r.accepts message) maxTrials p.captured = (sampled, s) →
    ∀ outcomes e q,
      (p.self.spent message.toList ((sampled.mapError Refusal.ts).map List.Vector.toList)).write
          { p with
            self := p.self.spent message.toList
              ((sampled.mapError Refusal.ts).map List.Vector.toList)
            captured := s
            outcomes } = (.error e, q) →
      ∃ e' q', Ts.signWithRng m (Ts.sharedFill source) { p with outcomes } = (.error e', q') ∧
        q'.self.Refuses

variable [SameOneTime K K'] [LawfulOneTime K]

variable {source}

theorem Twinned.signs (h : Twinned path pid r signer w p) (hm : p.buffers m = message.toList) :
    SignsTwinned source path pid r signer w p m message := by
  obtain ⟨result, signer', w', hrust, hresult, hserves⟩ :=
    h.rust.sign source h.valid message p.captured
  obtain ⟨result', p', hts, hresult', hserves', hs, -⟩ := h.ts.sign source h.valid hm
  exact ⟨_, _, _, result, result', signer', w', p', rfl, hrust, hts, hs, hresult, hresult',
    h.valid.sign message p.captured, hserves, hserves'⟩

omit [LawfulOneTime K] in
/-- **A failed file update is the end of a signer**, in either language. -/
theorem Twinned.fails_shut (h : Twinned path pid r signer w p) (hm : p.buffers m = message.toList)
    (hretry : r.lastMessage ≠ some message) (hlt : r.nextLeaf < OneTime.leaves K) :
    FailsShut source r signer w p m message where
  rust sampled s hx files e t hwrite := by
    obtain ⟨rfl, -, hfailed, -⟩ := h.rust
    have haccepts : firstAccepted source (fun salt => ((encode salt (parameterOf signer.key)
        signer.nextLeaf message).eval keccak256).isSome) maxTrials p.captured = (sampled, s) := hx
    have hsample : (sampleSalt signer.verifyingKey.parameter signer.nextLeaf message
        callerFill).run.run (source.among files) (w, p.captured) = _ :=
      run_sampleTrials_beside files (parameterOf signer.key) signer.nextLeaf message maxTrials
        p.captured
    rw [haccepts] at hsample
    exact ⟨_, run_signWithRng (source.among files) hfailed hretry hlt callerFill hsample hwrite,
      SigningKey.refuses_of_failed rfl⟩
  ts sampled s hx outcomes e q hwrite := by
    let p' : Ts.Process K' Pid σ := { p with outcomes }
    have hcorr : Corresponds r p'.self := h.ts.record
    have hattempt := hcorr.attempt_sampled source h.ts.idle message hx
    obtain ⟨e', q', hrun, hself, -⟩ := Ts.writeOrClose_error
      (p := { p' with
        self := p'.self.spent message.toList ((sampled.mapError Refusal.ts).map List.Vector.toList)
        captured := s }) h.ts.opened h.ts.idle hwrite
    refine ⟨e', q', ?_, Ts.SigningKey.refuses_of_closed (by rw [hself])⟩
    have hnew : Ts.signWithRng m (Ts.sharedFill source) p'
        = Ts.attempt message.toList (Ts.sharedFill source) p' :=
      hcorr.signWithRng_attempt h.ts.opened h.ts.idle hm hretry hlt _
    rw [hnew, hattempt]
    exact Js.bind_error hrun

/-! ## Runs -/

/--
The same results, the same file and the same state of the source, however the messages are cut into
sessions and whatever the languages of the sessions are.
-/
def RunsAlike (K K' : Type) [OneTime K] [Ts.OneTime K'] (source : SharedSource σ) (path : String)
    (unset : Ts.SigningKey K') (sessions sessions' : List (Session Pid)) (w : World String Pid)
    (s : σ) : Prop :=
  ∃ results b s' w₁ w₂,
    runSessions K K' σ path source unset sessions (w, s)
      = (some (List.zipWith Language.result (languages sessions) results), (w₁, s')) ∧
    runSessions K K' σ path source unset sessions' (w, s)
      = (some (List.zipWith Language.result (languages sessions') results), (w₂, s')) ∧
    Stored path b w₁ ∧ Stored path b w₂

theorem Stored.runs_alike (h : Stored path r.encoded w) (hr : r.Valid)
    (unset : Ts.SigningKey K') {sessions sessions' : List (Session Pid)}
    (hsame : sessions.flatMap Session.messages = sessions'.flatMap Session.messages) (s : σ) :
    RunsAlike K K' source path unset sessions sessions' w s := by
  obtain ⟨w₁, hrun, hstored⟩ := runSessions_eq source unset sessions h hr s
  obtain ⟨w₂, hrun', hstored'⟩ := runSessions_eq source unset sessions' h hr s
  rw [← hsame] at hrun' hstored'
  exact ⟨_, _, _, w₁, w₂, hrun, hrun', hstored, hstored'⟩

/-! ## Both instances -/

/--
**The signers of the two languages are interchangeable on one key file.** They accept the same files
and find the same record in them. From the same record a step does the same to the source, to the
file and to the signer, and gives the same signature or an error of the same kind; if the file
update fails, in whatever way, both signers end. So it makes no difference which sessions of a run
are in which language, nor how the run is cut into sessions.
-/
theorem key_file_interchangeable (k : Instance) {Pid σ : Type} (source : SharedSource σ)
    (path : String) :
    (∀ (b : Bytes) (s : σ) (p : Ts.Process (Ts.SecretKey k) Pid σ), p.Fine →
      Stored path b p.world → OpensTwinned k source s path b p) ∧
    (∀ (pid : Pid) (r : Record k.SecretKey) (signer : SigningKey k.SecretKey)
        (w : World String Pid) (p : Ts.Process (Ts.SecretKey k) Pid σ) (m : Ts.Ref)
        (message : Message), Twinned path pid r signer w p → p.buffers m = message.toList →
      SignsTwinned source path pid r signer w p m message ∧
      (r.lastMessage ≠ some message → r.nextLeaf < OneTime.leaves k.SecretKey →
        FailsShut source r signer w p m message)) ∧
    ∀ (b : Bytes) (r : Record k.SecretKey) (w : World String Pid) (s : σ)
      (unset : Ts.SigningKey (Ts.SecretKey k)) (sessions sessions' : List (Session Pid)),
      Stored path b w → decode k.SecretKey b = some r →
      sessions.flatMap Session.messages = sessions'.flatMap Session.messages →
      RunsAlike k.SecretKey (Ts.SecretKey k) source path unset sessions sessions' w s := by
  refine ⟨fun b s p hp h => h.opens_twinned source s hp,
    fun pid r signer w p m message h hm => ⟨h.signs hm, h.fails_shut hm⟩,
    fun b r w s unset sessions sessions' h hr hsame => ?_⟩
  have hencoded : r.encoded = b := SigningKey.encoded_of_decode hr
  rw [← hencoded] at h
  exact h.runs_alike (valid_of_decode hr) unset hsame s

/-! ## A fresh key in both languages -/

/-- The directory of a fresh key whose lock is held. -/
def freshWorld : World String Unit :=
  (World.boot [("key", freshRecord.encoded)]).acquire (sibling "key" ".lock") ()

/-- The lock file of a fresh key. -/
def freshLock : Fd :=
  (World.boot [("key", freshRecord.encoded)] : World String Unit).inode (sibling "key" ".lock")

/-- A process with the signer of a fresh key. -/
def freshProcess : Ts.Process Ts.Winternitz.SecretKey Unit Nat where
  self :=
    { key := ⟨zeros _, zeros _⟩, path := "key", lock := freshLock, nextLeaf := 0
      lastMessage := none, lastSalt := (zeros saltLength).toList }
  buffers _ := (zeros messageLen).toList
  captured := 0
  world := freshWorld
  pid := ()
  outcomes _ := .ok []
  calls := []

theorem twinned_freshRecord : Twinned "key" () freshRecord (freshRecord.signer "key" freshLock)
    freshWorld freshProcess where
  valid := valid_freshRecord
  rust := ⟨rfl, rfl, rfl, stored_freshRecord.acquire ()⟩
  ts :=
    { record :=
        { key := ⟨_, _, Winternitz.builds _, Ts.Winternitz.fromSecrets_eq _ _⟩
          nextLeaf := rfl
          lastMessage := rfl
          lastSalt := rfl }
      name := rfl
      opened := rfl
      idle := rfl
      fine := rfl
      held := stored_freshRecord.acquire () }

/-- A process that signs both messages of `twoSessions`. -/
def oneSession : List (Session Unit) :=
  [⟨.typescript, (), [zeros _, zeros _, List.Vector.replicate _ 1]⟩]

/-- Every file call fails, before it has an effect. -/
def refusing (c : Call String) (t : World String Unit × Nat) :
    Answer SigningError c × (World String Unit × Nat) :=
  let r := t.1.exec () (.fail .other false 0 : Outcome SigningError) c
  (r.1, (r.2, t.2))

omit [LawfulOneTime K] in
/-- The first call of an update fails. -/
theorem run_write_refusing (signer : SigningKey K) (t : World String Unit × Nat) :
    signer.write.run.run (zeroSource.among refusing) t = (.error (.io .other), t) := rfl

theorem write_refused (self : Ts.SigningKey Ts.Winternitz.SecretKey)
    (p : Ts.Process Ts.Winternitz.SecretKey Unit Nat) :
    ∃ q, self.write { p with outcomes := fun _ => .fail .other false 0 }
      = (.error (Ts.system .other), q) := by
  let p' : Ts.Process _ _ _ := { p with outcomes := fun _ => .fail .other false 0 }
  have hopen : (Ts.orThrow Ts.system (Ts.invoke (.openTruncate s!"{self.path}.tmp")) :
      Ts.Action Ts.Winternitz.SecretKey Unit Nat Fd) p'
        = (.error (Ts.system .other), p'.did (.openTruncate s!"{self.path}.tmp") p.world) :=
    Ts.orThrow_apply (r := .error .other) Ts.system (Ts.invoke_apply rfl)
  exact ⟨_, Js.bind_error hopen⟩

omit [Keccak] in
theorem key_file_interchangeable_freshRecord :
    letI := constantHash
    OpensTwinned .winternitz zeroSource 0 "key" freshRecord.encoded
        (newProcess Ts.Winternitz.SecretKey Nat noSigner ()
          (World.boot [("key", freshRecord.encoded)], 0)) ∧
      SignsTwinned zeroSource "key" () freshRecord (freshRecord.signer "key" freshLock) freshWorld
        freshProcess 0 (zeros _) ∧
      (∃ signer' t, ((freshRecord.signer "key" freshLock).signWithRng (zeros _) callerFill).run
          (zeroSource.among refusing) (freshWorld, 0) = ((.error (.io .other), signer'), t) ∧
        signer'.Refuses) ∧
      (∃ e q, Ts.signWithRng 0 (Ts.sharedFill zeroSource)
          { freshProcess with outcomes := fun _ => .fail .other false 0 } = (.error e, q) ∧
        q.self.Refuses) ∧
      RunsAlike Winternitz.SecretKey Ts.Winternitz.SecretKey zeroSource "key" noSigner twoSessions
        oneSession (World.boot [("key", freshRecord.encoded)]) 0 := by
  let _ := constantHash
  obtain ⟨hopen, hstep, hruns⟩ := key_file_interchangeable .winternitz zeroSource "key"
  obtain ⟨hsigns, hfails⟩ := hstep () freshRecord (freshRecord.signer "key" freshLock) freshWorld
    freshProcess 0 (zeros _) twinned_freshRecord rfl
  obtain ⟨hrust, hts⟩ := hfails nofun (by decide)
  refine ⟨hopen _ 0 _ rfl stored_freshRecord, hsigns, ?_, ?_, hruns _ freshRecord _ 0 noSigner
    twoSessions oneSession stored_freshRecord valid_freshRecord.decode_encoded rfl⟩
  · obtain ⟨signer', hrun, hrefuses⟩ := hrust _ _ rfl refusing _ _ (run_write_refusing _ _)
    exact ⟨signer', _, hrun, hrefuses⟩
  · obtain ⟨q, hwrite⟩ := write_refused _ { freshProcess with self := _, captured := _ }
    exact (hts _ _ rfl _ _ q hwrite).imp fun e he => he

end SolanaWinternitz
