import SolanaWinternitz.Properties.Hazmat
import SolanaWinternitz.Properties.CanonicalFile

/-!
# The exact effect of one attempt

An attempt is run against a script: outcome `i` decides about its `i`-th call, be it a call of the
salt source or a file call.

* `run_sampleTrials_script` — the source is called up to the first error or the first accepted salt
* `update_script` — the six file calls of `write`, up to the first that fails
* `attempt_effect` — **what an attempt returns, spends, records and leaves in the file**
-/

namespace SolanaWinternitz

open Infra Infra.Os

/-- A directory, and the calls that were made so far. -/
structure Scene (Pid : Type) where
  world : World String Pid
  calls : List (Call String)

section

variable {Pid : Type} (outcomes : Nat → Outcome SigningError) (pid : Pid)

/-- Outcome `i` decides about call `i`. -/
def scripted (c : Call String) (s : Scene Pid) : Answer SigningError c × Scene Pid :=
  let r := s.world.exec pid (outcomes s.calls.length) c
  (r.1, ⟨r.2, s.calls ++ [c]⟩)

/-- A program that is run against the script. -/
def Script (c : Call String) (s : Scene Pid) (r : Answer SigningError c) (s' : Scene Pid) : Prop :=
  scripted outcomes pid c s = (r, s')

theorem script_iff {c : Call String} {s s' : Scene Pid} {r : Answer SigningError c}
    (h : Script outcomes pid c s r s') :
    s.world.exec pid (outcomes s.calls.length) c = (r, s'.world) ∧ s'.calls = s.calls ++ [c] := by
  obtain ⟨rfl, rfl⟩ := Prod.mk.inj h
  exact ⟨rfl, rfl⟩

/-- What the source delivers. -/
def fillResult : Outcome SigningError → Except SigningError Salt
  | .error e => .error e
  | .ok data => .ok (fit saltLength data)
  | _ => .ok (zeros saltLength)

theorem scripted_fill (s : Scene Pid) : scripted outcomes pid (.fill saltLength) s
    = (fillResult (outcomes s.calls.length), ⟨s.world, s.calls ++ [.fill saltLength]⟩) := by
  unfold scripted
  cases outcomes s.calls.length <;> rfl

end

/-! ## Sampling -/

/--
`n` calls of a source make `sample_salt` return `r`: all of them but the last deliver salts that are
not accepted, and so does the last if there are as many calls as trials.
-/
inductive Sampled (accepts : Salt → Bool) (source : Nat → Except SigningError Salt) (trials : Nat) :
    Nat → Except SigningError Salt → Prop where
  | accepted {n : Nat} {salt : Salt} (hn : n < trials)
      (rejected : ∀ j < n, ∃ s, source j = .ok s ∧ accepts s = false) (last : source n = .ok salt)
      (h : accepts salt) : Sampled accepts source trials (n + 1) (.ok salt)
  | failed {n : Nat} {e : SigningError} (hn : n < trials)
      (rejected : ∀ j < n, ∃ s, source j = .ok s ∧ accepts s = false) (last : source n = .error e) :
      Sampled accepts source trials (n + 1) (.error e)
  | exhausted (rejected : ∀ j < trials, ∃ s, source j = .ok s ∧ accepts s = false) :
      Sampled accepts source trials trials (.error .saltsExhausted)

namespace Sampled

variable {accepts : Salt → Bool} {source : Nat → Except SigningError Salt} {trials n : Nat}
  {r : Except SigningError Salt}

theorem le (h : Sampled accepts source trials n r) : n ≤ trials := by
  cases h with
  | accepted hn => exact hn
  | failed hn => exact hn
  | exhausted => exact le_refl _

theorem accepts_of_ok {salt : Salt} (h : Sampled accepts source trials n (.ok salt)) :
    accepts salt := by
  cases h with
  | accepted hn rejected last h => exact h

/-- One more call, that delivers a salt which is not accepted. -/
theorem cons {salt : Salt} (hsource : source 0 = .ok salt) (hreject : accepts salt = false)
    (h : Sampled accepts (fun j => source (j + 1)) trials n r) :
    Sampled accepts source (trials + 1) (n + 1) r := by
  have hall : ∀ {k : Nat}, (∀ j < k, ∃ s, source (j + 1) = .ok s ∧ accepts s = false) →
      ∀ j < k + 1, ∃ s, source j = .ok s ∧ accepts s = false := by
    intro k hrejected j hj
    cases j with
    | zero => exact ⟨salt, hsource, hreject⟩
    | succ j => exact hrejected j (by omega)
  cases h with
  | accepted hn rejected last h => exact .accepted (by omega) (hall rejected) last h
  | failed hn rejected last => exact .failed (by omega) (hall rejected) last
  | exhausted rejected => exact .exhausted (hall rejected)

end Sampled

section

variable [Keccak] {Pid : Type} (outcomes : Nat → Outcome SigningError) (pid : Pid)

/-- `encode` accepts the salt. -/
def accepts (parameter : Parameter) (leaf : UInt32) (message : Message) (salt : Salt) : Bool :=
  ((encode salt parameter leaf message).eval keccak256).isSome

/-- **Sampling calls the source until the first error or the first accepted salt.** -/
theorem run_sampleTrials_script (parameter : Parameter) (leaf : UInt32) (message : Message)
    (trials : Nat) : ∀ s : Scene Pid, ∃ n r,
      Sampled (accepts parameter leaf message) (fun j => fillResult (outcomes (s.calls.length + j)))
        trials n r ∧
      (sampleTrials parameter leaf message callerFill trials).run.run (scripted outcomes pid) s
        = (r, ⟨s.world, s.calls ++ List.replicate n (.fill saltLength)⟩) := by
  induction trials with
  | zero =>
    intro s
    refine ⟨0, _, .exhausted fun j hj => absurd hj (Nat.not_lt_zero j), ?_⟩
    rw [List.replicate_zero, List.append_nil]
    rfl
  | succ trials ih =>
    intro s
    rw [run_sampleTrials_succ, scripted_fill]
    cases hfill : fillResult (outcomes s.calls.length) with
    | error e =>
      refine ⟨1, _, .failed (Nat.succ_pos _) (fun j hj => absurd hj (Nat.not_lt_zero j)) ?_, rfl⟩
      exact hfill
    | ok salt =>
      by_cases hx : ((encode salt parameter leaf message).eval keccak256).isSome = true
      · simp only [if_pos hx]
        exact ⟨1, _,
          .accepted (Nat.succ_pos _) (fun j hj => absurd hj (Nat.not_lt_zero j)) hfill hx,
          rfl⟩
      · simp only [if_neg hx]
        obtain ⟨n, r, hsampled, hrun⟩ := ih ⟨s.world, s.calls ++ [.fill saltLength]⟩
        refine ⟨n + 1, r, Sampled.cons hfill (Bool.eq_false_iff.mpr hx) ?_, ?_⟩
        · simpa only [List.length_append, List.length_singleton, Nat.add_assoc, Nat.add_comm 1]
            using hsampled
        · rw [hrun, List.append_assoc, List.replicate_succ]
          rfl

end

/-! ## The file update -/

section

variable [Keccak] {K : Type} [OneTime K]

/-- The calls of `write`, given the file that it opens. -/
def SigningKey.updateCalls (self : SigningKey K) (fd : Fd) : List (Call String) :=
  [.openTruncate (sibling self.path ".tmp"), .writeAll fd self.header.toList,
    .writeAll fd (OneTime.secrets self.key), .syncAll fd,
    .rename (sibling self.path ".tmp") self.path, .syncDir]

/-- The outcomes from number `i` on let a file update of `m` calls fail with its last call. -/
def FailsAt (outcomes : Nat → Outcome SigningError) (i m : Nat) (kind : IoError) : Prop :=
  (∀ j < m, (outcomes (i + j)).failure = none) ∧ (outcomes (i + m)).failure = some kind

/--
`write` ends in `r`: all six calls were carried out and the new record is behind the path, or it
fails with the first call that fails, and the file behind the path is the old one or the new record.
-/
def Updated (outcomes : Nat → Outcome SigningError) (self : SigningKey K) {Pid : Type}
    (s : Scene Pid) (r : Except SigningError Unit) (s' : Scene Pid) : Prop :=
  ∃ fd m, s'.calls = s.calls ++ (self.updateCalls fd).take m ∧
    (r = .ok () ∧ m = 6 ∧ (∀ j < 6, (outcomes (s.calls.length + j)).failure = none) ∧
        s'.world.content self.path = some ⟨self.encoded, true⟩ ∨
      ∃ kind j, r = .error (.io kind) ∧ m = j + 1 ∧ j < 6 ∧ FailsAt outcomes s.calls.length j kind ∧
        (s'.world.content self.path = s.world.content self.path ∨
          s'.world.content self.path = some ⟨self.encoded, true⟩))

section

variable {outcomes : Nat → Outcome SigningError} {self : SigningKey K} {Pid : Type} {pid : Pid}
  {s s1 s2 : Scene Pid} {fd : Fd} {m : Nat} {c : Call String} {r : Answer SigningError c}

/-- The first `m` calls of `write` were carried out. -/
structure Reached (outcomes : Nat → Outcome SigningError) (signer : SigningKey K) (s : Scene Pid)
    (fd : Fd) (m : Nat) (s1 : Scene Pid) : Prop where
  calls : s1.calls = s.calls ++ (signer.updateCalls fd).take m
  fine : ∀ j < m, (outcomes (s.calls.length + j)).failure = none

/-- The next call of `write`. -/
theorem Reached.call (h : Reached outcomes self s fd m s1) (hc : (self.updateCalls fd)[m]? = some c)
    (hs : Script outcomes pid c s1 r s2) :
    s1.world.exec pid (outcomes (s.calls.length + m)) c = (r, s2.world) ∧
      s2.calls = s.calls ++ (self.updateCalls fd).take (m + 1) := by
  obtain ⟨hexec, hcalls⟩ := script_iff outcomes pid hs
  have hm : m < (self.updateCalls fd).length := (List.getElem?_eq_some_iff.mp hc).1
  have hlen : s1.calls.length = s.calls.length + m := by
    rw [h.calls, List.length_append, List.length_take, Nat.min_eq_left (Nat.le_of_lt hm)]
  refine ⟨hlen ▸ hexec, ?_⟩
  rw [hcalls, h.calls, List.append_assoc, List.take_add_one, hc]
  rfl

/-- It is carried out. -/
theorem Reached.next (h : Reached outcomes self s fd m s1)
    (hcalls : s2.calls = s.calls ++ (self.updateCalls fd).take (m + 1))
    (ho : (outcomes (s.calls.length + m)).failure = none) :
    Reached outcomes self s fd (m + 1) s2 := by
  refine ⟨hcalls, fun j hj => ?_⟩
  rcases Nat.lt_succ_iff_lt_or_eq.mp hj with hj | rfl
  · exact h.fine j hj
  · exact ho

/-- It fails, and so does the update. -/
theorem Reached.failed (h : Reached outcomes self s fd m s1) (hm : m < 6)
    (hcalls : s2.calls = s.calls ++ (self.updateCalls fd).take (m + 1)) {kind : IoError}
    (ho : (outcomes (s.calls.length + m)).failure = some kind)
    (hcontent : s2.world.content self.path = s.world.content self.path ∨
      s2.world.content self.path = some ⟨self.encoded, true⟩) :
    Updated outcomes self s (.error (.io kind)) s2 :=
  ⟨fd, m + 1, hcalls, Or.inr ⟨kind, m, rfl, rfl, hm, ⟨h.fine, ho⟩, hcontent⟩⟩

/-- The sibling is moved over the record, and the directory is synced. -/
theorem install_script (h : Reached outcomes self s fd 4 s1)
    (hdir : s1.world.dir (sibling self.path ".tmp") = some fd)
    (hfile : s1.world.file fd = ⟨self.encoded, true⟩)
    (hkeep : s1.world.content self.path = s.world.content self.path) :
    (orFail .io (invoke (.rename (sibling self.path ".tmp") self.path))
      >>= fun _ => syncDir).run.Always
      (Script outcomes pid) (fun _ _ => True) (Updated outcomes self s) s1 := by
  refine Prog.always_bindExcept (always_orFail fun r s2 hs => ⟨trivial, ?_⟩)
  obtain ⟨hexec, hcalls⟩ := h.call rfl hs
  obtain ⟨hcases, hmoved⟩ := World.exec_rename hdir hexec
  have hdecides := World.decides_rename hdir hexec
  have hnew : (s1.world.move (sibling self.path ".tmp") self.path fd).content self.path
      = some ⟨self.encoded, true⟩ := by
    rw [World.content_move_target, hfile]
  change Except IoError Unit at r
  cases r with
  | error kind =>
    refine h.failed (by omega) hcalls hdecides.of_error ?_
    rcases hcases with hw | hw
    · exact Or.inl (hw ▸ hkeep)
    · exact Or.inr (hw ▸ hnew)
  | ok u =>
    have h5 := h.next hcalls hdecides.of_ok
    rw [← hmoved rfl] at hnew
    simp only [Except.mapError]
    refine always_orFail fun r s3 hs => ⟨trivial, ?_⟩
    obtain ⟨hexec, hcalls⟩ := h5.call rfl hs
    have hdecides := World.decides_syncDir hexec
    -- Syncing the directory does not change what is visible.
    have hlast : s3.world.content self.path = some ⟨self.encoded, true⟩ := by
      rcases (World.exec_syncDir hexec).1 with hw | hw
      · exact hw ▸ hnew
      · exact hw ▸ hnew
    change Except IoError Unit at r
    cases r with
    | error kind => exact h5.failed (by omega) hcalls hdecides.of_error (Or.inr hlast)
    | ok u =>
      exact ⟨fd, 6, hcalls, Or.inl ⟨rfl, rfl, (h5.next hcalls hdecides.of_ok).fine, hlast⟩⟩

/-- **The file update**: six calls, up to the first that fails. -/
theorem update_script (hw : s.world.Ok) (ha : s.world.Apart (sibling self.path ".tmp") self.path) :
    self.write.run.Always (Script outcomes pid) (fun _ _ => True) (Updated outcomes self s) s := by
  have hne : sibling self.path ".tmp" ≠ self.path := sibling_ne (by decide)
  unfold SigningKey.write
  refine Prog.always_bindExcept (always_orFail fun r s1 hs => ⟨trivial, ?_⟩)
  have h0 : ∀ fd, Reached outcomes self s fd 0 s := fun fd =>
    ⟨(List.append_nil _).symm, fun j hj => absurd hj (Nat.not_lt_zero j)⟩
  obtain ⟨hexec, hcalls⟩ := (h0 0).call rfl hs
  obtain ⟨hcases, hopened⟩ := World.exec_openTruncate hexec
  have hdecides := World.decides_openTruncate hexec
  have hstill : World.Still (sibling self.path ".tmp") self.path s.world s1.world := by
    rcases hcases with he | ⟨i, hi, he⟩ | he <;> rw [he]
    · exact .refl hw ha
    · exact .setFile hw ha hi _
    · exact .create hw ha hne
  change Except IoError Fd at r
  cases r with
  | error kind => exact (h0 0).failed (by omega) hcalls hdecides.of_error (Or.inl hstill.content)
  | ok fd =>
    obtain ⟨hdir, hempty⟩ := hopened fd rfl
    have h1 : Reached outcomes self s fd 1 s1 := (h0 fd).next hcalls hdecides.of_ok
    have hwrites : ∀ w f, World.Still (sibling self.path ".tmp") self.path s.world w →
        w.dir (sibling self.path ".tmp") = some fd →
        World.Still (sibling self.path ".tmp") self.path s.world (w.setFile fd f) :=
      fun w f h hd => h.trans (.setFile h.ok h.apart hd f)
    simp only [Except.mapError]
    unfold SigningKey.writeRecord
    -- The header.
    refine Prog.always_bindExcept (Prog.always_bindExcept
      (always_orFail fun r s2 hs => ⟨trivial, ?_⟩))
    obtain ⟨hexec, hcalls⟩ := h1.call rfl hs
    obtain ⟨done, hw2, hdone⟩ := World.exec_writeAll hexec
    have hdecides := World.decides_writeAll hexec
    have hstill2 := hwrites _ ⟨(s1.world.file fd).bytes ++ done, false⟩ hstill hdir
    rw [← hw2] at hstill2
    change Except IoError Unit at r
    cases r with
    | error kind => exact h1.failed (by omega) hcalls hdecides.of_error (Or.inl hstill2.content)
    | ok u =>
      have h2 := h1.next hcalls hdecides.of_ok
      rw [hdone rfl, hempty] at hw2
      have hdir2 : s2.world.dir (sibling self.path ".tmp") = some fd := by rw [hw2]; exact hdir
      simp only [Except.mapError]
      -- The chain starts.
      refine always_orFail fun r s3 hs => ⟨trivial, ?_⟩
      obtain ⟨hexec, hcalls⟩ := h2.call rfl hs
      obtain ⟨done, hw3, hdone⟩ := World.exec_writeAll hexec
      have hdecides := World.decides_writeAll hexec
      have hstill3 := hwrites _ ⟨(s2.world.file fd).bytes ++ done, false⟩ hstill2 hdir2
      rw [← hw3] at hstill3
      change Except IoError Unit at r
      cases r with
      | error kind => exact h2.failed (by omega) hcalls hdecides.of_error (Or.inl hstill3.content)
      | ok u =>
        have h3 := h2.next hcalls hdecides.of_ok
        rw [hdone rfl, hw2, World.setFile_file_self] at hw3
        have hdir3 : s3.world.dir (sibling self.path ".tmp") = some fd := by
          rw [hw3]
          exact hdir
        simp only [Except.mapError]
        -- The sync of the sibling.
        refine Prog.always_bindExcept (always_orFail fun r s4 hs => ⟨trivial, ?_⟩)
        obtain ⟨hexec, hcalls⟩ := h3.call rfl hs
        obtain ⟨hcases, hsynced⟩ := World.exec_syncAll hexec
        have hdecides := World.decides_syncAll hexec
        have hstill4 : World.Still (sibling self.path ".tmp") self.path s.world s4.world := by
          rcases hcases with he | he <;> rw [he]
          · exact hstill3
          · exact hwrites _ _ hstill3 hdir3
        change Except IoError Unit at r
        cases r with
        | error kind =>
          exact h3.failed (by omega) hcalls hdecides.of_error (Or.inl hstill4.content)
        | ok u =>
          have hw4 := hsynced rfl
          refine install_script (h3.next hcalls hdecides.of_ok) ?_ ?_ hstill4.content
          · rw [hw4]
            exact hdir3
          · rw [hw4, World.setFile_file_self, hw3, World.setFile_file_self]
            rfl

end

/-! ## The attempt -/

/-- What an attempt returns when its record was written. -/
def SigningKey.outcome (self : SigningKey K) (message : Message) :
    Except SigningError Salt → Except SigningError (OneTime.Signature K)
  | .error e => .error e
  | .ok salt =>
    okOrCorrupt ((OneTime.signAtWithSalt self.key self.nextLeaf message salt).eval keccak256)

/-- What an attempt returns, and the state that it leaves, if `write` returns `r`. -/
def SigningKey.settled (self : SigningKey K) (message : Message)
    (sampled : Except SigningError Salt) (r : Except SigningError Unit) :
    Except SigningError (OneTime.Signature K) × SigningKey K :=
  match r with
  | .error e => (.error e, { self.advance message sampled with failed := true })
  | .ok () => (self.outcome message sampled, self.advance message sampled)

/-- An attempt on a new message, run: it samples, and it writes the advanced state. -/
theorem run_signWithRng {σ : Type} (h : (c : Call String) → σ → Answer SigningError c × σ)
    {self : SigningKey K} (hfailed : self.failed = false) {message : Message}
    (hretry : self.lastMessage ≠ some message) (hleaf : self.nextLeaf < OneTime.leaves K)
    (fill : FillSource) {sampled : Except SigningError Salt} {s s1 s2 : σ}
    (hsample : (sampleSalt self.verifyingKey.parameter self.nextLeaf message fill).run.run h s
      = (sampled, s1)) {r : Except SigningError Unit}
    (hwrite : (self.advance message sampled).write.run.run h s1 = (r, s2)) :
    (self.signWithRng message fill).run h s = (self.settled message sampled r, s2) := by
  unfold SigningKey.signWithRng
  rw [if_neg (Bool.eq_false_iff.mp hfailed), if_neg hretry, if_neg (UInt32.not_le.mpr hleaf),
    Prog.run_bind, hsample]
  dsimp only
  rw [Prog.run_bind, hwrite]
  cases r with
  | error e => rfl
  | ok u => cases sampled <;> rfl

/-- The sampled salt signs at the leaf of the attempt. -/
theorem outcome_of_accepted [LawfulOneTime K] {self : SigningKey K} (hvalid : self.record.Valid)
    (hleaf : self.nextLeaf < OneTime.leaves K) {message : Message} {salt : Salt}
    (hsalt : accepts (parameterOf self.key) self.nextLeaf message salt) :
    ∃ sig, self.outcome message (.ok salt) = .ok sig ∧
      (self.advance message (.ok salt)).record.Signs message sig := by
  have hadvanced : (self.advance message (.ok salt)).record.Valid :=
    (self.valid_advance hvalid hleaf message fun salt' he => by
      cases he
      exact hsalt).1
  have hm : (self.advance message (.ok salt)).record.lastMessage = some message := rfl
  obtain ⟨sig, hsigns⟩ := hadvanced.exists_signs hm
  have hsig := hsigns.2
  change (OneTime.signAtWithSalt self.key (self.nextLeaf + 1 - 1) message salt).eval keccak256
    = some sig at hsig
  rw [UInt32.add_sub_cancel] at hsig
  refine ⟨sig, ?_, hsigns⟩
  show okOrCorrupt _ = _
  rw [hsig]
  rfl

/-- The leaf is spent in any case; message and salt are recorded iff sampling succeeded. -/
theorem settled_advance {signer : SigningKey K} (hleaf : signer.nextLeaf < OneTime.leaves K)
    (message : Message) (sampled : Except SigningError Salt) (r : Except SigningError Unit) :
    (signer.settled message sampled r).2.nextLeaf.toNat = signer.nextLeaf.toNat + 1 ∧
      (∀ salt, sampled = .ok salt →
        (signer.settled message sampled r).2.lastMessage = some message ∧
        (signer.settled message sampled r).2.lastSalt = salt) ∧
      (∀ e, sampled = .error e → (signer.settled message sampled r).2.lastMessage = none ∧
        (signer.settled message sampled r).2.lastSalt = zeros _) := by
  have hnext := u32_toNat_succ hleaf
  cases r with
  | error e =>
    refine ⟨hnext, ?_, ?_⟩
    · rintro salt rfl
      exact ⟨rfl, rfl⟩
    · rintro e rfl
      exact ⟨rfl, rfl⟩
  | ok u =>
    refine ⟨hnext, ?_, ?_⟩
    · rintro salt rfl
      exact ⟨rfl, rfl⟩
    · rintro e rfl
      exact ⟨rfl, rfl⟩

end

/--
**The exact effect of one attempt.** A failed signer is unusable, a repeat of the recorded message
gives the recorded signature, and otherwise a key without leaves is exhausted: no call is made and
nothing changes. Any other attempt calls the source until the first error or the first accepted
salt, at most 4096 times, and spends one leaf; it records the message and the salt iff sampling
succeeded. It signs iff sampling and all six file calls succeeded. If a file call fails, its error
is returned, the file is the old one or holds the new record, and the signer signs no more.
-/
theorem attempt_effect (k : Instance) {Pid : Type} {path : String} {w : World String Pid}
    {signer : SigningKey k.SecretKey} [Keccak] (hw : Machine.WorldOk path w)
    (howns : Owns path w signer)
    (message : Message) (outcomes : Nat → Outcome SigningError) (pid : Pid) :
    let r := (signer.signWithRng message callerFill).run (scripted outcomes pid) ⟨w, []⟩
    (signer.failed = true → r = ((.error .unusable, signer), ⟨w, []⟩)) ∧
    (signer.failed = false → signer.lastMessage = some message →
      ∃ sig, signer.record.Signs message sig ∧ r = ((.ok sig, signer), ⟨w, []⟩)) ∧
    (signer.failed = false → signer.lastMessage ≠ some message →
      signer.nextLeaf = OneTime.leaves k.SecretKey →
      r = ((.error .exhausted, signer), ⟨w, []⟩)) ∧
    (signer.failed = false → signer.lastMessage ≠ some message →
      signer.nextLeaf ≠ OneTime.leaves k.SecretKey →
      ∃ n sampled fd m, n ≤ 4096 ∧
        Sampled (accepts signer.verifyingKey.parameter signer.nextLeaf message)
          (fun j => fillResult (outcomes j)) 4096 n sampled ∧
        r.2.calls = List.replicate n (.fill saltLength)
          ++ ((signer.advance message sampled).updateCalls fd).take m ∧
        r.1.2.nextLeaf.toNat = signer.nextLeaf.toNat + 1 ∧
        (∀ salt, sampled = .ok salt → r.1.2.lastMessage = some message ∧ r.1.2.lastSalt = salt) ∧
        (∀ e, sampled = .error e → r.1.2.lastMessage = none ∧ r.1.2.lastSalt = zeros _) ∧
        ((∃ sig, r.1.1 = .ok sig) ↔
          (∃ salt, sampled = .ok salt) ∧ ∀ j < 6, (outcomes (n + j)).failure = none) ∧
        (m = 6 ∧ (∀ j < 6, (outcomes (n + j)).failure = none) ∧
            r.1.2 = signer.advance message sampled ∧
            r.2.world.content path = some ⟨(signer.advance message sampled).encoded, true⟩ ∧
            (∀ salt, sampled = .ok salt →
              ∃ sig, r.1.1 = .ok sig ∧ (signer.advance message sampled).record.Signs message sig) ∧
            (∀ e, sampled = .error e → r.1.1 = .error e) ∨
          ∃ kind j, m = j + 1 ∧ j < 6 ∧ FailsAt outcomes n j kind ∧
            r.1 = (.error (.io kind), { signer.advance message sampled with failed := true }) ∧
            (r.2.world.content path = w.content path ∨
              r.2.world.content path
                = some ⟨(signer.advance message sampled).encoded, true⟩) ∧
            ∀ message' fill, r.1.2.signWithRng message' fill
              = pure (.error .unusable, r.1.2))) := by
  intro r
  refine ⟨?_, ?_, ?_, ?_⟩
  · intro hfailed
    show (signer.signWithRng message callerFill).run _ _ = _
    rw [signer.signWithRng_failed hfailed]
    rfl
  · intro hfailed hm
    obtain ⟨sig, hsigns⟩ := howns.valid.exists_signs hm
    refine ⟨sig, hsigns, ?_⟩
    show (signer.signWithRng message callerFill).run _ _ = _
    rw [signer.signWithRng_retry hfailed hsigns]
    rfl
  · intro hfailed hm hspent
    show (signer.signWithRng message callerFill).run _ _ = _
    unfold SigningKey.signWithRng
    rw [if_neg (Bool.eq_false_iff.mp hfailed), if_neg hm,
      if_pos (UInt32.le_iff_toNat_le.mpr (Nat.le_of_eq (congrArg UInt32.toNat hspent.symm)))]
    rfl
  · intro hfailed hm hspent
    have hle : signer.nextLeaf ≤ OneTime.leaves k.SecretKey := howns.valid.nextLeaf_le
    have hlt : signer.nextLeaf < OneTime.leaves k.SecretKey := by
      have hnat := UInt32.le_iff_toNat_le.mp hle
      have hne : signer.nextLeaf.toNat ≠ (OneTime.leaves k.SecretKey).toNat := fun h =>
        hspent (UInt32.toNat_inj.mp h)
      exact UInt32.lt_iff_toNat_lt.mpr (by omega)
    obtain ⟨n, sampled, hsampled, hsample⟩ := run_sampleTrials_script outcomes pid
      signer.verifyingKey.parameter signer.nextLeaf message maxTrials ⟨w, []⟩
    simp only [List.length_nil, Nat.zero_add, List.nil_append] at hsampled hsample
    have hlen : (List.replicate n (.fill saltLength : Call String)).length = n :=
      List.length_replicate
    have hupdate : Updated outcomes (signer.advance message sampled)
        ⟨w, List.replicate n (.fill saltLength)⟩ _ _ :=
      Prog.Always.run (h := scripted outcomes pid) (fun c s => rfl)
        (update_script hw.ok (howns.path_eq ▸ hw.apart))
    obtain ⟨written, s2, hwrite⟩ : ∃ written s2, (signer.advance message sampled).write.run.run
        (scripted outcomes pid) ⟨w, List.replicate n (.fill saltLength)⟩ = (written, s2) :=
      ⟨_, _, rfl⟩
    have hr : r = (signer.settled message sampled written, s2) :=
      run_signWithRng _ hfailed hm hlt _ hsample hwrite
    rw [hwrite] at hupdate
    obtain ⟨fd, m, hcalls, hend⟩ := hupdate
    have hpath : (signer.advance message sampled).path = path := howns.path_eq
    rw [hpath, hlen] at hend
    obtain ⟨hnext, hsome, hnone⟩ := settled_advance hlt message sampled written
    rw [hr]
    refine ⟨n, sampled, fd, m, hsampled.le, hsampled, hcalls, hnext, hsome, hnone, ?_, ?_⟩
    · constructor
      · rintro ⟨sig, hsig⟩
        obtain ⟨rfl, -, hfine, -⟩ | ⟨kind, j, rfl, -⟩ := hend
        · cases sampled with
          | error e => cases hsig
          | ok salt => exact ⟨⟨salt, rfl⟩, hfine⟩
        · cases hsig
      · rintro ⟨⟨salt, rfl⟩, hfine⟩
        obtain ⟨rfl, -⟩ | ⟨kind, j, -, -, hj, hfails, -⟩ := hend
        · obtain ⟨sig, hsig, -⟩ := outcome_of_accepted howns.valid hlt hsampled.accepts_of_ok
          exact ⟨sig, hsig⟩
        · have hfail := hfails.2
          rw [hfine j hj] at hfail
          cases hfail
    · obtain ⟨rfl, hm6, hfine, hcontent⟩ | ⟨kind, j, rfl, hmj, hj, hfails, hcontent⟩ := hend
      · refine Or.inl ⟨hm6, hfine, rfl, hcontent, ?_, ?_⟩
        · rintro salt rfl
          exact outcome_of_accepted howns.valid hlt hsampled.accepts_of_ok
        · rintro e rfl
          rfl
      · exact Or.inr ⟨kind, j, hmj, hj, hfails, rfl, hcontent,
          fun message' fill => SigningKey.signWithRng_failed _ rfl message' fill⟩

/-- Every signer that is live in a run satisfies the hypotheses above. -/
theorem Machine.owns_run {K Pid : Type} [Keccak] [OneTime K] [LawfulOneTime K] [DecidableEq Pid]
    (path : String) (files : List (String × Bytes)) (events : List (Event Pid)) {pid : Pid}
    {signer : SigningKey K}
    (hlive : ((Machine.boot files : Machine K Pid).run path events).client pid = .live signer) :
    WorldOk path ((Machine.boot files : Machine K Pid).run path events).world ∧
      Owns path ((Machine.boot files : Machine K Pid).run path events).world signer := by
  have hinv : Inv path (fun _ => True) (fun _ => True)
      ((Machine.boot files : Machine K Pid).run path events) :=
    inv_run events (inv_boot files) (along_of_forall _ fun _ _ _ =>
      ⟨fun _ _ _ => trivial, fun _ _ _ _ _ _ _ => trivial⟩)
  exact ⟨hinv.world, hinv.owns hlive⟩

/-- The first attempt of a new signer, when all is carried out. -/
theorem attempt_effect_first :
    letI := constantHash
    let m : Machine Instance.winternitz.SecretKey Nat :=
      (Machine.boot []).run "key" (.create 0 :: Machine.calls 0 10 [])
    ∃ signer, m.client 0 = .live signer ∧
      ((signer.signWithRng (zeros _) callerFill).run (scripted (fun _ => .ok []) 0)
        ⟨m.world, []⟩).1.2.nextLeaf.toNat = signer.nextLeaf.toNat + 1 := by
  let _ := constantHash
  have hlive : (((Machine.boot []).run "key" (.create 0 :: Machine.calls 0 10 []) :
      Machine Instance.winternitz.SecretKey Nat).client 0).signer.any (fun signer =>
        signer.failed == false && signer.lastMessage.isNone && signer.nextLeaf == 0) = true := by
    decide +kernel
  obtain ⟨signer, hsigner, hstate⟩ := (Option.any_eq_true _ _).mp hlive
  have hclient := Client.eq_live_of_signer hsigner
  obtain ⟨hw, howns⟩ := Machine.owns_run "key" [] (.create 0 :: Machine.calls 0 10 []) hclient
  simp only [Bool.and_eq_true, beq_iff_eq] at hstate
  obtain ⟨⟨hfailed, hnone⟩, hnext⟩ := hstate
  have hm : signer.lastMessage ≠ some (zeros _) := fun h => by
    rw [h] at hnone
    cases hnone
  have hleaves : signer.nextLeaf ≠ OneTime.leaves Instance.winternitz.SecretKey := by
    rw [hnext]
    decide
  obtain ⟨-, -, -, heffect⟩ := attempt_effect .winternitz hw howns (zeros _) (fun _ => .ok []) 0
  obtain ⟨n, sampled, fd, m, -, -, -, hspent, -⟩ := heffect hfailed hm hleaves
  exact ⟨signer, hclient, hspent⟩

end SolanaWinternitz
