import SolanaWinternitz.Properties.TsDisk
import SolanaWinternitz.Properties.TsServes

/-!
# How a TypeScript signer starts

Any call may fail, before or after its effect.

* `openFile_opened` — `open` gives the signer of the visible file, under the lock
* `Stands` — the signer has the state of a valid record. **Every method keeps it**
  (`Stands.changes`)
* `create_created` — `create` gives a new signer whose record is durable, or throws
-/

namespace SolanaWinternitz.Ts

open Infra Infra.Os Infra.Js

/-! ## Opening -/

section

variable {K Pid X : Type}

theorem ends_openSidecar (name : String) (p : Process K Pid X) :
    Ends (fun r p' => ∀ fd, r = .ok fd → p'.world.dir name = some fd)
      (orThrow system (invoke (.openSidecar name)) : Action K Pid X Fd) p := by
  rcases hexec : p.world.exec p.pid (p.outcomes p.calls.length) (.openSidecar name) with ⟨r, w⟩
  obtain ⟨-, hfd, -⟩ := World.exec_openSidecar hexec
  exact .of_run (orThrow_apply system (invoke_apply hexec)) fun fd he => hfd fd (mapError_eq_ok he)

theorem ends_flock {name : String} {fd : Fd} {p : Process K Pid X}
    (h : p.world.dir name = some fd) :
    Ends (fun r p' => r = .ok true → p'.world.dir name = some fd ∧
      ∃ holder, p'.world.locks fd = some holder) (flock fd) p := by
  rcases hexec : p.world.exec p.pid (p.outcomes p.calls.length) (.tryLock fd) with ⟨r, w⟩
  refine .of_run (bind_ok (invoke_apply hexec)) fun he => ?_
  rcases World.exec_tryLock hexec with ⟨-, -, rfl⟩ | ⟨⟨e, rfl, -⟩, -⟩
  · exact ⟨h, p.pid, Function.update_self _ _ _⟩
  · cases he

/-- The lock file is locked, unless `acquire` throws. -/
theorem ends_acquire (path : String) (p : Process K Pid X) :
    Ends (fun r p' => ∀ fd, r = .ok fd → p'.world.dir (sibling path ".lock") = some fd ∧
      ∃ holder, p'.world.locks fd = some holder) (acquire path) p := by
  unfold acquire
  refine ends_bind (P := fun r p' => ∀ fd, r = .ok fd →
      p'.world.dir (sibling path ".lock") = some fd)
    (ends_onThrow (ends_openSidecar (sibling path ".lock") p) (fun _ _ h => h)
      fun e p' _ fd he => by cases he) (fun fd p₁ h₁ => ?_) fun e p₁ _ fd he => by cases he
  refine ends_onThrow (P := fun r p' => ∀ fd, r = .ok fd →
      p'.world.dir (sibling path ".lock") = some fd ∧ ∃ holder, p'.world.locks fd = some holder)
    (ends_bind (ends_flock (h₁ fd rfl)) (fun locked p₂ h₂ => ?_) fun e p₂ _ fd he => by cases he)
    (fun _ _ h => h) fun e p₂ _ => ends_bind (P := fun _ _ => True) trivial
      (fun _ _ _ fd he => by cases he) fun _ _ _ fd he => by cases he
  cases locked with
  | true =>
    intro fd' he
    cases he
    exact h₂ rfl
  | false =>
    intro fd' he
    cases he

theorem ends_openRead (path : String) (p : Process K Pid X) :
    Ends (fun r p' => p'.world = p.world ∧ ∀ fd, r = .ok fd → p.world.dir path = some fd)
      (orThrow system (invoke (.openRead path)) : Action K Pid X Fd) p := by
  rcases hexec : p.world.exec p.pid (p.outcomes p.calls.length) (.openRead path) with ⟨r, w⟩
  obtain ⟨rfl, hr⟩ := World.exec_openRead hexec
  refine .of_run (orThrow_apply system (invoke_apply hexec)) ⟨rfl, fun fd he => ?_⟩
  rw [mapError_eq_ok he] at hr
  rcases hr with hr | ⟨-, e, hr⟩
  · cases hd : p.world.dir path with
    | some i =>
      rw [hd] at hr
      cases hr
      rfl
    | none =>
      rw [hd] at hr
      cases hr
  · cases hr

theorem ends_fileLen (fd : Fd) (p : Process K Pid X) :
    Ends (fun r p' => p'.world = p.world ∧
      ∀ n, r = .ok n → n = (p.world.file fd).bytes.length)
      (orThrow system (invoke (.fileLen fd)) : Action K Pid X Nat) p := by
  rcases hexec : p.world.exec p.pid (p.outcomes p.calls.length) (.fileLen fd) with ⟨r, w⟩
  obtain ⟨rfl, hr⟩ := World.exec_fileLen hexec
  refine .of_run (orThrow_apply system (invoke_apply hexec)) ⟨rfl, fun n he => ?_⟩
  rw [mapError_eq_ok he] at hr
  rcases hr with hr | ⟨-, e, hr⟩
  · exact Except.ok.inj hr
  · cases hr

theorem ends_readExact (fd : Fd) (p : Process K Pid X) :
    Ends (fun r p' => p'.world = p.world ∧
      ∀ data, r = .ok data → data.toList = (p.world.file fd).bytes)
      (orThrow system (invoke (.readExact fd 0 (p.world.file fd).bytes.length)) :
        Action K Pid X (Block (p.world.file fd).bytes.length)) p := by
  rcases hexec : p.world.exec p.pid (p.outcomes p.calls.length)
    (.readExact fd 0 (p.world.file fd).bytes.length) with ⟨r, w⟩
  obtain ⟨rfl, hr⟩ := World.exec_readExact hexec (Nat.zero_add _).le
  refine .of_run (orThrow_apply system (invoke_apply hexec)) ⟨rfl, fun data he => ?_⟩
  rw [mapError_eq_ok he] at hr
  rcases hr with hr | ⟨-, e, hr⟩
  · rw [Except.ok.inj hr, slice_toList (Nat.zero_add _).le, List.drop_zero, List.take_length]
  · cases hr

/-- What is read is all of the visible file. -/
theorem ends_readFileSync (path : String) (p : Process K Pid X) :
    Ends (fun r p' => p'.world = p.world ∧
      ∀ data, r = .ok data → ∃ f, p.world.content path = some f ∧ data = f.bytes)
      (readFileSync path) p := by
  unfold readFileSync
  refine ends_bind (ends_openRead path p) (fun fd p₁ h₁ => ?_)
    fun e p₁ h₁ => ⟨h₁.1, fun data he => by cases he⟩
  have hcontent : p.world.content path = some (p.world.file fd) := by
    rw [World.content, h₁.2 fd rfl]
    rfl
  refine ends_onExit (P := fun r p' => p'.world = p.world ∧
      ∀ data, r = .ok data → ∃ f, p.world.content path = some f ∧ data = f.bytes) ?_
    fun r p₂ h₂ => (ends_closeSync fd p₂).imp fun u p₃ h₃ => ?_
  · refine ends_bind (ends_fileLen fd p₁) (fun n p₂ h₂ => ?_)
      fun e p₂ h₂ => ⟨h₂.1.trans h₁.1, fun data he => by cases he⟩
    obtain ⟨hworld, hn⟩ := h₂
    rw [← hworld] at hn
    obtain rfl := hn n rfl
    refine ends_bind (ends_readExact fd p₂) (fun data p₃ h₃ => ?_)
      fun e p₃ h₃ => ⟨(h₃.1.trans hworld).trans h₁.1, fun data he => by cases he⟩
    refine ⟨(h₃.1.trans hworld).trans h₁.1, fun data' he => ⟨_, hcontent, ?_⟩⟩
    cases he
    rw [h₃.2 data rfl, hworld, h₁.1]
  · rw [h₃]
    exact ⟨fun _ => h₂, fun e _ => ⟨h₂.1, fun data he => by cases he⟩⟩

end

variable [Keccak] {K' Pid X : Type} [OneTime K']

/-- **`open` gives the signer of the visible file**, under the lock, or throws. -/
theorem openFile_opened (path : String) (p : Process K' Pid X) :
    Ends (fun r p' => ∀ ts, r = .ok ts → ∃ lock holder f,
        p'.world.dir (sibling path ".lock") = some lock ∧ p'.world.locks lock = some holder ∧
        p'.world.content path = some f ∧ SigningKey.ofRecord path lock f.bytes = .ok ts)
      (SigningKey.openFile path : Action K' Pid X (SigningKey K')) p := by
  unfold SigningKey.openFile
  refine ends_bind (ends_acquire path p) (fun lock p₁ h₁ => ?_) fun e p₁ _ ts he => by cases he
  obtain ⟨hdir, holder, hlock⟩ := h₁ lock rfl
  let opened (r : Except Thrown (SigningKey K')) (p' : Process K' Pid X) : Prop :=
    ∀ ts, r = .ok ts → ∃ lock holder f,
      p'.world.dir (sibling path ".lock") = some lock ∧ p'.world.locks lock = some holder ∧
      p'.world.content path = some f ∧ SigningKey.ofRecord path lock f.bytes = .ok ts
  refine ends_onThrow (P := opened) ?_ (fun _ _ h => h) fun e p₂ _ =>
    ends_bind (P := fun _ _ => True) trivial (fun _ _ _ ts he => by cases he)
      fun _ _ _ ts he => by cases he
  unfold SigningKey.openLocked
  refine ends_bind (P := fun r p' => p'.world = p₁.world ∧ ∀ data, r = .ok data →
      ∃ f, p₁.world.content path = some f ∧ data = f.bytes)
    (ends_onThrow (ends_readFileSync path p₁) (fun _ _ h => h) fun e p₂ h₂ => ?_)
    (fun data p₂ h₂ ts he => ?_) fun e p₂ _ ts he => by cases he
  · split
    · exact ⟨h₂.1, fun _ he => by cases he⟩
    · exact ⟨h₂.1, fun _ he => by cases he⟩
  · obtain ⟨f, hf, rfl⟩ := h₂.2 data rfl
    obtain ⟨hworld, -⟩ := h₂
    rw [← hworld] at hdir hlock hf
    exact ⟨lock, holder, f, hdir, hlock, hf, mapError_eq_ok he⟩

/-! ## Signers that stand for records -/

variable {K Pid : Type} [SolanaWinternitz.OneTime K] [SameOneTime K K'] [LawfulOneTime K]
  {r : Record K} {s s' : SigningKey K'}

/-- The signer has the state of a valid record. -/
def Stands (K : Type) [SolanaWinternitz.OneTime K] (s : SigningKey K') : Prop :=
  ∃ r : Record K, r.Valid ∧ Corresponds r s

omit [SameOneTime K K'] in
/-- Signers that stand for one record have one state. -/
theorem later_of_corresponds (h : Corresponds r s) (h' : Corresponds r s')
    (hpath : s'.path = s.path) : Later s s' := by
  obtain ⟨secrets, parameter, htwins⟩ := h.key
  obtain ⟨secrets', parameter', htwins'⟩ := h'.key
  obtain ⟨-, hsecrets, hparameter⟩ := LawfulOneTime.of_builds htwins.rust
  obtain ⟨-, hsecrets', hparameter'⟩ := LawfulOneTime.of_builds htwins'.rust
  have hkey : (Except.ok s'.key : Except CryptoError K') = .ok s.key := by
    rw [← htwins.ts, ← htwins'.ts, ← hsecrets, ← hsecrets', ← hparameter, ← hparameter']
  refine ⟨Except.ok.inj hkey, hpath, Or.inr ⟨?_, ?_, ?_⟩⟩
  · rw [h.nextLeaf, h'.nextLeaf]
  · rw [h.lastMessage, h'.lastMessage]
  · rw [h.lastSalt, h'.lastSalt]

/-- What a signer writes is found again. -/
theorem Stands.writes (h : Stands K s) {f : File} (hf : s.Writes f) :
    f.synced = true ∧ ∃ r : Record K, decode K f.bytes = some r ∧ Corresponds r s := by
  obtain ⟨r, hr, hcorr⟩ := h
  obtain ⟨header, hheader, rfl⟩ := hf
  obtain ⟨header', hheader', hwritten⟩ := hcorr.written
  cases hheader.symm.trans hheader'
  refine ⟨rfl, r, ?_, hcorr⟩
  rw [hwritten]
  exact hr.decode_encoded

omit [LawfulOneTime K] in
/-- What is sampled for a signer, as a salt for its record. -/
theorem Sampled.salt (h : Corresponds r s) {message : Message} {sampled : Except Thrown Bytes}
    (hs : Sampled s message.toList sampled) : ∃ sampled' : Except Refusal Salt,
      (∀ salt, sampled' = .ok salt → r.accepts message salt = true) ∧
      s.spent message.toList sampled
        = s.spent message.toList ((sampled'.mapError Refusal.ts).map List.Vector.toList) := by
  cases sampled with
  | error e => exact ⟨.error .saltsExhausted, nofun, rfl⟩
  | ok salt =>
    obtain ⟨key, hkey, hlen, hx⟩ := hs.accepted salt rfl
    obtain ⟨salt, rfl⟩ : ∃ b : Salt, b.toList = salt := ⟨⟨salt, hlen⟩, rfl⟩
    obtain ⟨key', hkey', hparameter⟩ := h.verifyingKey
    cases hkey.symm.trans hkey'
    rw [hparameter, h.nextLeaf, encode_eq, Option.isSome_map] at hx
    refine ⟨.ok salt, fun salt' he => ?_, rfl⟩
    cases he
    exact hx

omit [LawfulOneTime K] in
/-- **A method leaves a signer that stands for a record.** -/
theorem Stands.changes (h : Stands K s) (hs : Changes s s') : Stands K s' := by
  obtain ⟨r, hr, hcorr⟩ := h
  cases hs with
  | keep closed he =>
    rw [he]
    exact ⟨r, hr, hcorr.key, hcorr.nextLeaf, hcorr.lastMessage, hcorr.lastSalt⟩
  | spend value sampled closed hsampled he =>
    obtain ⟨message, rfl⟩ : ∃ message : Message, message.toList = value :=
      ⟨⟨value, hsampled.length⟩, rfl⟩
    have hlt : r.nextLeaf < SolanaWinternitz.OneTime.leaves K := by
      have hleaf := hsampled.leaf
      rw [hcorr.nextLeaf, SameOneTime.leaves (K := K)] at hleaf
      exact UInt32.lt_iff_toNat_lt.mpr (by omega)
    obtain ⟨sampled', hx, hspent⟩ := hsampled.salt hcorr
    have hspend := hcorr.spent hlt message sampled'
    rw [he, hspent]
    exact ⟨_, hr.spend_of_accepts hlt hx, hspend.key, hspend.nextLeaf, hspend.lastMessage,
      hspend.lastSalt⟩

/-! ## Creating -/

/-- The signer of a new key. -/
def SigningKey.fresh (path : String) (lock : Fd) (key : K') : SigningKey K' :=
  { key, path, lock, nextLeaf := 0, lastMessage := none, lastSalt := List.replicate saltLength 0 }

/-- The key of a new signer. -/
def Drawn (key : K') : Prop :=
  ∃ (secrets : Block (OneTime.leaves K' * elementsLength)) (parameter : Block parameterLen),
    OneTime.fromSecrets secrets.toList parameter.toList = .ok key

/-- A new signer stands for a record that has signed nothing. -/
theorem stands_fresh {key : K'} (h : Drawn key) (path : String) (lock : Fd) :
    Stands K (SigningKey.fresh path lock key) := by
  obtain ⟨secrets, parameter, hts⟩ := h
  have hlen : secrets.toList.length
      = (SolanaWinternitz.OneTime.leaves K).toNat * elementsLength := by
    rw [List.Vector.toList_length, SameOneTime.leaves (K := K)]
  obtain ⟨key', hbuilds⟩ := LawfulOneTime.exists_builds (K := K) secrets.toList parameter hlen
  exact ⟨⟨key', 0, none, zeros _⟩, ⟨⟨_, _, hbuilds⟩, UInt32.zero_le, nofun, fun _ => rfl⟩,
    ⟨secrets.toList, parameter, hbuilds, hts⟩, rfl, rfl, rfl⟩

section

variable {path : String} {p : Process K' Pid X}

omit [Keccak] [OneTime K'] in
theorem ends_fillRandom (n : Nat) (p : Process K' Pid X) :
    Ends (fun _ p' => p'.world = p.world) (fillRandom n) p := by
  have hrandom : Ends (fun _ p' => p'.world = p.world)
      (orThrow (fun code => .cause (.random code)) (invoke (.random n)) :
        Action K' Pid X (Block n)) p := by
    show (p.world.exec p.pid (p.outcomes p.calls.length) (.random n)).2 = p.world
    cases p.outcomes p.calls.length <;> rfl
  unfold fillRandom
  refine ends_onThrow hrandom (fun _ _ h => h) fun e p' h => ?_
  exact h

omit [Keccak] [OneTime K'] in
theorem ends_createNew (hw : p.world.Ok) : Ends (fun r p' => ∀ fd, r = .ok fd →
      p.world.content path = none ∧
      World.Draft path (sibling path ".tmp") p'.world fd ⟨[], false⟩ p'.world)
    (orThrow system (invoke (.createNew path)) : Action K' Pid X Fd) p := by
  rcases hexec : p.world.exec p.pid (p.outcomes p.calls.length) (.createNew path) with ⟨r, w⟩
  exact .of_run (orThrow_apply system (invoke_apply hexec)) fun fd he =>
    World.draft_createNew hw (sibling_ne (by decide)).symm hexec fd (mapError_eq_ok he)

omit [Keccak] [OneTime K'] in
theorem ends_syncDir_durable {f : File} (hcontent : p.world.content path = some f)
    (hf : f.synced = true) :
    Ends (fun r p' => r = .ok () → p'.world.Durable path f) syncDir p := by
  rcases hexec : p.world.exec p.pid (p.outcomes p.calls.length) .syncDir with ⟨r, w⟩
  refine .of_run (orThrow_apply system (invoke_apply hexec)) fun he => ?_
  rw [show p.did .syncDir w = { p with world := w, calls := p.calls ++ [.syncDir] } from rfl,
    show w = p.world.syncDir from (World.exec_syncDir hexec).2 (mapError_eq_ok he)]
  exact World.durable_syncDir hcontent hf

omit [Keccak] in
/-- The record of a new signer is the only file that can come back. -/
theorem ends_createLocked (hw : p.world.Ok) (lock : Fd) :
    Ends (fun r p' => ∀ ts, r = .ok ts → p.world.content path = none ∧ ∃ key, Drawn key ∧
      ts = .fresh path lock key ∧ ∃ f, ts.Writes f ∧ p'.world.Durable path f)
      (SigningKey.createLocked path lock : Action K' Pid X (SigningKey K')) p := by
  -- The signer and its file, before the directory is synced.
  let made (r : Except Thrown (SigningKey K')) (p' : Process K' Pid X) : Prop :=
    ∀ ts, r = .ok ts → ∃ key, Drawn key ∧ ts = .fresh path lock key ∧
      ∃ f, ts.Writes f ∧ p'.world.content path = some f
  unfold SigningKey.createLocked
  refine ends_bind (P := fun r p₁ => ∀ fd, r = .ok fd → p.world.content path = none ∧
      World.Draft path (sibling path ".tmp") p₁.world fd ⟨[], false⟩ p₁.world)
    (ends_onThrow (ends_createNew hw) (fun _ _ h => h) fun e p' _ fd he => ?_) (fun fd p₁ h₁ => ?_)
    fun e p₁ _ ts he => by cases he
  · split at he <;> cases he
  · obtain ⟨hnone, hdraft⟩ := h₁ fd rfl
    refine ends_bind (P := made) (ends_onExit (P := made) ?_ fun r p₂ h₂ =>
      (ends_closeSync fd p₂).imp fun u p₃ h₃ => ?_) (fun ts p₂ h₂ => ?_)
        fun e p₂ _ ts he => by cases he
    · refine ends_bind (ends_fillRandom _ p₁) (fun secrets p₂ h₂ => ?_)
        fun e _ _ ts he => by cases he
      refine ends_bind (ends_fillRandom _ p₂) (fun parameter p₃ h₃ => ?_)
        fun e _ _ ts he => by cases he
      refine ends_bind (P := fun r p₄ => p₄ = p₃ ∧ ∀ key : K', r = .ok key →
          OneTime.fromSecrets secrets.toList parameter.toList = .ok key)
        ⟨rfl, fun key he => mapError_eq_ok he⟩ (fun key p₄ h₄ => ?_) fun e _ _ ts he => by cases he
      obtain ⟨rfl, hkey⟩ := h₄
      have hdraft' : World.Draft path (sibling path ".tmp") p₁.world fd ⟨[], false⟩ p₄.world := by
        rw [h₃, h₂]
        exact hdraft
      refine ends_bind ((SigningKey.fresh path lock key).writeRecord_ends hdraft')
        (fun _ p₅ h₅ => ?_) fun e _ _ ts he => by cases he
      obtain ⟨header, hheader, hrecord⟩ := h₅.2 rfl
      refine ends_bind (ends_fsyncSync hrecord) (fun _ p₆ h₆ => ?_) fun e _ _ ts he => by cases he
      intro ts he
      cases he
      exact ⟨key, ⟨secrets, parameter, hkey key rfl⟩, rfl, _, ⟨header, hheader, rfl⟩,
        (h₆.2 rfl).content⟩
    · unfold made at h₂ ⊢
      rw [h₃]
      exact ⟨fun _ => h₂, fun e _ ts he => by cases he⟩
    · obtain ⟨key, hkey, rfl, f, hf, hcontent⟩ := h₂ ts rfl
      have hsynced : f.synced = true := by
        obtain ⟨header, -, rfl⟩ := hf
        rfl
      refine ends_bind (ends_syncDir_durable hcontent hsynced) (fun _ p₃ h₃ => ?_)
        fun e _ _ ts he => by cases he
      intro ts he
      cases he
      exact ⟨hnone, key, hkey, rfl, f, hf, h₃ rfl⟩

omit [Keccak] in
/-- **`create` makes a file that does not exist**, with the record of a new signer, or throws. -/
theorem create_created (hw : Writable path p.world) :
    Ends (fun r p' => ∀ ts, r = .ok ts → p.world.content path = none ∧ ∃ lock holder key,
        p'.world.dir (sibling path ".lock") = some lock ∧ p'.world.locks lock = some holder ∧
        Drawn key ∧ ts = .fresh path lock key ∧ ∃ f, ts.Writes f ∧ p'.world.Durable path f)
      (SigningKey.create path : Action K' Pid X (SigningKey K')) p := by
  unfold SigningKey.create
  rcases hr : acquire path p with ⟨r, p₁⟩
  cases r with
  | error e => exact .of_run (bind_error hr) fun ts he => by cases he
  | ok lock =>
    obtain ⟨hdir, holder, hlock⟩ := (ends_acquire path p).along hr lock rfl
    have hfewer := (moves_acquire .refl .trans kept_invoke p).along hr hw
    have hbeside : Moves (Beside (sibling path ".lock"))
        (SigningKey.createLocked path lock : Action K' Pid X (SigningKey K')) p₁ := by
      refine moves_createLocked .refl .trans (fun c hc p => beside_invoke ?_ ?_ p) lock p₁
      · cases c with
        | createNew n =>
          obtain rfl : n = path := hc
          exact (sibling_ne (by decide)).symm
        | _ => trivial
      · cases c with
        | tryLock fd => exact hc.elim
        | release fd => exact hc.elim
        | _ => trivial
    unfold Ends
    rw [bind_ok hr]
    rcases hr' : (SigningKey.createLocked path lock : Action K' Pid X (SigningKey K')) p₁
      with ⟨r', p₂⟩
    have hkept := hbeside.along hr'
    cases r' with
    | ok ts =>
      obtain ⟨hnone, key, hkey, rfl, f, hf, hdurable⟩ :=
        (ends_createLocked hfewer.ok lock).along hr' ts rfl
      rw [onThrow_ok hr']
      intro ts' he
      cases he
      refine ⟨hfewer.content.symm.trans hnone, lock, holder, key, hkept.dir.trans hdir,
        ?_, hkey, rfl,
        f, hf, hdurable⟩
      rw [hkept.locks]
      exact hlock
    | error e =>
      rw [onThrow_error hr']
      have hfails : Fails (do release lock; raise (rethrow .io e) : Action K' Pid X (SigningKey K'))
          p₂ := fails_bind fun _ _ _ => fails_raise _ _
      obtain ⟨e', he'⟩ := hfails
      intro ts he
      cases he'.symm.trans he

omit [Keccak] in
/-- `create` moves no file. -/
theorem writable_create (hw : Writable path p.world) :
    Ends (fun _ p' => Writable path p'.world)
      (SigningKey.create path : Action K' Pid X (SigningKey K')) p := by
  have hmoves :
      Moves (fun p p' : Process K' Pid X => Writable path p.world → Writable path p'.world)
      (SigningKey.create path : Action K' Pid X (SigningKey K')) p := by
    refine moves_create (R := fun p p' => Writable path p.world → Writable path p'.world)
      (fun _ h => h) (fun h h' hw => h' (h hw)) (fun c hc p hw => ?_) p
    have hkeeps : ∀ n m, c ≠ .rename n m := by
      intro n m he
      rw [he] at hc
      rcases hc with hc | hc
      · exact hc
      · exact hc
    exact And.elim Writable.mk (World.apart_exec hw.ok hw.apart (sibling_ne (by decide)) hkeeps)
  exact hmoves hw

end

end SolanaWinternitz.Ts
