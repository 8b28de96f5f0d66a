import SolanaWinternitz.Infra.Replace
import SolanaWinternitz.Properties.PureSigner
import SolanaWinternitz.Properties.SharedFile
import SolanaWinternitz.Properties.TsSigner

/-!
# The signer of the crate on a stored record

Every file call is carried out, and the salts come from a source that the caller passes in.

* `Held` — the files of an open signer; once it is closed the record is `Stored`
* `Stored.open_rust` — `open` of a stored record gives a signer with that record
* `SigningKey.Serves.sign` — **`sign_with_rng` does what the signer without a file does**, and
  leaves its record in the file
-/

namespace SolanaWinternitz

open Infra Infra.Os Infra.Js

variable {Pid σ : Type} {w : World String Pid} {pid : Pid} {path : String} {lock : Fd}
  {b : Bytes} {source : SharedSource σ} {s : σ}

/-! ## The files of an open signer -/

/-- An open signer of process `pid` has the lock, and the file under its path holds these bytes. -/
structure Held (path : String) (pid : Pid) (lock : Fd) (b : Bytes) (w : World String Pid) :
    Prop where
  world : Machine.WorldOk path w
  lockFile : w.dir (sibling path ".lock") = some lock
  held : w.locks lock = some pid
  content : ∃ f, w.content path = some f ∧ f.bytes = b

/-- Replacing the record. -/
theorem Held.replace (h : Held path pid lock b w) (b' : Bytes) :
    Held path pid lock b' (w.replace (sibling path ".tmp") path b') := by
  have htmp : sibling path ".tmp" ≠ path := sibling_ne (by decide)
  have hlock : sibling path ".lock" ≠ path := sibling_ne (by decide)
  obtain ⟨hok, hapart⟩ := h.world.ok.replace h.world.apart htmp b'
  have hdir : (w.replace (sibling path ".tmp") path b').dir (sibling path ".lock")
      = w.dir (sibling path ".lock") := World.replace_dir (tmp_ne_lock path).symm hlock
  refine ⟨⟨hok, hapart, fun i q hq => ?_⟩, hdir.trans h.lockFile, ?_, _, World.content_replace, rfl⟩
  · rw [World.replace_locks] at hq
    rw [hdir]
    exact h.world.locks i q hq
  · rw [World.replace_locks]
    exact h.held

/-- Closing a signer. -/
theorem Held.release (h : Held path pid lock b w) : Stored path b (w.release lock) where
  world := ⟨⟨h.world.ok.1, h.world.ok.2⟩, h.world.apart, fun i q hq => by
    change Function.update w.locks lock none i = some q at hq
    by_cases hi : i = lock
    · rw [hi, Function.update_self] at hq
      cases hq
    · rw [Function.update_of_ne hi] at hq
      exact h.world.locks i q hq⟩
  free q := by
    rintro ⟨i, hi, hq⟩
    cases hi.symm.trans h.lockFile
    change Function.update w.locks lock none lock = some q at hq
    rw [Function.update_self] at hq
    cases hq
  content := h.content

/-- Nobody holds the lock file of a stored record. -/
theorem Stored.unlocked (h : Stored path b w) :
    (w.touch (sibling path ".lock")).locks (w.inode (sibling path ".lock")) = none := by
  rw [World.locks_touch]
  cases hl : w.locks (w.inode (sibling path ".lock")) with
  | none => rfl
  | some q => exact absurd ⟨_, h.world.locks _ q hl, hl⟩ (h.free q)

variable [Keccak]

/-- Opening a signer. -/
theorem Stored.acquire (h : Stored path b w) (pid : Pid) :
    Held path pid (w.inode (sibling path ".lock")) b (w.acquire (sibling path ".lock") pid) := by
  have htouch : Machine.Turn Winternitz.SecretKey path pid w (w.touch (sibling path ".lock")) :=
    .touch h.world
  have hdir := World.touch_dir_self w (sibling path ".lock")
  have hlock : Machine.Turn Winternitz.SecretKey path pid (w.touch (sibling path ".lock"))
      (w.acquire (sibling path ".lock") pid) := .lock htouch.worldOk hdir h.unlocked
  refine ⟨hlock.worldOk, hdir, Function.update_self _ _ _, ?_⟩
  obtain ⟨f, hf, hb⟩ := h.content
  refine ⟨f, ?_, hb⟩
  rw [← hf]
  exact World.content_touch_of_ne h.world.ok (sibling_ne (by decide)).symm

/-! ## The crate -/

omit [Keccak] in
theorem run_orFail_ok {τ ε α : Type} {h : (c : Call String) → τ → Answer SigningError c × τ}
    {p : Action (Except ε α)} {t t' : τ} {a : α} (f : ε → SigningError)
    (hp : p.run h t = (.ok a, t')) : (orFail f p).run.run h t = (.ok a, t') := by
  show Prog.run h (p >>= fun r => Prog.ret (r.mapError f)) t = _
  rw [Prog.run_bind, Prog.run_ret, hp]
  rfl

/-- The source beside the files. -/
def SharedSource.beside (source : SharedSource σ) (Pid : Type) :
    SharedSource (World String Pid × σ) := fun n t =>
  ((source n t.2).1, (t.1, (source n t.2).2))

/-- The environment of the crate: every file call is carried out. -/
def environment (source : SharedSource σ) (pid : Pid) :
    (c : Call String) → World String Pid × σ → Answer SigningError c × (World String Pid × σ) :=
  (source.beside Pid).handler fun c t =>
    ((carriedOut pid c t.1).1, ((carriedOut pid c t.1).2, t.2))

/-- Sampling asks the source alone, however the file calls are answered. -/
theorem run_sampleTrials_beside (files : (c : Call String) → World String Pid × σ →
    Answer SigningError c × (World String Pid × σ)) (parameter : Parameter) (leaf : UInt32)
    (message : Message) (trials : Nat) : ∀ s : σ,
    (sampleTrials parameter leaf message callerFill trials).run.run
        ((source.beside Pid).handler files) (w, s)
      = ((firstAccepted source (fun salt => ((encode salt parameter leaf message).eval
            keccak256).isSome) trials s).1.mapError Refusal.rust,
          (w, (firstAccepted source (fun salt => ((encode salt parameter leaf message).eval
            keccak256).isSome) trials s).2)) := by
  induction trials with
  | zero => exact fun _ => rfl
  | succ trials ih =>
    intro s
    have hfill : (source.beside Pid).handler files (.fill saltLength) (w, s)
        = ((source saltLength s).1.mapError Failure.rust, (w, (source saltLength s).2)) := rfl
    rw [run_sampleTrials_succ, hfill, firstAccepted]
    rcases hr : source saltLength s with ⟨r, s'⟩
    cases r with
    | error failure => rfl
    | ok salt =>
      by_cases hx : ((encode salt parameter leaf message).eval keccak256).isSome = true
      · simp only [Except.mapError, if_pos hx]
      · simp only [Except.mapError, if_neg hx]
        exact ih s'

variable {K : Type} [OneTime K]

/-- **`write` puts the encoding of the signer behind its path.** -/
theorem SigningKey.run_write (signer : SigningKey K) :
    signer.write.run.run (environment source pid) (w, s)
      = (.ok (), (w.replace (sibling signer.path ".tmp") signer.path signer.encoded, s)) := by
  let fd := w.inode (sibling signer.path ".tmp")
  let touched := w.touch (sibling signer.path ".tmp")
  have hdir : touched.dir (sibling signer.path ".tmp") = some fd := World.touch_dir_self w _
  have hopen : (orFail .io (invoke (.openTruncate (sibling signer.path ".tmp"))) :
      Fallible Fd).run.run (environment source pid) (w, s)
        = (.ok fd, (touched.setFile fd ⟨[], false⟩, s)) := by
    refine run_orFail_ok .io ?_
    exact congrArg (fun r => (r.1, (r.2, s)))
      (World.exec_ok_openTruncate (E := SigningError) w [] pid (sibling signer.path ".tmp"))
  have hwrite : ∀ (done data : Bytes), (orFail .io (invoke (.writeAll fd data)) :
      Fallible Unit).run.run (environment source pid) (touched.setFile fd ⟨done, false⟩, s)
        = (.ok (), (touched.setFile fd ⟨done ++ data, false⟩, s)) := by
    intro done data
    refine run_orFail_ok .io ?_
    show (Except.ok (), ((touched.setFile fd ⟨done, false⟩).setFile fd
      ⟨((touched.setFile fd ⟨done, false⟩).file fd).bytes ++ data, false⟩, s)) = _
    rw [World.setFile_setFile, World.setFile_file_self]
  have hsync : (orFail .io (invoke (.syncAll fd)) : Fallible Unit).run.run
      (environment source pid) (touched.setFile fd ⟨signer.encoded, false⟩, s)
        = (.ok (), (touched.setFile fd ⟨signer.encoded, true⟩, s)) := by
    refine run_orFail_ok .io ?_
    show (Except.ok (), ((touched.setFile fd ⟨signer.encoded, false⟩).setFile fd
      ⟨((touched.setFile fd ⟨signer.encoded, false⟩).file fd).bytes, true⟩, s)) = _
    rw [World.setFile_setFile, World.setFile_file_self]
  have hrename : (orFail .io (invoke (.rename (sibling signer.path ".tmp") signer.path)) :
      Fallible Unit).run.run (environment source pid)
        (touched.setFile fd ⟨signer.encoded, true⟩, s)
        = (.ok (), ((touched.setFile fd ⟨signer.encoded, true⟩).move (sibling signer.path ".tmp")
          signer.path fd, s)) := by
    have hdir' : (touched.setFile fd ⟨signer.encoded, true⟩).dir (sibling signer.path ".tmp")
      = some fd := hdir
    refine run_orFail_ok .io ?_
    exact congrArg (fun r => (r.1, (r.2, s)))
      (World.exec_ok_rename (E := SigningError) [] hdir' pid signer.path)
  unfold write writeRecord
  dsimp only
  rw [Prog.run_bindExcept, hopen]
  dsimp only
  rw [Prog.run_bindExcept, Prog.run_bindExcept, hwrite [] signer.header.toList]
  dsimp only
  rw [List.nil_append, hwrite signer.header.toList (OneTime.secrets signer.key)]
  dsimp only
  rw [Prog.run_bindExcept, show signer.header.toList ++ OneTime.secrets signer.key = signer.encoded
    from rfl, hsync]
  dsimp only
  rw [Prog.run_bindExcept, hrename]
  rfl

/-- A signer of the crate that is open on a path, with this record. -/
structure SigningKey.Serves (path : String) (pid : Pid) (r : Record K) (signer : SigningKey K)
    (w : World String Pid) : Prop where
  record : signer.record = r
  name : signer.path = path
  failed : signer.failed = false
  held : Held path pid signer.lockFile r.encoded w

variable (source)

/--
**`sign_with_rng` does what the signer without a file does**, and leaves its record in the file.
-/
theorem SigningKey.Serves.sign [LawfulOneTime K] {r : Record K} {signer : SigningKey K}
    (h : signer.Serves path pid r w) (hvalid : r.Valid) (message : Message) (s : σ) :
    ∃ result signer' w', (signer.signWithRng message callerFill).run (environment source pid) (w, s)
        = ((result, signer'), (w', (r.sign source message s).2.2)) ∧
      result.map SealedSignature.asBytes = (r.sign source message s).1.mapError Refusal.rust ∧
      signer'.Serves path pid (r.sign source message s).2.1 w' := by
  obtain ⟨rfl, hpath, hfailed, hheld⟩ := h
  unfold Record.sign
  by_cases hretry : signer.record.lastMessage = some message
  · rw [if_pos hretry]
    obtain ⟨sig, hsigns⟩ := hvalid.exists_signs hretry
    refine ⟨.ok sig, signer, w, ?_, ?_, rfl, hpath, hfailed, hheld⟩
    · rw [signer.signWithRng_retry hfailed hsigns]
      rfl
    · rw [hsigns.signature_eq]
      rfl
  · rw [if_neg hretry]
    by_cases hleaf : signer.record.nextLeaf ≥ OneTime.leaves K
    · rw [if_pos hleaf]
      refine ⟨.error .exhausted, signer, w, ?_, rfl, rfl, hpath, hfailed, hheld⟩
      have hretry' : signer.lastMessage ≠ some message := hretry
      have hleaf' : signer.nextLeaf ≥ OneTime.leaves K := hleaf
      unfold SigningKey.signWithRng
      rw [if_neg (Bool.eq_false_iff.mp hfailed), if_neg hretry', if_pos hleaf']
      rfl
    · rw [if_neg hleaf]
      have hlt : signer.nextLeaf < OneTime.leaves K := UInt32.not_le.mp hleaf
      have hsample : (sampleTrials signer.verifyingKey.parameter signer.nextLeaf message callerFill
          maxTrials).run.run (environment source pid) (w, s)
          = ((firstAccepted source (signer.record.accepts message) maxTrials s).1.mapError
              Refusal.rust,
            (w, (firstAccepted source (signer.record.accepts message) maxTrials s).2)) :=
        run_sampleTrials_beside _ _ _ message maxTrials s
      have haccepts : ∀ salt,
          (firstAccepted source (signer.record.accepts message) maxTrials s).1 = .ok salt →
            signer.record.accepts message salt = true := fun _ =>
        firstAccepted_accepts maxTrials s
      rcases hx : firstAccepted source (signer.record.accepts message) maxTrials s with
        ⟨sampled, s'⟩
      rw [hx] at hsample haccepts
      dsimp only at hsample haccepts ⊢
      have hrecord : (signer.advance message (sampled.mapError Refusal.rust)).record
          = signer.record.spend message sampled := by
        unfold SigningKey.advance SigningKey.record Record.spend
        cases sampled <;> rfl
      refine ⟨signer.outcome message (sampled.mapError Refusal.rust),
        signer.advance message (sampled.mapError Refusal.rust), _,
        run_signWithRng (environment source pid) hfailed hretry hlt callerFill hsample
          (SigningKey.run_write _), ?_, hrecord, hpath, hfailed, ?_⟩
      · cases sampled with
        | error refusal => rfl
        | ok salt =>
          obtain ⟨sig, hsig, hsigns⟩ := outcome_of_accepted hvalid hlt (haccepts salt rfl)
          rw [← hrecord]
          show (signer.outcome message (.ok salt)).map _ = .ok _
          rw [hsig]
          exact congrArg Except.ok hsigns.signature_eq.symm
      · have hreplaced := hheld.replace (signer.record.spend message sampled).encoded
        rw [← hrecord] at hreplaced ⊢
        have hpath' : (signer.advance message (sampled.mapError Refusal.rust)).path = path := hpath
        rw [hpath']
        exact hreplaced

variable (pid)

omit [Keccak] in
/-- The lock of a stored record is obtained. -/
theorem Stored.run_lock (h : Stored path b w) (s : σ) :
    (SolanaWinternitz.lock path).run.run (environment source pid) (w, s)
      = (.ok (w.inode (sibling path ".lock")), (w.acquire (sibling path ".lock") pid, s)) := by
  let fd := w.inode (sibling path ".lock")
  let touched := w.touch (sibling path ".lock")
  have hopen : (orFail .io (invoke (.openSidecar (sibling path ".lock"))) :
      Fallible Fd).run.run (environment source pid) (w, s) = (.ok fd, (touched, s)) := by
    refine run_orFail_ok .io ?_
    exact congrArg (fun r => (r.1, (r.2, s)))
      (World.exec_ok_openSidecar (E := SigningError) w [] pid (sibling path ".lock"))
  have htry : ∀ f, (orFail f (invoke (.tryLock fd)) : Fallible Unit).run.run
      (environment source pid) (touched, s) = (.ok (), (touched.lock fd pid, s)) := by
    intro f
    refine run_orFail_ok f ?_
    exact congrArg (fun r => (r.1, (r.2, s)))
      (World.exec_ok_tryLock (E := SigningError) [] h.unlocked pid)
  unfold SolanaWinternitz.lock
  rw [Prog.run_bindExcept, hopen]
  dsimp only
  rw [Prog.run_bindExcept, htry]
  rfl

/-- **`open` reads the record that is stored**, and fails with `Corrupt` if there is none. -/
theorem Stored.open_rust_eq (h : Stored path b w) (s : σ) :
    (SigningKey.openFile K path).run.run (environment source pid) (w, s)
      = ((decode K b).elim (.error .corrupt) fun r =>
            .ok (r.signer path (w.inode (sibling path ".lock"))),
          (w.acquire (sibling path ".lock") pid, s)) := by
  obtain ⟨f, hf, rfl⟩ := (h.acquire pid).content
  obtain ⟨i, hi, rfl⟩ := Option.map_eq_some_iff.mp hf
  let w' := w.acquire (sibling path ".lock") pid
  -- Once the lock is held, the calls only read.
  have hfind : ∀ f, (orFail f (invoke (.openRead path)) : Fallible Fd).run.run
      (environment source pid) (w', s) = (.ok i, (w', s)) := by
    intro f
    refine run_orFail_ok f ?_
    exact congrArg (fun r => (r.1, (r.2, s)))
      (World.exec_ok_openRead (E := SigningError) [] hi pid)
  have hsize : (orFail .io (invoke (.fileLen i)) : Fallible Nat).run.run
      (environment source pid) (w', s) = (.ok (w'.file i).bytes.length, (w', s)) :=
    run_orFail_ok .io rfl
  have hread : ∀ off n, off + n ≤ (w'.file i).bytes.length →
      (orFail .io (invoke (.readExact i off n)) : Fallible (Block n)).run.run
        (environment source pid) (w', s) = (.ok (slice (w'.file i).bytes off n), (w', s)) := by
    intro off n hle
    refine run_orFail_ok .io ?_
    exact congrArg (fun r => (r.1, (r.2, s)))
      (World.exec_ok_readExact (E := SigningError) [] hle pid)
  unfold SigningKey.openFile SigningKey.openLocked decode
  rw [Prog.run_bindExcept, h.run_lock pid source]
  dsimp only
  rw [Prog.run_bindExcept, hfind]
  dsimp only
  rw [Prog.run_bindExcept, hsize]
  dsimp only
  by_cases hlen : (w'.file i).bytes.length ≠ Layout.secrets + SigningKey.secretsLen K
  · rw [if_pos hlen, if_pos hlen]
    rfl
  · have hlen' := not_not.mp hlen
    rw [if_neg hlen, if_neg hlen, Prog.run_bindExcept,
      hread _ _ ((Nat.zero_add _).le.trans (hlen' ▸ Nat.le_add_right _ _))]
    dsimp only
    by_cases hrej : Header.rejected (slice (w'.file i).bytes 0 Layout.secrets)
        (OneTime.height K) (OneTime.leaves K) = true
    · rw [if_pos hrej, if_pos hrej]
      rfl
    · rw [if_neg hrej, if_neg hrej, Prog.run_bindExcept, hread _ _ hlen'.ge]
      dsimp only
      cases (OneTime.fromSecrets (K := K)
        (slice (w'.file i).bytes Layout.secrets (SigningKey.secretsLen K)).toList
        (Header.parameter (slice (w'.file i).bytes 0 Layout.secrets))).eval keccak256 with
      | error e => rfl
      | ok key => rfl

/-- **`open` of a stored record gives a signer with that record.** -/
theorem Stored.open_rust [LawfulOneTime K] {r : Record K} (h : Stored path r.encoded w)
    (hr : r.Valid) (s : σ) : ∃ signer w', (SigningKey.openFile K path).run.run
        (environment source pid) (w, s) = (.ok signer, (w', s)) ∧ signer.Serves path pid r w' := by
  refine ⟨_, _, ?_, (rfl : (r.signer path (w.inode (sibling path ".lock"))).record = r), rfl, rfl,
    h.acquire pid⟩
  rw [h.open_rust_eq pid source, hr.decode_encoded]
  rfl

end SolanaWinternitz
