import SolanaWinternitz.Properties.RustServes

/-!
# The TypeScript signer on a stored record

Every call is carried out, and the salts come from a source that the callback asks.

* `Stored.open_ts` — `open` of a stored record gives a signer with that record
* `ServesTs.sign` — **`signWithRng` does what the signer without a file does**, and leaves its
  record in the file
* `ServesTs.close` — `close` leaves the record stored
-/

namespace SolanaWinternitz.Ts

open Infra Infra.Os Infra.Js

variable {K Pid X σ α : Type} {path : String} {source : SharedSource σ}

/-! ## Calls -/

/-- Every call is carried out. -/
def Process.Fine (p : Process K Pid X) : Prop := p.outcomes = fun _ => .ok []

/-- One call. -/
theorem Process.Fine.invoke {p : Process K Pid X} (h : p.Fine) {c : Call String}
    {r : Answer Thrown c} {w : World String Pid}
    (hexec : p.world.exec p.pid (.ok [] : Outcome Thrown) c = (r, w)) :
    (Ts.invoke c : Action K Pid X (Answer Thrown c)) p = (.ok r, p.did c w) := by
  refine invoke_apply ?_
  rw [h]
  exact hexec

section

variable {p : Process K Pid X} (h : p.Fine) (fd : Fd)

include h

theorem writeFileSync_fine (data : Bytes) : writeFileSync fd data p
    = (.ok (), p.did (.writeAll fd data)
        (p.world.setFile fd ⟨(p.world.file fd).bytes ++ data, false⟩)) :=
  orThrow_apply system (h.invoke (c := .writeAll fd data) rfl)

theorem fsyncSync_fine : fsyncSync fd p
    = (.ok (), p.did (.syncAll fd) (p.world.setFile fd ⟨(p.world.file fd).bytes, true⟩)) :=
  orThrow_apply system (h.invoke (c := .syncAll fd) rfl)

theorem closeSync_fine : closeSync fd p = (.ok (), p.did (.close fd) p.world) :=
  orThrow_apply system (h.invoke (c := .close fd) rfl)

theorem release_fine : release fd p = (.ok (), p.did (.release fd) (p.world.release fd)) :=
  orThrow_apply system (h.invoke (c := .release fd) rfl)

theorem syncDir_fine : syncDir p = (.ok (), p.did .syncDir p.world.syncDir) :=
  orThrow_apply system (h.invoke (c := .syncDir) rfl)

theorem renameSync_fine {source : String} (hdir : p.world.dir source = some fd) (target : String) :
    renameSync source target p
      = (.ok (), p.did (.rename source target) (p.world.move source target fd)) :=
  orThrow_apply system (h.invoke (World.exec_ok_rename [] hdir p.pid target))

theorem openTruncate_fine (name : String) :
    (orThrow system (invoke (.openTruncate name)) : Action K Pid X Fd) p
      = (.ok (p.world.inode name), p.did (.openTruncate name)
          ((p.world.touch name).setFile (p.world.inode name) ⟨[], false⟩)) :=
  orThrow_apply system (h.invoke (World.exec_ok_openTruncate p.world [] p.pid name))

end

/-! ## Writing -/

section

variable [OneTime K] {p : Process K Pid X}

/-- **`#write` puts the header and the secrets of the signer behind its path.** -/
theorem SigningKey.write_apply {self : SigningKey K} {header : Bytes}
    (hheader : self.header = .ok header) (h : p.Fine) : ∃ calls, self.write p = (.ok (), { p with
      world := p.world.replace (sibling self.path ".tmp") self.path
        (header ++ OneTime.secrets self.key)
      calls := calls }) := by
  let tmp := sibling self.path ".tmp"
  let fd := p.world.inode tmp
  let file (b : Bytes) (synced : Bool) := (p.world.touch tmp).setFile fd ⟨b, synced⟩
  let record := header ++ OneTime.secrets self.key
  let p1 := p.did (.openTruncate tmp) (file [] false)
  let p2 := p1.did (.writeAll fd header) (file header false)
  let p3 := p2.did (.writeAll fd (OneTime.secrets self.key)) (file record false)
  let p4 := p3.did (.syncAll fd) (file record true)
  let p5 := p4.did (.close fd) (file record true)
  let p6 := p5.did (.rename tmp self.path) ((file record true).move tmp self.path fd)
  have hset : ∀ done b synced synced',
      (file done synced).setFile fd ⟨((file done synced).file fd).bytes ++ b, synced'⟩
        = file (done ++ b) synced' := by
    intro done b synced synced'
    rw [World.setFile_setFile, World.setFile_file_self]
  have hopen : (orThrow system (invoke (.openTruncate tmp)) : Action K Pid X Fd) p = (.ok fd, p1) :=
    openTruncate_fine h tmp
  have hfirst : writeFileSync fd header p1 = (.ok (), p2) :=
    (writeFileSync_fine (p := p1) h fd header).trans
      (congrArg (fun w => (Except.ok (), p1.did _ w)) (hset [] header false false))
  have hsecond : writeFileSync fd (OneTime.secrets self.key) p2 = (.ok (), p3) :=
    (writeFileSync_fine (p := p2) h fd _).trans
      (congrArg (fun w => (Except.ok (), p2.did _ w)) (hset header _ false false))
  have hsync : fsyncSync fd p3 = (.ok (), p4) := by
    have hlast := hset record [] false true
    rw [List.append_nil, List.append_nil] at hlast
    exact (fsyncSync_fine (p := p3) h fd).trans
      (congrArg (fun w => (Except.ok (), p3.did _ w)) hlast)
  have hrecord : self.writeRecord fd p1 = (.ok (), p3) := by
    unfold writeRecord
    rw [hheader]
    exact (Js.bind_ok hfirst).trans hsecond
  have hbody : (do self.writeRecord fd; fsyncSync fd) p1 = (.ok (), p4) :=
    (Js.bind_ok hrecord).trans hsync
  have hrename : renameSync tmp self.path p5 = (.ok (), p6) :=
    renameSync_fine (p := p5) h fd (World.touch_dir_self p.world tmp) self.path
  refine ⟨p6.calls ++ [.syncDir], ?_⟩
  unfold write
  exact (Js.bind_ok hopen).trans ((Js.bind_ok (Js.onExit_ok hbody
    (closeSync_fine (p := p4) h fd))).trans ((Js.bind_ok hrename).trans
      (syncDir_fine (p := p6) h)))

end

/-! ## Sampling -/

/-- The source, as a callback that keeps its state. -/
def sharedFill (source : SharedSource σ) : FillRandom (Process K Pid σ) := fun n p =>
  ((source n p.captured).1.mapError Failure.ts, { p with captured := (source n p.captured).2 })

theorem rethrow_refusal (code : SigningErrorCode) (refusal : Refusal) :
    rethrow code refusal.ts = refusal.ts := by
  cases refusal <;> rfl

variable [Keccak]

/-- The loop of `sampleSalt`. -/
theorem sampleTrials_shared (parameter : Parameter) (leaf : UInt32) (message : Message)
    (trials : Nat) : ∀ p : Process K Pid σ,
    sampleTrials parameter.toList leaf.toNat message.toList (sharedFill source) trials p
      = (((firstAccepted source (fun salt => ((SolanaWinternitz.encode salt parameter leaf
            message).eval keccak256).isSome) trials p.captured).1.mapError Refusal.ts).map
              List.Vector.toList,
          { p with captured := (firstAccepted source (fun salt => ((SolanaWinternitz.encode salt
            parameter leaf message).eval keccak256).isSome) trials p.captured).2 }) := by
  induction trials with
  | zero => exact fun _ => rfl
  | succ trials ih =>
    intro p
    rcases hr : source saltLength p.captured with ⟨r, s'⟩
    have hfill : (sharedFill source : FillRandom (Process K Pid σ)) saltLength p
        = (r.mapError Failure.ts, { p with captured := s' }) := by
      unfold sharedFill
      rw [hr]
    rw [sampleTrials, firstAccepted, hr]
    cases r with
    | error failure => exact Js.bind_error (Js.onThrow_error hfill)
    | ok salt =>
      rw [Js.bind_ok (Js.onThrow_ok hfill), Ts.encode_eq, Option.isSome_map]
      dsimp only
      by_cases hx : ((SolanaWinternitz.encode salt parameter leaf message).eval
          keccak256).isSome = true
      · rw [if_pos hx, if_pos hx]
        rfl
      · rw [if_neg hx, if_neg hx]
        exact ih { p with captured := s' }

/-! ## Signing -/

variable {K' : Type} [SolanaWinternitz.OneTime K] [OneTime K'] [SameOneTime K K'] {r : Record K}

/-- The salt of an attempt. -/
theorem trySalt_shared {p : Process K' Pid σ} (h : Corresponds r p.self) (message : Message)
    {sampled : Except Refusal Salt} {s : σ}
    (hx : firstAccepted source (r.accepts message) maxTrials p.captured = (sampled, s)) :
    trySalt (sharedFill source) p.self.nextLeaf message.toList p
      = (.ok ((sampled.mapError Refusal.ts).map List.Vector.toList), { p with captured := s }) := by
  obtain ⟨key, hkey, hparameter⟩ := h.verifyingKey
  have hverifying : verifyingKey p = (.ok key, p) := by
    show ofExcept Thrown.crypto (OneTime.verifyingKey p.self.key) p = _
    rw [hkey]
    rfl
  have hsample : sampleTrials (parameterOf r.key).toList r.nextLeaf.toNat message.toList
      (sharedFill source) maxTrials p
      = (((firstAccepted source (r.accepts message) maxTrials p.captured).1.mapError
            Refusal.ts).map List.Vector.toList,
          { p with captured := (firstAccepted source (r.accepts message) maxTrials
            p.captured).2 }) :=
    sampleTrials_shared (parameterOf r.key) r.nextLeaf message maxTrials p
  rw [← hparameter, ← h.nextLeaf, hx] at hsample
  unfold trySalt
  cases sampled with
  | error refusal =>
    refine (Js.onThrow_error ((Js.bind_ok hverifying).trans (Js.bind_error hsample))).trans ?_
    rw [rethrow_refusal]
    rfl
  | ok salt => exact Js.onThrow_ok ((Js.bind_ok hverifying).trans (Js.bind_ok hsample))

end SolanaWinternitz.Ts

namespace SolanaWinternitz

open Infra Infra.Os Infra.Js

variable [Keccak] {K K' Pid σ : Type} [OneTime K] [Ts.OneTime K'] {r : Record K}
  {ts : Ts.SigningKey K'}

/-! ## Signers that stand for records -/

/-- A signer that samples. -/
theorem Corresponds.started (h : Corresponds r ts) :
    Corresponds r { ts with sampling := true } := ⟨h.key, h.nextLeaf, h.lastMessage, h.lastSalt⟩

/-- A signer after an attempt stands for the record after the attempt. -/
theorem Corresponds.spent (h : Corresponds r ts) (hlt : r.nextLeaf < OneTime.leaves K)
    (message : Message) (sampled : Except Refusal Salt) : Corresponds (r.spend message sampled)
      (ts.spent message.toList ((sampled.mapError Refusal.ts).map List.Vector.toList)) where
  key := h.key
  nextLeaf := by
    show ts.nextLeaf + 1 = ((r.nextLeaf + 1).toNat : Int)
    rw [h.nextLeaf, u32_toNat_succ hlt]
    rfl
  lastMessage := by cases sampled <;> rfl
  lastSalt := by cases sampled <;> rfl

/-- The message that a signer answers without a salt. -/
theorem Corresponds.remembers (h : Corresponds r ts) (message : Message) :
    ts.lastMessage.any (Ts.equal message.toList) = true ↔ r.lastMessage = some message := by
  rw [Ts.remembers_iff, h.lastMessage]
  show r.lastMessage.map List.Vector.toList = (some message).map List.Vector.toList ↔ _
  exact (Option.map_injective List.Vector.toList_injective).eq_iff

variable [SameOneTime K K']

/-- What the TypeScript package writes is the encoding of the record. -/
theorem Corresponds.written (h : Corresponds r ts) : ∃ header, ts.header = .ok header ∧
    header ++ Ts.OneTime.secrets ts.key = r.encoded := by
  have hsigner : Corresponds (r.signer "" 0).record ts := h
  obtain ⟨secrets, parameter, htwins⟩ := h.key
  refine ⟨_, hsigner.header, ?_⟩
  rw [SameOneTime.secrets htwins]
  rfl

/-- The signature of the last message, as the TypeScript package makes it. -/
theorem Corresponds.sign (h : Corresponds r ts) {message : Message} {sig : OneTime.Signature K}
    (hsigns : r.Signs message sig) : ∃ sig', Ts.OneTime.signAtWithSalt ts.key
        (.integer (r.nextLeaf - 1).toNat) message.toList ts.lastSalt = .ok sig' ∧
      Ts.OneTime.toBytes sig' = r.signature message := by
  obtain ⟨secrets, parameter, htwins⟩ := h.key
  have hsame := SameOneTime.sign htwins (r.nextLeaf - 1) message r.lastSalt
  rw [hsigns.2, ← h.lastSalt] at hsame
  rw [hsigns.signature_eq]
  cases hts : Ts.OneTime.signAtWithSalt ts.key (.integer (r.nextLeaf - 1).toNat) message.toList
      ts.lastSalt with
  | error e =>
    rw [hts] at hsame
    cases hsame
  | ok sig' =>
    rw [hts] at hsame
    exact ⟨sig', rfl, Option.some.inj hsame⟩

/-! ## Signing -/

/-- Both languages run out of leaves at the same time. -/
theorem Corresponds.leaves_le (h : Corresponds r ts) :
    ts.nextLeaf ≥ Ts.OneTime.leaves K' ↔ r.nextLeaf ≥ OneTime.leaves K := by
  have hnat : r.nextLeaf ≥ OneTime.leaves K ↔ (OneTime.leaves K).toNat ≤ r.nextLeaf.toNat :=
    UInt32.le_iff_toNat_le
  rw [hnat, h.nextLeaf, SameOneTime.leaves (K := K)]
  omega

section

variable {p : Ts.Process K' Pid σ} {message : Message} {m : Ts.Ref}

/-- A new message is attempted. -/
theorem Corresponds.signWithRng_attempt (h : Corresponds r p.self) (hopen : p.self.closed = false)
    (hidle : p.self.sampling = false) (hm : p.buffers m = message.toList)
    (hretry : r.lastMessage ≠ some message) (hlt : r.nextLeaf < OneTime.leaves K)
    (fill : Ts.FillRandom (Ts.Process K' Pid σ)) :
    Ts.signWithRng m fill p = Ts.attempt message.toList fill p := by
  rw [Ts.signWithRng_open hopen hidle hm, if_neg (mt (h.remembers message).mp hretry),
    if_neg (mt h.leaves_le.mp (UInt32.not_le.mpr hlt))]

/-- An attempt, once its salt was sampled. -/
theorem Corresponds.attempt_sampled (h : Corresponds r p.self) (source : SharedSource σ)
    (hidle : p.self.sampling = false) (message : Message) {sampled : Except Refusal Salt} {s : σ}
    (hx : firstAccepted source (r.accepts message) maxTrials p.captured = (sampled, s)) :
    Ts.attempt message.toList (Ts.sharedFill source) p = (do
        Ts.writeOrClose (p.self.spent message.toList
          ((sampled.mapError Refusal.ts).map List.Vector.toList))
        Ts.released (p.self.spent message.toList
            ((sampled.mapError Refusal.ts).map List.Vector.toList))
          p.self.nextLeaf message.toList ((sampled.mapError Refusal.ts).map List.Vector.toList))
      { p with
        self := p.self.spent message.toList ((sampled.mapError Refusal.ts).map List.Vector.toList)
        captured := s } :=
  Ts.attempt_eq hidle (Ts.trySalt_shared
    (p := { p with self := { p.self with sampling := true } }) h.started message hx) rfl

end

/-- A signer of the TypeScript package that is open on a path, with this record. -/
structure ServesTs (path : String) (r : Record K) (p : Ts.Process K' Pid σ) : Prop where
  record : Corresponds r p.self
  name : p.self.path = path
  opened : p.self.closed = false
  idle : p.self.sampling = false
  fine : p.Fine
  held : Held path p.pid p.self.lock r.encoded p.world

variable [LawfulOneTime K] {p : Ts.Process K' Pid σ} {path : String} (source : SharedSource σ)

/-- An attempt spends a leaf of the record. -/
theorem ServesTs.attempt (h : ServesTs path r p) (hr : r.Valid)
    (hlt : r.nextLeaf < OneTime.leaves K)
    (message : Message) {sampled : Except Refusal Salt} {s : σ}
    (hx : firstAccepted source (r.accepts message) maxTrials p.captured = (sampled, s)) :
    ∃ result p', Ts.attempt message.toList (Ts.sharedFill source) p = (result, p') ∧
      result.map Ts.OneTime.toBytes
        = (sampled.map fun _ => (r.spend message sampled).signature message).mapError Refusal.ts ∧
      ServesTs path (r.spend message sampled) p' ∧ p'.captured = s ∧ p'.pid = p.pid := by
  have hvalid : (r.spend message (firstAccepted source (r.accepts message) maxTrials
      p.captured).1).Valid := hr.spend hlt message p.captured
  rw [hx] at hvalid
  let sampled' := (sampled.mapError Refusal.ts).map List.Vector.toList
  let ts' := p.self.spent message.toList sampled'
  have hcorr : Corresponds (r.spend message sampled) ts' := h.record.spent hlt message sampled
  obtain ⟨header, hheader, hwritten⟩ := hcorr.written
  -- The salt is sampled, and the record is written.
  let q : Ts.Process K' Pid σ := { p with self := ts', captured := s }
  have hattempt : Ts.attempt message.toList (Ts.sharedFill source) p = (do
      Ts.writeOrClose ts'
      Ts.released ts' p.self.nextLeaf message.toList sampled') q :=
    h.record.attempt_sampled source h.idle message hx
  obtain ⟨calls, hwrite⟩ := Ts.SigningKey.write_apply (p := q) hheader h.fine
  rw [hwritten] at hwrite
  let q' : Ts.Process K' Pid σ := { q with
    world := p.world.replace (sibling ts'.path ".tmp") ts'.path (r.spend message sampled).encoded
    calls := calls }
  have hname : ts'.path = path := h.name
  have hserves : ServesTs path (r.spend message sampled) q' := by
    refine ⟨hcorr, h.name, h.opened, h.idle, h.fine, ?_⟩
    show Held path p.pid p.self.lock _ (p.world.replace (sibling ts'.path ".tmp") ts'.path _)
    rw [hname]
    exact h.held.replace _
  have hreleased : Ts.attempt message.toList (Ts.sharedFill source) p
      = Ts.released ts' p.self.nextLeaf message.toList sampled' q' :=
    hattempt.trans (Js.bind_ok (Js.onThrow_ok hwrite))
  cases sampled with
  | error refusal => exact ⟨_, q', hreleased, rfl, hserves, rfl, rfl⟩
  | ok salt =>
    have hlast : (r.spend message (.ok salt)).lastMessage = some message := rfl
    obtain ⟨sig, hsigns⟩ := hvalid.exists_signs hlast
    obtain ⟨sig', hsig', hbytes⟩ := hcorr.sign hsigns
    have hleaf : (r.spend message (.ok salt)).nextLeaf - 1 = r.nextLeaf :=
      UInt32.add_sub_cancel r.nextLeaf 1
    rw [hleaf, ← h.record.nextLeaf] at hsig'
    refine ⟨.ok sig', q', hreleased.trans ?_, congrArg Except.ok hbytes, hserves, rfl, rfl⟩
    show ((Ts.OneTime.signAtWithSalt ts'.key _ message.toList ts'.lastSalt).mapError _, q') = _
    rw [hsig']
    rfl

/--
**`signWithRng` does what the signer without a file does**, and leaves its record in the file.
-/
theorem ServesTs.sign (h : ServesTs path r p) (hr : r.Valid) {message : Message} {m : Ts.Ref}
    (hm : p.buffers m = message.toList) :
    ∃ result p', Ts.signWithRng m (Ts.sharedFill source) p = (result, p') ∧
      result.map Ts.OneTime.toBytes = (r.sign source message p.captured).1.mapError Refusal.ts ∧
      ServesTs path (r.sign source message p.captured).2.1 p' ∧
      p'.captured = (r.sign source message p.captured).2.2 ∧ p'.pid = p.pid := by
  unfold Record.sign
  by_cases hretry : r.lastMessage = some message
  · rw [if_pos hretry]
    obtain ⟨sig, hsigns⟩ := hr.exists_signs hretry
    obtain ⟨sig', hsig', hbytes⟩ := h.record.sign hsigns
    have hne := (hr.spent message hretry).1
    have hleaf : p.self.nextLeaf - 1 = ((r.nextLeaf - 1).toNat : Nat) := by
      have hpos : r.nextLeaf.toNat ≠ 0 := fun h0 => hne (UInt32.toNat_inj.mp h0)
      rw [h.record.nextLeaf, u32_toNat_pred hne]
      omega
    refine ⟨.ok sig', p, ?_, congrArg Except.ok hbytes, h, rfl, rfl⟩
    rw [Ts.signWithRng_open h.opened h.idle hm, if_pos ((h.record.remembers message).mpr hretry),
      hleaf, hsig']
    rfl
  · rw [if_neg hretry]
    by_cases hleaf : r.nextLeaf ≥ OneTime.leaves K
    · rw [if_pos hleaf]
      refine ⟨.error Refusal.exhausted.ts, p, ?_, rfl, h, rfl, rfl⟩
      rw [Ts.signWithRng_open h.opened h.idle hm,
        if_neg (mt (h.record.remembers message).mp hretry), if_pos (h.record.leaves_le.mpr hleaf)]
      rfl
    · rw [if_neg hleaf]
      have hlt := UInt32.not_le.mp hleaf
      obtain ⟨result, p', hrun, hresult, hserves, hs, hpid⟩ := h.attempt source hr hlt message rfl
      refine ⟨result, p', ?_, hresult, hserves, hs, hpid⟩
      rw [h.record.signWithRng_attempt h.opened h.idle hm hretry hlt, hrun]

/-! ## Opening and closing -/

omit [Keccak] [OneTime K] [Ts.OneTime K'] [SameOneTime K K'] [LawfulOneTime K] in
/-- The lock of a stored record is obtained. -/
theorem Stored.acquire_ts {b : Bytes} (h : Stored path b p.world) (hp : p.Fine) :
    ∃ calls, Ts.acquire path p = (.ok (p.world.inode (sibling path ".lock")), { p with
      world := p.world.acquire (sibling path ".lock") p.pid
      calls := calls }) := by
  let fd := p.world.inode (sibling path ".lock")
  let p1 := p.did (.openSidecar (sibling path ".lock")) (p.world.touch (sibling path ".lock"))
  let p2 := p1.did (.tryLock fd) (p1.world.lock fd p.pid)
  have hopen : (Ts.orThrow Ts.system (Ts.invoke (.openSidecar (sibling path ".lock"))) :
      Ts.Action K' Pid σ Fd) p = (.ok fd, p1) :=
    Ts.orThrow_apply Ts.system (hp.invoke (World.exec_ok_openSidecar p.world [] p.pid _))
  have hflock : Ts.flock fd p1 = (.ok true, p2) :=
    Js.bind_ok (Ts.Process.Fine.invoke (p := p1) (c := .tryLock fd) hp
      (World.exec_ok_tryLock [] h.unlocked p.pid))
  refine ⟨p2.calls, ?_⟩
  unfold Ts.acquire
  exact (Js.bind_ok (Js.onThrow_ok hopen)).trans (Js.onThrow_ok (Js.bind_ok hflock))

omit [Keccak] [OneTime K] [Ts.OneTime K'] [SameOneTime K K'] [LawfulOneTime K] in
/-- A file is read as a whole. -/
theorem readFileSync_fine {f : File} (hf : p.world.content path = some f) (hp : p.Fine) :
    ∃ calls, Ts.readFileSync path p = (.ok f.bytes, { p with calls := calls }) := by
  obtain ⟨i, hi, rfl⟩ := Option.map_eq_some_iff.mp hf
  let p1 := p.did (.openRead path) p.world
  let p2 := p1.did (.fileLen i) p.world
  let p3 := p2.did (.readExact i 0 (p.world.file i).bytes.length) p.world
  let p4 := p3.did (.close i) p.world
  have hopen : (Ts.orThrow Ts.system (Ts.invoke (.openRead path)) : Ts.Action K' Pid σ Fd) p
      = (.ok i, p1) :=
    Ts.orThrow_apply Ts.system (hp.invoke (World.exec_ok_openRead [] hi p.pid))
  have hlen : (Ts.orThrow Ts.system (Ts.invoke (.fileLen i)) : Ts.Action K' Pid σ Nat) p1
      = (.ok (p.world.file i).bytes.length, p2) :=
    Ts.orThrow_apply Ts.system (Ts.Process.Fine.invoke (p := p1) (c := .fileLen i) hp rfl)
  have hread : (Ts.orThrow Ts.system
      (Ts.invoke (.readExact i 0 (p.world.file i).bytes.length)) :
        Ts.Action K' Pid σ (Block (p.world.file i).bytes.length)) p2
      = (.ok (slice (p.world.file i).bytes 0 (p.world.file i).bytes.length), p3) :=
    Ts.orThrow_apply Ts.system (Ts.Process.Fine.invoke (p := p2) hp
      (World.exec_ok_readExact [] (Nat.zero_add _).le p.pid))
  have hall : (slice (p.world.file i).bytes 0 (p.world.file i).bytes.length).toList
      = (p.world.file i).bytes := by
    rw [slice_toList (Nat.zero_add _).le, List.drop_zero, List.take_length]
  refine ⟨p4.calls, ?_⟩
  unfold Ts.readFileSync
  refine (Js.bind_ok hopen).trans (Js.onExit_ok ((Js.bind_ok hlen).trans ((Js.bind_ok hread).trans
    ?_)) (Ts.closeSync_fine (p := p3) hp i))
  rw [hall]
  rfl

omit [SameOneTime K K'] [OneTime K] [LawfulOneTime K] in
/-- `open` locks the key file and reads all of it; what it returns depends on these bytes alone. -/
theorem Stored.read_ts {b : Bytes} (h : Stored path b p.world) (hp : p.Fine) :
    ∃ calls, Ts.SigningKey.openFile path p = Js.onThrow
        (Js.ofExcept id (Ts.SigningKey.ofRecord path (p.world.inode (sibling path ".lock")) b))
        (fun e => do
          Ts.release (p.world.inode (sibling path ".lock"))
          Js.raise (Ts.rethrow .io e))
        { p with world := p.world.acquire (sibling path ".lock") p.pid, calls := calls } := by
  obtain ⟨f, hf, hbytes⟩ := (h.acquire p.pid).content
  obtain ⟨calls, hacquire⟩ := h.acquire_ts hp
  obtain ⟨calls', hread⟩ := readFileSync_fine (p := { p with
    world := p.world.acquire (sibling path ".lock") p.pid
    calls := calls }) hf hp
  rw [hbytes] at hread
  refine ⟨calls', ?_⟩
  unfold Ts.SigningKey.openFile Ts.SigningKey.openLocked
  exact (Js.bind_ok hacquire).trans (Js.onThrow_bind_ok (Js.onThrow_ok hread))

/-- **`open` of a stored record gives a signer with that record.** -/
theorem Stored.open_ts (h : Stored path r.encoded p.world) (hr : r.Valid) (hp : p.Fine) :
    ∃ ts p', Ts.SigningKey.openFile path p = (.ok ts, p') ∧
      ServesTs path r { p' with self := ts } ∧ p'.captured = p.captured ∧
      p'.world = p.world.acquire (sibling path ".lock") p.pid := by
  obtain ⟨calls, hopen⟩ := h.read_ts hp
  obtain ⟨ts, hts, hcorr, hpath, hlock, hclosed, hsampling⟩ : ∃ ts : Ts.SigningKey K', _ :=
    ofRecord_of_some hr.decode_encoded path (p.world.inode (sibling path ".lock"))
  have hheld := h.acquire p.pid
  rw [← hlock] at hheld
  rw [hts] at hopen
  exact ⟨ts, _, hopen, ⟨hcorr, hpath, hclosed, hsampling, hp, hheld⟩, rfl, rfl⟩

/-- `open` throws on a file in which the crate finds no record, and releases the lock. -/
theorem Stored.open_ts_none {b : Bytes} (h : Stored path b p.world) (hb : decode K b = none)
    (hp : p.Fine) : ∃ p', Ts.SigningKey.openFile path p
        = (.error (.of .corrupt "the key file is not a record of this instance"), p') ∧
      p'.world = (p.world.acquire (sibling path ".lock") p.pid).release
        (p.world.inode (sibling path ".lock")) := by
  obtain ⟨calls, hopen⟩ := h.read_ts hp
  rw [ofRecord_of_none hb] at hopen
  exact ⟨_, hopen.trans (Js.bind_ok (Ts.release_fine (p := { p with
    world := p.world.acquire (sibling path ".lock") p.pid
    calls := calls }) hp _)), rfl⟩

omit [SameOneTime K K'] [LawfulOneTime K] in
/-- **`close` leaves the record stored.** -/
theorem ServesTs.close (h : ServesTs path r p) : ∃ p', Ts.close p = (.ok (), p') ∧
    Stored path r.encoded p'.world ∧ p'.captured = p.captured := by
  let q : Ts.Process K' Pid σ := { p with self := { p.self with closed := true } }
  refine ⟨q.did (.release p.self.lock) (p.world.release p.self.lock), ?_, h.held.release, rfl⟩
  unfold Ts.close Ts.assignSelf
  rw [Js.look_bind, if_neg (Bool.eq_false_iff.mp h.idle), if_neg (Bool.eq_false_iff.mp h.opened),
    Js.assign_bind]
  exact Ts.release_fine (p := q) h.fine p.self.lock

end SolanaWinternitz
