import SolanaWinternitz.Infra.Record
import SolanaWinternitz.Properties.KeyFile

/-!
# What a signer does to its files

The functions of a signer that holds the lock, call by call. Whatever the calls answer, each of them
moves the directory along `Frame`.

* `always_openLocked` — `open` changes nothing and returns the visible record
* `ensures_createLocked` — `create` returns a signer whose file is durable
* `ensures_write` — `write` puts the new record behind the path, or fails
* `ensures_signWithRng` — **a signature is returned only for the record that is visible**; a fresh
  one only when the file that holds the record is durable
-/

namespace SolanaWinternitz

open Infra Infra.Os

/-- The directory as a client sees it, and whether every call so far was carried out. -/
abbrev View (Pid : Type) := World String Pid × Bool

section

variable {Pid : Type} [Keccak] (K : Type) [OneTime K]

/-- What one call of the client that holds the lock may do. -/
structure Frame (path : String) (w w' : World String Pid) : Prop where
  ok : w'.Ok
  apart : w'.Apart (sibling path ".tmp") path
  locks : w'.locks = w.locks
  lockFile : w'.dir (sibling path ".lock") = w.dir (sibling path ".lock")
  evolves : World.Evolves (decode K) Record.After path w w'

end

/-- A client makes a call, and the environment decides about it within `A`. -/
def Runs {Pid : Type} (A : Outcome SigningError → Prop) (pid : Pid) (c : Call String)
    (s : View Pid) (r : Answer SigningError c) (s' : View Pid) : Prop :=
  ∃ o, A o ∧ s.1.exec pid o c = (r, s'.1) ∧ s'.2 = (s.2 && o.isOk)

theorem sibling_ne {path suffix : String} (h : suffix ≠ "") : sibling path suffix ≠ path := by
  intro he
  have hl := congrArg String.length he
  rw [sibling, String.length_append] at hl
  exact h (String.length_eq_zero_iff.mp (by omega))

theorem tmp_ne_lock (path : String) : sibling path ".tmp" ≠ sibling path ".lock" := by
  intro he
  exact absurd (String.append_right_inj path |>.mp he) (by decide)

variable {Pid α β : Type} [Keccak] {K : Type} [OneTime K] {path : String} {pid : Pid}
  {w w' : World String Pid} {A : Outcome SigningError → Prop} {i : Nat}

theorem Frame.refl (hw : w.Ok) (ha : w.Apart (sibling path ".tmp") path) : Frame K path w w :=
  ⟨hw, ha, rfl, rfl, .refl w⟩

theorem Frame.of_still (h : World.Still (sibling path ".tmp") path w w') : Frame K path w w' :=
  ⟨h.ok, h.apart, h.locks, h.dir _ (tmp_ne_lock path).symm, h.evolves⟩

/-- Writing to the file behind the path, as long as it holds no record. -/
theorem Frame.setFile (hw : w.Ok) (ha : w.Apart (sibling path ".tmp") path)
    (hnone : w.visible (decode K) path = none) (i : Nat) (f : File) :
    Frame K path w (w.setFile i f) :=
  ⟨hw.setFile i f, ha, rfl, rfl, .fresh hnone⟩

theorem Frame.syncDir (hw : w.Ok) (ha : w.Apart (sibling path ".tmp") path) :
    Frame K path w w.syncDir :=
  ⟨hw.syncDir, ha.syncDir, rfl, rfl, World.evolves_syncDir w⟩

theorem Frame.create (hw : w.Ok) (ha : w.Apart (sibling path ".tmp") path)
    (hnone : w.dir path = none) : Frame K path w (w.create path) :=
  ⟨hw.create path, ha.create hw (sibling_ne (by decide)) path, rfl,
    Function.update_of_ne (sibling_ne (by decide)) _ _,
    .fresh (by rw [World.visible, World.content, hnone]; rfl)⟩

theorem Frame.harden (hw : w.Ok) (ha : w.Apart (sibling path ".tmp") path)
    (hi : w.dir path = some i) : Frame K path w (w.setFile i ⟨(w.file i).bytes, true⟩) :=
  ⟨hw.setFile i _, ha, rfl, rfl, World.evolves_harden hi⟩

/-! ## Specifications -/

/-- Whatever the calls of a program answer, it moves the directory along `Frame` and ends in `Q`. -/
def Ensures (K : Type) [OneTime K] (path : String) (A : Outcome SigningError → Prop) (pid : Pid)
    (p : Action α) (w : World String Pid) (Q : α → World String Pid → Prop) : Prop :=
  ∀ clean, p.Always (Runs A pid) (fun s s' => Frame K path s.1 s'.1) (fun r s => Q r s.1) (w, clean)

theorem ensures_ret {a : α} {Q : α → World String Pid → Prop} (h : Q a w) :
    Ensures K path A pid (.ret a) w Q := fun _ => h

theorem ensures_bind {p : Action α} {f : α → Action β} {Q : β → World String Pid → Prop}
    (h : Ensures K path A pid p w fun a w' => Ensures K path A pid (f a) w' Q) :
    Ensures K path A pid (p >>= f) w Q := fun clean =>
  Prog.always_bind f ((h clean).imp (fun _ _ hG => hG) fun _ s hs => hs s.2)

theorem ensures_bindExcept {p : Fallible α} {f : α → Fallible β}
    {Q : Except SigningError β → World String Pid → Prop}
    (h : Ensures K path A pid p.run w fun r w' => match r with
      | .ok a => Ensures K path A pid (f a).run w' Q
      | .error e => Q (.error e) w') : Ensures K path A pid (p >>= f).run w Q := fun clean =>
  Prog.always_bindExcept ((h clean).imp (fun _ _ hG => hG) fun r s hs => by
    cases r with
    | ok a => exact hs s.2
    | error e => exact hs)

theorem Ensures.imp {p : Action α} {Q Q' : α → World String Pid → Prop}
    (h : Ensures K path A pid p w Q) (hQ : ∀ a w', Q a w' → Q' a w') :
    Ensures K path A pid p w Q' := fun clean =>
  (h clean).imp (fun _ _ hG => hG) fun a s hs => hQ a s.1 hs

omit [Keccak] in
theorem always_orFail {S ε : Type} {R : (c : Call String) → S → Answer SigningError c → S → Prop}
    {G : S → S → Prop} {p : Action (Except ε α)} {f : ε → SigningError}
    {Q : Except SigningError α → S → Prop} {s : S}
    (h : p.Always R G (fun r s' => Q (r.mapError f) s') s) : (orFail f p).run.Always R G Q s :=
  Prog.always_bind _ h

theorem ensures_orFail {ε : Type} {p : Action (Except ε α)} {f : ε → SigningError}
    {Q : Except SigningError α → World String Pid → Prop}
    (h : Ensures K path A pid p w fun r w' => Q (r.mapError f) w') :
    Ensures K path A pid (orFail f p).run w Q := fun clean => always_orFail (h clean)

theorem ensures_invoke {c : Call String} {Q : Answer SigningError c → World String Pid → Prop}
    (h : ∀ o r w', A o → w.exec pid o c = (r, w') → Frame K path w w' ∧ Q r w') :
    Ensures K path A pid (invoke c) w Q := by
  rintro clean r ⟨w', clean'⟩ ⟨o, ho, hexec, -⟩
  exact h o r w' ho hexec

/-! ## Random bytes -/

/-- A source of random bytes that leaves the files alone and fails as `A` allows. -/
def Source (K : Type) [OneTime K] (path : String) (A : Outcome SigningError → Prop) (pid : Pid)
    (w : World String Pid) (fill : FillSource) : Prop :=
  ∀ n, Ensures K path A pid (fill n).run w fun r w' =>
    w' = w ∧ (r = .error .corrupt → A (.error .corrupt))

section

variable (hw : w.Ok) (ha : w.Apart (sibling path ".tmp") path)
include hw ha

theorem source_osFill : Source K path A pid w osFill := by
  refine fun n => ensures_orFail (ensures_invoke fun o r w' _ h => ?_)
  have hw' : w' = w := by
    cases o <;> exact (congrArg Prod.snd h).symm
  subst hw'
  refine ⟨.refl hw ha, rfl, fun he => ?_⟩
  change Except Nat (Block n) at r
  cases r <;> cases he

theorem source_callerFill : Source K path A pid w callerFill := by
  refine fun n => ensures_orFail (ensures_invoke fun o r w' ho h => ?_)
  change Except SigningError (Block n) at r
  have hw' : w' = w := by
    cases o <;> exact (congrArg Prod.snd h).symm
  subst hw'
  refine ⟨.refl hw ha, rfl, fun he => ?_⟩
  cases r with
  | ok data => cases he
  | error e =>
    obtain rfl : e = .corrupt := Except.error.inj he
    cases o with
    | error e' =>
      obtain ⟨he', -⟩ := Prod.mk.inj h
      cases he'
      exact ho
    | ok data => cases (Prod.mk.inj h).1
    | fail kind late left => cases (Prod.mk.inj h).1
    | osError code => cases (Prod.mk.inj h).1

end

/-- A salt that `sample_salt` returns is accepted, and it fails as its source does. -/
theorem ensures_sampleTrials {fill : FillSource} (hfill : Source K path A pid w fill)
    (parameter : Parameter) (leaf : UInt32) (message : Message) : ∀ trials : Nat,
    Ensures K path A pid (sampleTrials parameter leaf message fill trials).run w fun r w' =>
      w' = w ∧ (r = .error .corrupt → A (.error .corrupt)) ∧
        ∀ salt, r = .ok salt → ((encode salt parameter leaf message).eval keccak256).isSome
  | 0 => by
    refine ensures_ret ⟨rfl, fun he => ?_, fun salt he => ?_⟩ <;> cases he
  | trials + 1 => by
    refine ensures_bindExcept ((hfill saltLength).imp fun r w' hr => ?_)
    obtain ⟨hw', hcorrupt⟩ := hr
    subst w'
    cases r with
    | error e =>
      refine ⟨rfl, fun he => hcorrupt (by cases he; rfl), fun salt he => ?_⟩
      cases he
    | ok salt =>
      by_cases hx : ((encode salt parameter leaf message).eval keccak256).isSome = true
      · simp only [if_pos hx]
        refine ensures_ret ⟨rfl, fun he => ?_, fun salt' he => ?_⟩
        · cases he
        · cases he
          exact hx
      · simp only [if_neg hx]
        exact ensures_sampleTrials hfill parameter leaf message trials

/-! ## `open` -/

section

-- What the caller asks of every call allows one that changes nothing.
variable {G : View Pid → View Pid → Prop} (hG : ∀ c c', G (w, c) (w, c'))
include hG

omit [Keccak] in
/-- A call that reads: it gives its answer, or it was not carried out. -/
theorem always_read {c : Call String} {Q : Answer SigningError c → View Pid → Prop} {clean : Bool}
    {d : Answer SigningError c} {fails : Answer SigningError c → Prop}
    (hexec : ∀ o r w', w.exec pid o c = (r, w') → w' = w ∧ (r = d ∨ (o.isOk = false ∧ fails r)))
    (hd : ∀ clean', Q d (w, clean')) (hfail : ∀ r, fails r → Q r (w, false)) :
    (invoke c).Always (Runs A pid) G Q (w, clean) := by
  rintro r ⟨w', clean'⟩ ⟨o, -, h, hclean⟩
  obtain ⟨hw', hr⟩ := hexec o r w' h
  subst w'
  refine ⟨hG clean clean', ?_⟩
  rcases hr with rfl | ⟨ho, hr⟩
  · exact hd clean'
  · obtain rfl : clean' = false := hclean.trans (by rw [ho, Bool.and_false])
    exact hfail r hr

/-- **`open` changes nothing and returns the visible record.** -/
theorem always_openLocked (clean : Bool) (lock : Fd) :
    (SigningKey.openLocked K path lock).run.Always (Runs A pid) G
      (fun r s => s.1 = w ∧ match r with
        | .ok signer => w.visible (decode K) path = some signer.record ∧ signer.path = path ∧
          signer.failed = false
        | .error _ => s.2 = true → w.visible (decode K) path = none) (w, clean) := by
  unfold SigningKey.openLocked
  refine Prog.always_bindExcept (always_orFail (always_read hG
    (fun o r w' h => World.exec_openRead h) (fun clean' => ?_) ?_))
  · cases hi : w.dir path with
    | none =>
      refine ⟨rfl, fun _ => ?_⟩
      rw [World.visible, World.content, hi]
      rfl
    | some i =>
      have hvisible : w.visible (decode K) path = decode K (w.file i).bytes :=
        World.visible_of_content (congrArg (Option.map w.file) hi)
      simp only [Except.mapError]
      refine Prog.always_bindExcept (always_orFail (always_read hG
        (fun o r w' h => World.exec_fileLen h) (fun clean' => ?_) ?_))
      · simp only [Except.mapError]
        by_cases hlen : (w.file i).bytes.length ≠ Layout.secrets + SigningKey.secretsLen K
        · rw [if_pos hlen]
          refine ⟨rfl, fun _ => ?_⟩
          rw [hvisible, decode, if_pos hlen]
        · rw [if_neg hlen]
          have hlen' := not_not.mp hlen
          refine Prog.always_bindExcept (always_orFail (always_read hG
            (fun o r w' h => World.exec_readExact h (by omega)) (fun clean' => ?_) ?_))
          · simp only [Except.mapError]
            by_cases hrej : Header.rejected (slice (w.file i).bytes 0 Layout.secrets)
                (OneTime.height K) (OneTime.leaves K) = true
            · rw [if_pos hrej]
              refine ⟨rfl, fun _ => ?_⟩
              rw [hvisible, decode, if_neg hlen]
              exact if_pos hrej
            · rw [if_neg hrej]
              refine Prog.always_bindExcept (always_orFail (always_read hG
                (fun o r w' h => World.exec_readExact h (by omega)) (fun clean' => ?_) ?_))
              · simp only [Except.mapError]
                have hdecode : decode K (w.file i).bytes = _ :=
                  (if_neg hlen).trans (if_neg hrej)
                cases hkey : (OneTime.fromSecrets (K := K)
                  (slice (w.file i).bytes Layout.secrets (SigningKey.secretsLen K)).toList
                  (Header.parameter (slice (w.file i).bytes 0 Layout.secrets))).eval keccak256 with
                | error e =>
                  refine ⟨rfl, fun _ => ?_⟩
                  rw [hvisible, hdecode, hkey]
                | ok key =>
                  refine ⟨rfl, ?_, rfl, rfl⟩
                  rw [hvisible, hdecode, hkey]
                  rfl
              · rintro r ⟨e, rfl⟩
                exact ⟨rfl, fun h => by cases h⟩
          · rintro r ⟨e, rfl⟩
            exact ⟨rfl, fun h => by cases h⟩
      · rintro r ⟨e, rfl⟩
        exact ⟨rfl, fun h => by cases h⟩
  · rintro r ⟨e, rfl⟩
    exact ⟨rfl, fun h => by cases h⟩

end

/-! ## `write_record` -/

/--
The bytes of the record go to an open file that is empty. `I` is what the caller knows as long as
it writes, and it may write as long as the file is too short to be a record.
-/
theorem ensures_writeRecord {signer : SigningKey K} {fd : Fd} {I : World String Pid → Prop}
    (hI : ∀ w f, I w → I (w.setFile fd f))
    (hframe : ∀ w f, I w → (w.file fd).bytes.length ≤ Layout.secrets →
      Frame K path w (w.setFile fd f))
    (h : I w) (hempty : (w.file fd).bytes = []) :
    Ensures K path A pid (signer.writeRecord fd).run w fun r w' => I w' ∧ match r with
      | .ok () => (w'.file fd).bytes = signer.encoded
      | .error e => ∃ kind, e = .io kind := by
  unfold SigningKey.writeRecord
  refine ensures_bindExcept (ensures_orFail (ensures_invoke fun o r w1 _ hexec => ?_))
  obtain ⟨done, rfl, hdone⟩ := World.exec_writeAll hexec
  refine ⟨hframe w _ h (by rw [hempty]; exact Nat.zero_le _), ?_⟩
  change Except IoError Unit at r
  cases r with
  | error kind => exact ⟨hI _ _ h, kind, rfl⟩
  | ok u =>
    rw [hdone rfl, hempty, List.nil_append]
    simp only [Except.mapError]
    refine ensures_orFail (ensures_invoke fun o r w2 _ hexec => ?_)
    obtain ⟨done', rfl, hdone'⟩ := World.exec_writeAll hexec
    refine ⟨hframe _ _ (hI _ _ h) (by simp), hI _ _ (hI _ _ h), ?_⟩
    change Except IoError Unit at r
    cases r with
    | error kind => exact ⟨kind, rfl⟩
    | ok u =>
      simp only [Except.mapError, World.setFile_file_self]
      rw [hdone' rfl]
      rfl

/-! ## `write` -/

theorem Frame.move (hw : w.Ok) (hi : w.dir (sibling path ".tmp") = some i) {old new : Record K}
    (hold : w.visible (decode K) path = some old) {bytes : Bytes} (hfile : w.file i = ⟨bytes, true⟩)
    (hnew : decode K bytes = some new) (hafter : old.After new) :
    Frame K path w (w.move (sibling path ".tmp") path i) where
  ok := hw.move hi path
  apart := World.Apart.move (sibling_ne (by decide))
  locks := rfl
  lockFile := by
    show (if _ then _ else if _ then _ else _) = _
    rw [if_neg (sibling_ne (by decide)), if_neg (tmp_ne_lock path).symm]
  evolves := World.evolves_move hold hfile rfl hnew hafter

/-- The synced sibling is moved over the record, and the directory is synced. -/
theorem ensures_install (hw : w.Ok) (ha : w.Apart (sibling path ".tmp") path)
    (hi : w.dir (sibling path ".tmp") = some i) {old new : Record K}
    (hold : w.visible (decode K) path = some old) {bytes : Bytes} (hfile : w.file i = ⟨bytes, true⟩)
    (hnew : decode K bytes = some new) (hafter : old.After new) :
    Ensures K path A pid
      (orFail .io (invoke (.rename (sibling path ".tmp") path)) >>= fun _ => syncDir).run w
      fun r w' => match r with
        | .ok () => ∃ f, w'.Durable path f ∧ decode K f.bytes = some new
        | .error e => (∃ kind, e = .io kind) ∧
            ∃ r, w'.visible (decode K) path = some r ∧ r.key = new.key := by
  have hmove := Frame.move hw hi hold hfile hnew hafter
  have hcontent : (w.move (sibling path ".tmp") path i).content path = some ⟨bytes, true⟩ := by
    rw [World.content_move_target, hfile]
  have hvisible : (w.move (sibling path ".tmp") path i).visible (decode K) path = some new :=
    (World.visible_of_content hcontent).trans hnew
  refine ensures_bindExcept (ensures_orFail (ensures_invoke fun o r w1 _ hexec => ?_))
  obtain ⟨hcases, hmoved⟩ := World.exec_rename hi hexec
  change Except IoError Unit at r
  cases r with
  | error kind =>
    rcases hcases with rfl | rfl
    · exact ⟨.refl hw ha, ⟨kind, rfl⟩, old, hold, hafter.1.symm⟩
    · exact ⟨hmove, ⟨kind, rfl⟩, new, hvisible, rfl⟩
  | ok u =>
    obtain rfl := hmoved rfl
    refine ⟨hmove, ?_⟩
    simp only [Except.mapError]
    refine ensures_orFail (ensures_invoke fun o r w2 _ hexec => ?_)
    obtain ⟨hcases, hsynced⟩ := World.exec_syncDir hexec
    have hframe : Frame K path (w.move (sibling path ".tmp") path i) w2 := by
      rcases hcases with rfl | rfl
      · exact .refl hmove.ok hmove.apart
      · exact .syncDir hmove.ok hmove.apart
    refine ⟨hframe, ?_⟩
    change Except IoError Unit at r
    cases r with
    | error kind =>
      refine ⟨⟨kind, rfl⟩, new, ?_, rfl⟩
      rcases hcases with rfl | rfl
      · exact hvisible
      · exact hvisible
    | ok u =>
      obtain rfl := hsynced rfl
      exact ⟨_, World.durable_syncDir hcontent rfl, hnew⟩

/-- **`write` replaces the record durably, or fails** and leaves the old or the new one visible. -/
theorem ensures_write [LawfulOneTime K] (signer : SigningKey K) (hpath : signer.path = path)
    (hvalid : signer.record.Valid) (hw : w.Ok) (ha : w.Apart (sibling path ".tmp") path)
    {old : Record K} (hold : w.visible (decode K) path = some old)
    (hafter : old.After signer.record) :
    Ensures K path A pid signer.write.run w fun r w' => match r with
      | .ok () => ∃ f, w'.Durable path f ∧ decode K f.bytes = some signer.record
      | .error e => (∃ kind, e = .io kind) ∧
          ∃ r, w'.visible (decode K) path = some r ∧ r.key = signer.key := by
  have hne : sibling path ".tmp" ≠ path := sibling_ne (by decide)
  have hkeep : ∀ {w'}, World.Still (sibling path ".tmp") path w w' →
      ∃ r, w'.visible (decode K) path = some r ∧ r.key = signer.key := fun hs =>
    ⟨old, (World.visible_congr hs.content).trans hold, hafter.1.symm⟩
  unfold SigningKey.write
  rw [hpath]
  refine ensures_bindExcept (ensures_orFail (ensures_invoke fun o r w1 _ hexec => ?_))
  obtain ⟨hcases, hopened⟩ := World.exec_openTruncate hexec
  have hstill : World.Still (sibling path ".tmp") path w w1 := by
    rcases hcases with rfl | ⟨i, hi, rfl⟩ | rfl
    · exact .refl hw ha
    · exact .setFile hw ha hi _
    · exact .create hw ha hne
  refine ⟨.of_still hstill, ?_⟩
  change Except IoError Fd at r
  cases r with
  | error kind => exact ⟨⟨kind, rfl⟩, hkeep hstill⟩
  | ok fd =>
    obtain ⟨hfd, hempty⟩ := hopened fd rfl
    simp only [Except.mapError]
    -- the sibling is written and synced, and the record is still the old one
    have hwrites : ∀ w' f, (World.Still (sibling path ".tmp") path w w' ∧
        w'.dir (sibling path ".tmp") = some fd) →
        World.Still (sibling path ".tmp") path w' (w'.setFile fd f) := fun w' f h =>
      .setFile h.1.ok h.1.apart h.2 f
    refine ensures_bindExcept ((ensures_writeRecord
      (fun w' f h => ⟨h.1.trans (hwrites w' f h), h.2⟩)
      (fun w' f h _ => .of_still (hwrites w' f h)) ⟨hstill, hfd⟩ (by rw [hempty])).imp ?_)
    rintro (e | u) w2 ⟨h2, hr⟩
    · exact ⟨hr, hkeep h2.1⟩
    · dsimp only at hr ⊢
      refine ensures_bindExcept (ensures_orFail (ensures_invoke fun o r w3 _ hexec => ?_))
      obtain ⟨hcases, hsynced⟩ := World.exec_syncAll hexec
      have h3 : World.Still (sibling path ".tmp") path w2 w3 := by
        rcases hcases with rfl | rfl
        · exact .refl h2.1.ok h2.1.apart
        · exact hwrites w2 _ h2
      refine ⟨.of_still h3, ?_⟩
      change Except IoError Unit at r
      cases r with
      | error kind => exact ⟨⟨kind, rfl⟩, hkeep (h2.1.trans h3)⟩
      | ok u =>
        obtain rfl := hsynced rfl
        refine ensures_install h3.ok h3.apart h2.2
          ((World.visible_congr (h2.1.trans h3).content).trans hold) ?_
          (signer.decode_encoded hvalid) hafter
        rw [World.setFile_file_self, hr]

/-! ## Signers and their file -/

/-- The signer that holds the lock: its record is the visible one, unless a write has failed. -/
structure Owns (path : String) (w : World String Pid) (signer : SigningKey K) : Prop where
  path_eq : signer.path = path
  valid : signer.record.Valid
  key : ∃ r, w.visible (decode K) path = some r ∧ r.key = signer.key
  current : signer.failed = false → w.visible (decode K) path = some signer.record

/--
What `sign` returns, and the signer that it leaves. `D` holds of the files when a retry starts.
-/
def Signed (path : String) (A : Outcome SigningError → Prop) (D : World String Pid → Prop)
    (message : Message) (retry : Bool)
    (r : Except SigningError (OneTime.Signature K) × SigningKey K) (w : World String Pid) : Prop :=
  Owns path w r.2 ∧ match r.1 with
    | .ok sig => ∃ f record, w.content path = some f ∧ decode K f.bytes = some record ∧
        record.Signs message sig ∧ (retry = false → w.Durable path f) ∧ (retry = true → D w)
    | .error e => e = .corrupt → A (.error .corrupt)

theorem Owns.of_decode [LawfulOneTime K] {signer : SigningKey K} (hpath : signer.path = path)
    (hvisible : w.visible (decode K) path = some signer.record) : Owns path w signer where
  path_eq := hpath
  valid := by
    obtain ⟨f, -, hf⟩ := Option.bind_eq_some_iff.mp hvisible
    exact valid_of_decode hf
  key := ⟨_, hvisible, rfl⟩
  current _ := hvisible

/-! ## `create` -/

/-- The file that `create` has made. -/
structure Created (path : String) (fd : Fd) (w : World String Pid) : Prop where
  ok : w.Ok
  apart : w.Apart (sibling path ".tmp") path
  dir : w.dir path = some fd

omit [Keccak] in
theorem Created.content (h : Created path i w) : w.content path = some (w.file i) :=
  congrArg (Option.map w.file) h.dir

omit [Keccak] in
theorem Created.setFile (h : Created path i w) (f : File) : Created path i (w.setFile i f) :=
  ⟨h.ok.setFile i f, h.apart, h.dir⟩

/-- As long as it is too short, the file is not a record. -/
theorem Created.frame [LawfulOneTime K] (h : Created path i w) (f : File)
    (hlen : (w.file i).bytes.length ≤ Layout.secrets) : Frame K path w (w.setFile i f) := by
  refine .setFile h.ok h.apart ?_ i f
  have hpos : 0 < SigningKey.secretsLen K :=
    Nat.mul_pos LawfulOneTime.leaves_pos (by decide)
  rw [World.visible_of_content h.content, decode, if_pos (by omega)]

/-- The last two calls of `create`. -/
theorem ensures_settle {signer : SigningKey K} (h : Created path i w)
    (hfile : (w.file i).bytes = signer.encoded) :
    Ensures K path A pid
      (orFail .io (invoke (.syncAll i)) >>= fun _ => syncDir >>= fun _ => pure signer).run w
      fun r w' => ∀ signer', r = .ok signer' →
        signer' = signer ∧ w'.Durable path ⟨signer.encoded, true⟩ := by
  refine ensures_bindExcept (ensures_orFail (ensures_invoke fun o r w1 _ hexec => ?_))
  obtain ⟨hcases, hsynced⟩ := World.exec_syncAll hexec
  have hframe : Frame K path w w1 := by
    rcases hcases with rfl | rfl
    · exact .refl h.ok h.apart
    · exact .harden h.ok h.apart h.dir
  refine ⟨hframe, ?_⟩
  change Except IoError Unit at r
  cases r with
  | error kind => exact fun signer' he => by cases he
  | ok u =>
    obtain rfl := hsynced rfl
    have hcontent := World.content_setFile_self (f := ⟨(w.file i).bytes, true⟩) h.dir
    rw [hfile] at hcontent hframe ⊢
    simp only [Except.mapError]
    refine ensures_bindExcept (ensures_orFail (ensures_invoke fun o r w2 _ hexec => ?_))
    obtain ⟨hcases, hsynced⟩ := World.exec_syncDir hexec
    have hframe' : Frame K path (w.setFile i ⟨signer.encoded, true⟩) w2 := by
      rcases hcases with rfl | rfl
      · exact .refl hframe.ok hframe.apart
      · exact .syncDir hframe.ok hframe.apart
    refine ⟨hframe', ?_⟩
    change Except IoError Unit at r
    cases r with
    | error kind => exact fun signer' he => by cases he
    | ok u =>
      obtain rfl := hsynced rfl
      refine ensures_ret fun signer' he => ?_
      obtain rfl : signer = signer' := Except.ok.inj he
      exact ⟨rfl, World.durable_syncDir hcontent rfl⟩

/-- **`create` returns a signer whose file is durable.** -/
theorem ensures_createLocked [LawfulOneTime K] (hw : w.Ok)
    (ha : w.Apart (sibling path ".tmp") path) (lock : Fd) :
    Ensures K path A pid (SigningKey.createLocked K path lock).run w fun r w' =>
      ∀ signer, r = .ok signer → Owns path w' signer ∧
        ∃ f, w'.Durable path f ∧ decode K f.bytes = some signer.record := by
  unfold SigningKey.createLocked
  refine ensures_bindExcept (ensures_orFail (ensures_invoke fun o r w1 _ hexec => ?_))
  obtain ⟨hcases, hcreated⟩ := World.exec_createNew hexec
  have hframe : Frame K path w w1 := by
    rcases hcases with rfl | ⟨hd, rfl⟩
    · exact .refl hw ha
    · exact .create hw ha hd
  refine ⟨hframe, ?_⟩
  change Except IoError Fd at r
  cases r with
  | error kind => exact fun signer he => by cases he
  | ok fd =>
    obtain ⟨hd, rfl, rfl⟩ := hcreated fd rfl
    have hc : Created path w.next (w.create path) :=
      ⟨hframe.ok, hframe.apart, Function.update_self _ _ _⟩
    have hempty : ((w.create path).file w.next).bytes = [] := by
      have hself := World.content_create_self w path
      rw [hc.content] at hself
      rw [Option.some.inj hself]
    simp only [Except.mapError]
    refine ensures_bindExcept (((source_osFill hc.ok hc.apart) _).imp ?_)
    rintro (e | secrets) w2 ⟨hw2, -⟩ <;> subst w2
    · exact fun signer he => by cases he
    dsimp only
    refine ensures_bindExcept (((source_osFill hc.ok hc.apart) _).imp ?_)
    rintro (e | parameter) w2 ⟨hw2, -⟩ <;> subst w2
    · exact fun signer he => by cases he
    dsimp only
    cases hkey : (OneTime.fromSecrets (K := K) secrets.toList parameter).eval keccak256 with
    | error e => exact ensures_ret fun signer he => by cases he
    | ok key =>
      dsimp only
      refine ensures_bindExcept
        ((ensures_writeRecord (fun w f (h : Created path _ w) => h.setFile f)
        (fun w f h hlen => h.frame f hlen) hc hempty).imp ?_)
      rintro (e | u) w2 ⟨h2, hfile⟩
      · exact fun signer he => by cases he
      · refine (ensures_settle h2 hfile).imp fun r w3 hr signer he => ?_
        obtain ⟨rfl, hdurable⟩ := hr signer he
        have hvalid : Record.Valid (K := K) ⟨key, 0, none, zeros _⟩ :=
          ⟨⟨_, _, hkey⟩, UInt32.zero_le, (fun m hm => by cases hm), fun _ => rfl⟩
        have hdecode := SigningKey.decode_encoded (K := K)
          ⟨key, path, lock, 0, none, zeros _, false⟩ hvalid
        exact ⟨.of_decode rfl ((World.visible_of_content hdurable.content).trans hdecode),
          _, hdurable, hdecode⟩

/-! ## `sign` -/

/--
**A signature is returned only for the visible record**, and a fresh one only when the file that
holds the record is durable.
-/
theorem ensures_signWithRng [LawfulOneTime K] {signer : SigningKey K} (h : Owns path w signer)
    (hw : w.Ok) (ha : w.Apart (sibling path ".tmp") path) {fill : FillSource}
    (hfill : Source K path A pid w fill) (message : Message) {D : World String Pid → Prop}
    (hD : signer.failed = false → signer.lastMessage = some message → D w) :
    Ensures K path A pid (signer.signWithRng message fill) w
      (Signed path A D message (signer.lastMessage = some message)) := by
  by_cases hfailed : signer.failed = true
  · rw [signer.signWithRng_failed hfailed]
    exact ensures_ret ⟨h, fun he => by cases he⟩
  have hunfailed := Bool.eq_false_iff.mpr hfailed
  have hvisible := h.current hunfailed
  obtain ⟨f, hcontent, hdecode⟩ := Option.bind_eq_some_iff.mp hvisible
  by_cases hretry : signer.lastMessage = some message
  · obtain ⟨sig, hsig⟩ := h.valid.exists_signs hretry
    rw [signer.signWithRng_retry hunfailed hsig]
    refine ensures_ret ⟨h, f, _, hcontent, hdecode, hsig, fun hr => ?_,
      fun _ => hD hunfailed hretry⟩
    exact absurd hretry (of_decide_eq_false hr)
  unfold SigningKey.signWithRng
  rw [if_neg hfailed, if_neg hretry]
  by_cases hspent : signer.nextLeaf ≥ OneTime.leaves K
  · rw [if_pos hspent]
    exact ensures_ret ⟨h, fun he => by cases he⟩
  rw [if_neg hspent]
  refine ensures_bind ((ensures_sampleTrials hfill _ _ _ maxTrials).imp ?_)
  rintro sampled w1 ⟨hw1, hcorrupt, hsalt⟩
  subst w1
  obtain ⟨hvalid, hafter⟩ := signer.valid_advance h.valid (UInt32.not_le.mp hspent) message hsalt
  refine ensures_bind ((ensures_write (signer.advance message sampled) h.path_eq hvalid
    hw ha hvisible hafter).imp ?_)
  rintro (e | u) w2 hr
  · obtain ⟨⟨kind, rfl⟩, hkey⟩ := hr
    exact ensures_ret ⟨⟨h.path_eq, hvalid, hkey, fun hf => by cases hf⟩, fun he => by cases he⟩
  · obtain ⟨f', hdurable, hdecode'⟩ := hr
    have howns : Owns path w2 (signer.advance message sampled) :=
      .of_decode h.path_eq ((World.visible_of_content hdurable.content).trans hdecode')
    cases sampled with
    | error e => exact ensures_ret ⟨howns, fun he => hcorrupt (he ▸ rfl)⟩
    | ok salt =>
      have hm : (signer.advance message (.ok salt)).lastMessage = some message := rfl
      obtain ⟨sig, hsig⟩ := hvalid.exists_signs hm
      have hresult := hsig.2
      change (OneTime.signAtWithSalt (signer.advance message (.ok salt)).key
        (signer.nextLeaf + 1 - 1) message salt).eval keccak256 = some sig at hresult
      rw [UInt32.add_sub_cancel] at hresult
      dsimp only
      rw [hresult]
      exact ensures_ret ⟨howns, f', _, hdurable.content, hdecode', hsig, fun _ => hdurable,
        fun hr => absurd (of_decide_eq_true hr) hretry⟩

end SolanaWinternitz
