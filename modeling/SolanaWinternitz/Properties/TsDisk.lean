import SolanaWinternitz.Infra.Replace
import SolanaWinternitz.Properties.Scripts

/-!
# What a TypeScript signer leaves on the disk

Any call may fail, before or after its effect, and power may be lost at any time.

* `SigningKey.write_ends` — **`#write` puts the record of the signer in place or leaves an old one**
* `Keeps` — calls that write no record
* `Leaves` — what a method leaves: the signer has spent a leaf or none, only old files and its
  record can come back, and if it signed then nothing but its record can (`NestedCall.leaves_run`).
  A retry writes nothing, so there this is what it starts from (`NestedCall.Covered`)
* `signWithRng_undisturbed` — **callbacks do not disturb an attempt**, its record or its key file
-/

namespace SolanaWinternitz.Ts

open Infra Infra.Os Infra.Js

variable {K Pid X α : Type}

/-! ## Calls on the draft -/

section

variable {source target : String} {w₀ : World String Pid} {fd : Fd} {b : Bytes} {synced : Bool}
  {p : Process K Pid X}

theorem ends_openTruncate (hw : p.world.Ok) (ha : p.world.Apart source target)
    (hne : source ≠ target) : Ends (fun r p' => World.Still source target p.world p'.world ∧
      ∀ fd, r = .ok fd → World.Draft source target p.world fd ⟨[], false⟩ p'.world)
      (orThrow system (invoke (.openTruncate source)) : Action K Pid X Fd) p := by
  rcases hexec : p.world.exec p.pid (p.outcomes p.calls.length) (.openTruncate source) with ⟨r, w⟩
  obtain ⟨hstill, hdraft⟩ := World.draft_openTruncate hw ha hne hexec
  exact .of_run (orThrow_apply system (invoke_apply hexec))
    ⟨hstill, fun fd hfd => hdraft fd (mapError_eq_ok hfd)⟩

theorem ends_writeFileSync (h : World.Draft source target w₀ fd ⟨b, synced⟩ p.world)
    (data : Bytes) :
    Ends (fun r p' => World.Still source target w₀ p'.world ∧
      (r = .ok () → World.Draft source target w₀ fd ⟨b ++ data, false⟩ p'.world))
      (writeFileSync fd data) p := by
  rcases hexec : p.world.exec p.pid (p.outcomes p.calls.length) (.writeAll fd data) with ⟨r, w⟩
  obtain ⟨hstill, hdraft⟩ := h.writeAll hexec
  exact .of_run (orThrow_apply system (invoke_apply hexec))
    ⟨hstill, fun hr => hdraft (mapError_eq_ok hr)⟩

theorem ends_fsyncSync (h : World.Draft source target w₀ fd ⟨b, synced⟩ p.world) :
    Ends (fun r p' => World.Still source target w₀ p'.world ∧
      (r = .ok () → World.Draft source target w₀ fd ⟨b, true⟩ p'.world)) (fsyncSync fd) p := by
  rcases hexec : p.world.exec p.pid (p.outcomes p.calls.length) (.syncAll fd) with ⟨r, w⟩
  obtain ⟨hstill, hdraft⟩ := h.syncAll hexec
  exact .of_run (orThrow_apply system (invoke_apply hexec))
    ⟨hstill, fun hr => hdraft (mapError_eq_ok hr)⟩

theorem ends_closeSync (fd : Fd) (p : Process K Pid X) :
    Ends (fun _ p' => p'.world = p.world) (closeSync fd) p := by
  rcases hexec : p.world.exec p.pid (p.outcomes p.calls.length) (.close fd) with ⟨r, w⟩
  exact .of_run (orThrow_apply system (invoke_apply hexec)) (World.attempt_read hexec).1

theorem ends_renameSync {f : File} (h : World.Draft source target w₀ fd f p.world)
    (hne : source ≠ target) : Ends (fun r p' => World.Installs target w₀ f p'.world ∧
      p'.world.Apart source target ∧ (r = .ok () → p'.world.content target = some f))
      (renameSync source target) p := by
  rcases hexec : p.world.exec p.pid (p.outcomes p.calls.length) (.rename source target) with ⟨r, w⟩
  obtain ⟨hinstalls, hapart, hcontent⟩ := h.rename hne hexec
  exact .of_run (orThrow_apply system (invoke_apply hexec))
    ⟨hinstalls, hapart, fun hr => hcontent (mapError_eq_ok hr)⟩

theorem ends_syncDir {f : File} (h : World.Installs target w₀ f p.world)
    (hcontent : p.world.content target = some f) (hf : f.synced = true) :
    Ends (fun r p' => World.Installs target w₀ f p'.world ∧
      (p'.world = p.world ∨ p'.world = p.world.syncDir) ∧
      (r = .ok () → p'.world.Durable target f)) syncDir p := by
  rcases hexec : p.world.exec p.pid (p.outcomes p.calls.length) .syncDir with ⟨r, w⟩
  obtain ⟨hinstalls, hcases, hdurable⟩ := h.syncDir hcontent hf hexec
  exact .of_run (orThrow_apply system (invoke_apply hexec))
    ⟨hinstalls, hcases, fun hr => hdurable (mapError_eq_ok hr)⟩

end

/-! ## Writing the record -/

variable [OneTime K]

/-- The file that holds the record of a signer. -/
def SigningKey.Writes (self : SigningKey K) (f : File) : Prop :=
  ∃ header, self.header = .ok header ∧ f = ⟨header ++ OneTime.secrets self.key, true⟩

/-- A directory in which the record of a path can be replaced. -/
structure Writable (path : String) (w : World String Pid) : Prop where
  ok : w.Ok
  apart : w.Apart (sibling path ".tmp") path

/-- The files that can come back are old ones or the record of this signer. -/
structure Replaces (signer : SigningKey K) (w w' : World String Pid) : Prop where
  writable : Writable signer.path w'
  content : w'.content signer.path = w.content signer.path ∨
    ∃ f, signer.Writes f ∧ w'.content signer.path = some f
  survives : ∀ x, w'.Survives signer.path x →
    w.Survives signer.path x ∨ ∃ f, signer.Writes f ∧ x = some f

theorem Replaces.of_still {self : SigningKey K} {w w' : World String Pid}
    (h : World.Still (sibling self.path ".tmp") self.path w w') : Replaces self w w' :=
  ⟨⟨h.ok, h.apart⟩, Or.inl h.content, fun x hx => Or.inl ((h.survives x).mp hx)⟩

theorem Replaces.of_installs {self : SigningKey K} {w w' : World String Pid} {f : File}
    (hf : self.Writes f) (h : World.Installs self.path w f w')
    (ha : w'.Apart (sibling self.path ".tmp") self.path) : Replaces self w w' :=
  ⟨⟨h.ok, ha⟩, h.content.imp id fun he => ⟨f, hf, he⟩,
    fun x hx => (h.survives x hx).imp id fun he => ⟨f, hf, he⟩⟩

/-- The header and the secrets, in the draft. -/
theorem SigningKey.writeRecord_ends (self : SigningKey K) {source target : String}
    {w₀ : World String Pid} {fd : Fd} {p : Process K Pid X}
    (h : World.Draft source target w₀ fd ⟨[], false⟩ p.world) :
    Ends (fun r p' => World.Still source target w₀ p'.world ∧ (r = .ok () →
      ∃ header, self.header = .ok header ∧
        World.Draft source target w₀ fd ⟨header ++ OneTime.secrets self.key, false⟩ p'.world))
      (self.writeRecord fd) p := by
  unfold writeRecord
  cases hheader : self.header with
  | error e => exact ⟨h.still, fun he => by cases he⟩
  | ok header =>
    refine ends_bind (P := fun r p' => r = .ok header ∧ p' = p) ⟨rfl, rfl⟩ ?_
      fun e p' h' => by cases h'.1
    rintro _ _ ⟨hr, rfl⟩
    cases hr
    refine ends_bind (ends_writeFileSync h header) (fun _ p1 h1 => ?_)
      fun e p1 h1 => ⟨h1.1, fun he => by cases he⟩
    refine (ends_writeFileSync (h1.2 rfl) (OneTime.secrets self.key)).imp fun r p2 h2 => ?_
    exact ⟨h2.1, fun hr => ⟨header, rfl, h2.2 hr⟩⟩

/-- **`#write` puts the record of the signer in place, durably, or throws.** -/
theorem SigningKey.write_ends (self : SigningKey K) {p : Process K Pid X}
    (hw : Writable self.path p.world) :
    Ends (fun r p' => Replaces self p.world p'.world ∧
      (r = .ok () → ∃ f, self.Writes f ∧ p'.world.Durable self.path f)) self.write p := by
  have hne : sibling self.path ".tmp" ≠ self.path := sibling_ne (by decide)
  let drafted (fd : Fd) (r : Except Thrown Unit) (p' : Process K Pid X) : Prop :=
    World.Still (sibling self.path ".tmp") self.path p.world p'.world ∧ (r = .ok () →
      ∃ f, self.Writes f ∧ World.Draft (sibling self.path ".tmp") self.path p.world fd f p'.world)
  have hbody : ∀ (fd : Fd) (p1 : Process K Pid X),
      World.Draft (sibling self.path ".tmp") self.path p.world fd ⟨[], false⟩ p1.world →
      Ends (drafted fd) (do self.writeRecord fd; fsyncSync fd) p1 := by
    intro fd p1 h1
    refine ends_bind (self.writeRecord_ends h1) (fun _ p2 h2 => ?_)
      fun e p2 h2 => ⟨h2.1, fun he => by cases he⟩
    obtain ⟨header, hheader, hdraft⟩ := h2.2 rfl
    refine (ends_fsyncSync hdraft).imp fun r p3 h3 => ?_
    exact ⟨h3.1, fun hr => ⟨_, ⟨header, hheader, rfl⟩, h3.2 hr⟩⟩
  unfold write
  refine ends_bind (ends_openTruncate hw.ok hw.apart hne) (fun fd p1 h1 => ?_)
    fun e p1 h1 => ⟨.of_still h1.1, fun he => by cases he⟩
  refine ends_bind (P := drafted fd) (ends_onExit (hbody fd p1 (h1.2 fd rfl)) fun r p2 h2 => ?_)
    (fun _ p2 h2 => ?_) fun e p2 h2 => ⟨.of_still h2.1, fun he => by cases he⟩
  · refine (ends_closeSync fd p2).imp fun u p3 h3 => ?_
    unfold drafted at h2 ⊢
    rw [h3]
    exact ⟨fun _ => h2, fun e _ => ⟨h2.1, fun he => by cases he⟩⟩
  · obtain ⟨f, hf, hdraft⟩ := h2.2 rfl
    refine ends_bind (ends_renameSync hdraft hne) (fun _ p3 h3 => ?_)
      fun e p3 h3 => ⟨.of_installs hf h3.1 h3.2.1, fun he => by cases he⟩
    obtain ⟨hinstalls, hapart, hcontent⟩ := h3
    have hsynced : f.synced = true := by
      obtain ⟨header, -, rfl⟩ := hf
      rfl
    refine (ends_syncDir hinstalls (hcontent rfl) hsynced).imp fun r p4 h4 => ?_
    obtain ⟨hinstalls', hcases, hdurable⟩ := h4
    refine ⟨.of_installs hf hinstalls' ?_, fun hr => ⟨f, hf, hdurable hr⟩⟩
    rcases hcases with he | he
    · rw [he]
      exact hapart
    · rw [he]
      exact hapart.syncDir

/-! ## Calls that write no record -/

section

omit [OneTime K]

variable {path : String}

theorem Writable.of_fewer {w w' : World String Pid}
    (h : World.Fewer (sibling path ".tmp") path w w') : Writable path w' := ⟨h.ok, h.apart⟩

/-- The file under this path stays, and no other one can come back. -/
def Kept (path : String) (p p' : Process K Pid X) : Prop :=
  Writable path p.world → World.Fewer (sibling path ".tmp") path p.world p'.world

theorem Kept.refl (p : Process K Pid X) : Kept path p p := fun hw => .refl hw.ok hw.apart

theorem Kept.trans {p p' p'' : Process K Pid X} (h : Kept path p p') (h' : Kept path p' p'') :
    Kept path p p'' := fun hw => (h hw).trans (h' (.of_fewer (h hw)))

theorem kept_invoke (c : Call String) (hc : World.Passive path c) (p : Process K Pid X) :
    Moves (Kept path) (invoke c) p :=
  fun hw => World.fewer_exec hw.ok hw.apart (sibling_ne (by decide)) hc

/-- The signer is as it was, but perhaps closed, and no other file can come back. -/
structure Keeps (p p' : Process K Pid X) : Prop where
  self : p'.self = p.self ∨ p'.self = { p.self with closed := true }
  files : Kept p.self.path p p'

theorem Keeps.same_path {p p' : Process K Pid X} (h : Keeps p p') : p'.self.path = p.self.path := by
  rcases h.self with he | he <;> rw [he]

theorem Keeps.refl (p : Process K Pid X) : Keeps p p := ⟨Or.inl rfl, .refl p⟩

theorem Keeps.trans {p p' p'' : Process K Pid X} (h : Keeps p p') (h' : Keeps p' p'') :
    Keeps p p'' := by
  refine ⟨?_, h.files.trans (h.same_path ▸ h'.files)⟩
  rcases h.self with he | he
  · rw [← he]
    exact h'.self
  · rcases h'.self with he' | he' <;> exact Or.inr (by rw [he', he])

theorem keeps_close (p : Process K Pid X) : Moves Keeps close p := by
  unfold Moves close assignSelf
  rw [look_bind]
  by_cases hsampling : p.self.sampling = true
  · rw [if_pos hsampling]
    exact .refl p
  · rw [if_neg hsampling]
    by_cases hclosed : p.self.closed = true
    · rw [if_pos hclosed]
      exact .refl p
    · rw [if_neg hclosed, assign_bind]
      exact ⟨Or.inr rfl, fun hw =>
        World.fewer_exec (c := .release _) hw.ok hw.apart (sibling_ne (by decide)) trivial⟩

end

theorem keeps_requireNextLeafAtLeast (minimum : Number) (p : Process K Pid X) :
    Moves Keeps (requireNextLeafAtLeast minimum) p := by
  have hrefuse : ∀ e, Moves Keeps (do close; raise e : Action K Pid X Unit) p := fun e =>
    moves_bind .trans (keeps_close p) fun _ p' _ => .refl p'
  unfold requireNextLeafAtLeast
  cases minimum with
  | other => exact hrefuse _
  | integer n =>
    dsimp only
    by_cases hn : n < 0 ∨ n > OneTime.leaves K
    · rw [if_pos hn]
      exact hrefuse _
    · rw [if_neg hn]
      unfold Moves
      rw [look_bind]
      by_cases hlt : p.self.nextLeaf < n
      · rw [if_pos hlt]
        exact hrefuse _
      · rw [if_neg hlt]
        exact .refl p

/-- `create` throws if there is a file. -/
theorem kept_create {path : String} {p : Process K Pid X} (hw : Writable path p.world)
    (hpresent : p.world.content path ≠ none) :
    Moves (Kept path) (SigningKey.create path : Action K Pid X (SigningKey K)) p := by
  have hacquire : Moves (Kept path) (acquire path) p := moves_acquire .refl .trans kept_invoke p
  refine moves_bind .trans hacquire fun lock p₁ hrun => moves_onThrow .trans ?_ fun e p₂ _ =>
    moves_bind .trans (moves_orThrow .refl .trans system (kept_invoke (.release lock) trivial) p₂)
      fun _ p₃ _ => Kept.refl p₃
  have hcontent : p₁.world.content path ≠ none := by
    rw [(hacquire.along hrun hw).content]
    exact hpresent
  rcases hexec : p₁.world.exec p₁.pid (p₁.outcomes p₁.calls.length) (.createNew path) with ⟨r, w⟩
  obtain ⟨hworld, hfd⟩ := World.exec_createNew hexec
  have hdir : p₁.world.dir path ≠ none := fun hd => hcontent (by rw [World.content, hd]; rfl)
  obtain rfl : w = p₁.world := by
    rcases hworld with he | ⟨hd, -⟩
    · exact he
    · exact absurd hd hdir
  have hcall : (orThrow system (invoke (.createNew path)) : Action K Pid X Fd) p₁
      = (Except.mapError system (r : Except IoError Fd), p₁.did (.createNew path) p₁.world) :=
    orThrow_apply system (invoke_apply hexec)
  change Except IoError Fd at r
  cases r with
  | ok fd => exact absurd (hfd fd rfl).1 hdir
  | error e =>
    have hkept : Moves (Kept path) (orThrow system (invoke (.createNew path)) : Action K Pid X Fd)
        p₁ := by
      unfold Moves
      rw [hcall]
      exact Kept.refl p₁
    refine moves_bind_of_fails (moves_onThrow .trans hkept fun e p₂ _ => ?_)
      (fails_onThrow ⟨_, congrArg Prod.fst hcall⟩ fun e p₂ => ?_)
    · split <;> exact Kept.refl p₂
    · split <;> exact fails_raise _ p₂

/-! ## Methods -/

/-- The record of the signer is the only file that can come back. -/
def Process.Saved (p : Process K Pid X) : Prop :=
  ∃ f, p.self.Writes f ∧ p.world.Durable p.self.path f

/-- What a method does to the file of the signer. -/
structure Saves (p p' : Process K Pid X) : Prop where
  path : p'.self.path = p.self.path
  writable : Writable p.self.path p'.world
  /-- There is the old file or the record of the signer. -/
  content : p'.world.content p.self.path = p.world.content p.self.path ∨
    ∃ f, p'.self.Writes f ∧ p'.world.content p.self.path = some f
  /-- Only old files and the record of the signer can come back. -/
  survives : ∀ x, p'.world.Survives p.self.path x →
    p.world.Survives p.self.path x ∨ ∃ f, p'.self.Writes f ∧ x = some f
  /-- A signer that is still open has done nothing, or its record is saved. -/
  shows : p'.self.closed = false → p'.Saved ∨
    p'.self = p.self ∧ p'.world.content p.self.path = p.world.content p.self.path

theorem Keeps.saves {p p' : Process K Pid X} (h : Keeps p p') (hw : Writable p.self.path p.world) :
    Saves p p' := by
  have hfewer := h.files hw
  refine ⟨h.same_path, .of_fewer hfewer, Or.inl hfewer.content,
    fun x hx => Or.inl (hfewer.survives x hx), fun hopen => ?_⟩
  rcases h.self with he | he
  · exact Or.inr ⟨he, hfewer.content⟩
  · rw [he] at hopen
    cases hopen

/-- What an attempt of a signer on a message may sample. -/
structure Sampled [Keccak] (s : SigningKey K) (value : Bytes) (sampled : Except Thrown Bytes) :
    Prop where
  length : value.length = messageLen
  leaf : s.nextLeaf < OneTime.leaves K
  accepted : ∀ salt, sampled = .ok salt → ∃ key, OneTime.verifyingKey s.key = .ok key ∧
    salt.length = saltLength ∧
    (encode salt (subarrayFrom key.toBytes elementLength) s.nextLeaf value).isSome = true

/-- What a method may do to the signer. -/
inductive Changes [Keccak] (s s' : SigningKey K) : Prop where
  | keep (closed : Bool) (h : s' = { s with closed := closed })
  | spend (value : Bytes) (sampled : Except Thrown Bytes) (closed : Bool)
      (h : Sampled s value sampled) (h' : s' = { s.spent value sampled with closed := closed })

variable [Keccak]

theorem Changes.refl (s : SigningKey K) : Changes s s := .keep s.closed rfl

theorem Keeps.changes {p p' : Process K Pid X} (h : Keeps p p') : Changes p.self p'.self := by
  rcases h.self with he | he
  · rw [he]
    exact .refl _
  · exact .keep true he

/-- A method that was called, and what it left. -/
structure Leaves {β : Type} (signed : β → Prop) (r : Except Thrown β) (p p' : Process K Pid X) :
    Prop where
  saves : Saves p p'
  changes : Changes p.self p'.self
  signed : ∀ a, r = .ok a → signed a → p'.Saved

omit [OneTime K] in
/-- A salt that is sampled is accepted. -/
theorem ends_sampleTrials (parameter : Bytes) (leaf : Int) (message : Bytes)
    (fill : FillRandom (Process K Pid X)) (trials : Nat) : ∀ p,
    Ends (fun r _ => ∀ salt, r = .ok salt → salt.length = saltLength ∧
      (encode salt parameter leaf message).isSome = true)
      (sampleTrials parameter leaf message fill trials) p := by
  induction trials with
  | zero =>
    intro p salt he
    cases he
  | succ trials ih =>
    intro p
    rw [sampleTrials]
    refine ends_bind (P := fun _ _ => True) trivial (fun salt p' _ => ?_)
      fun e p' _ salt he => by cases he
    by_cases hx : (encode salt.toList parameter leaf message).isSome = true
    · rw [if_pos hx]
      intro salt' he
      cases he
      exact ⟨List.Vector.toList_length salt, hx⟩
    · rw [if_neg hx]
      exact ih p'

theorem ends_trySalt (fill : FillRandom (Process K Pid X)) (leaf : Int) (message : Bytes)
    (p : Process K Pid X) : Ends (fun r _ => ∀ salt, r = .ok (.ok salt) →
      ∃ key, OneTime.verifyingKey p.self.key = .ok key ∧ salt.length = saltLength ∧
        (encode salt (subarrayFrom key.toBytes elementLength) leaf message).isSome = true)
      (trySalt fill leaf message) p := by
  unfold trySalt
  refine ends_onThrow (P := fun r _ => ∀ salt, r = .ok (.ok salt) →
      ∃ key, OneTime.verifyingKey p.self.key = .ok key ∧ salt.length = saltLength ∧
        (encode salt (subarrayFrom key.toBytes elementLength) leaf message).isSome = true)
    (ends_bind (P := fun r _ => ∀ key, r = .ok key → OneTime.verifyingKey p.self.key = .ok key)
      (fun key hkey => mapError_eq_ok hkey) (fun key p₁ hkey => ?_)
        fun e p₁ _ salt he => by cases he)
    (fun _ _ h => h) fun e p' _ salt he => by cases he
  refine ends_bind (ends_sampleTrials _ leaf message fill maxTrials p₁) (fun salt p₂ hsalt => ?_)
    fun e p₂ _ salt he => by cases he
  intro salt' he
  cases he
  exact ⟨key, hkey key rfl, hsalt salt rfl⟩

/-- **An attempt spends its leaf with an accepted salt**, or with none. -/
theorem attempt_changes {fill : FillRandom (Process K Pid (Captured K Pid))}
    (hfill : SilentFill fill)
    {value : Bytes} {p : Process K Pid (Captured K Pid)} (hopen : p.self.closed = false)
    (hsampling : p.self.sampling = false) (hlocked : p.Locked) (hlen : value.length = messageLen)
    (hleaf : p.self.nextLeaf < OneTime.leaves K) :
    Changes p.self (attempt value fill p).2.self := by
  obtain ⟨sampled, p', hsampled, hsilent, hlocked', hattempt⟩ :=
    attempt_apply hfill value hopen hsampling hlocked
  have haccepted : Sampled p.self value sampled := ⟨hlen, hleaf, fun salt hsalt =>
    (ends_trySalt fill p.self.nextLeaf value _).along hsampled salt (congrArg Except.ok hsalt)⟩
  rw [hattempt]
  rcases writeOrClose_apply (p := { p' with self := p.self.spent value sampled }) hopen hsampling
    hlocked' with ⟨p'', hrun, hself, -⟩ | ⟨e, p'', hrun, hself, -⟩
  · rw [bind_ok hrun]
    cases sampled with
    | error failure => exact .spend value _ p.self.closed haccepted hself
    | ok salt => exact .spend value _ p.self.closed haccepted hself
  · rw [bind_error hrun]
    exact .spend value sampled true haccepted hself

/-- **An attempt saves the record before it signs**, or closes the signer. -/
theorem attempt_leaves {fill : FillRandom (Process K Pid (Captured K Pid))}
    (hfill : SilentFill fill)
    {value : Bytes} {p : Process K Pid (Captured K Pid)} (hopen : p.self.closed = false)
    (hsampling : p.self.sampling = false) (hlocked : p.Locked)
    (hw : Writable p.self.path p.world) (hlen : value.length = messageLen)
    (hleaf : p.self.nextLeaf < OneTime.leaves K) :
    Ends (fun r p' => Leaves (fun _ => True) r p p') (attempt value fill) p := by
  have hchanges := attempt_changes hfill hopen hsampling hlocked hlen hleaf
  obtain ⟨sampled, p', -, hsilent, -, hattempt⟩ :=
    attempt_apply hfill value hopen hsampling hlocked
  let q : Process K Pid (Captured K Pid) := { p' with self := p.self.spent value sampled }
  have hworld : q.world = p.world := hsilent.unchanged.world
  have hq : Writable q.self.path q.world := by
    rw [hworld]
    exact hw
  unfold Ends
  rw [hattempt] at hchanges ⊢
  rcases hr : q.self.write q with ⟨r, p₁⟩
  have hself : p₁.self = q.self := ((beside_write q.self q).along hr).self
  obtain ⟨hreplaces, hdurable⟩ := (q.self.write_ends hq).along hr
  rw [hworld] at hreplaces
  cases r with
  | ok _ =>
    have hrun : writeOrClose q.self q = (.ok (), p₁) := onThrow_ok hr
    have hsaved : p₁.Saved := by
      unfold Process.Saved
      rw [hself]
      exact hdurable rfl
    have hsaves : Saves p p₁ := by
      refine ⟨by rw [hself]; rfl, hreplaces.writable, ?_, fun x hx => ?_, fun _ => Or.inl hsaved⟩
      · rw [hself]
        exact hreplaces.content
      · rw [hself]
        exact hreplaces.survives x hx
    rw [bind_ok hrun] at hchanges ⊢
    cases sampled with
    | error failure => exact ⟨hsaves, hchanges, fun _ _ _ => hsaved⟩
    | ok salt => exact ⟨hsaves, hchanges, fun _ _ _ => hsaved⟩
  | error e =>
    obtain ⟨u, p₂, hclose, hclosed, -⟩ :=
      close_apply (p := p₁) (hself ▸ hsampling) (hself ▸ hopen)
    have hkeeps : Keeps p₁ p₂ := (keeps_close p₁).along hclose
    have hfewer := hkeeps.files
    rw [hself] at hclosed hfewer
    have hrun : ∃ e, writeOrClose q.self q = (.error e, p₂) := by
      unfold writeOrClose
      rw [onThrow_error hr]
      cases u with
      | ok _ => exact ⟨_, bind_ok hclose⟩
      | error e => exact ⟨e, bind_error hclose⟩
    obtain ⟨e, hrun⟩ := hrun
    rw [bind_error hrun] at hchanges ⊢
    refine ⟨⟨by rw [hclosed]; rfl, .of_fewer (hfewer hreplaces.writable), ?_, fun x hx => ?_,
      fun hopen => ?_⟩, hchanges, fun _ he => by cases he⟩
    · rw [hclosed]
      have hcontent : p₂.world.content p.self.path = p₁.world.content p.self.path :=
        (hfewer hreplaces.writable).content
      rw [hcontent]
      exact hreplaces.content
    · rw [hclosed]
      exact hreplaces.survives x ((hfewer hreplaces.writable).survives x hx)
    · rw [hclosed] at hopen
      cases hopen

/-- A retry of a message is made only when the record is saved. -/
def Process.Covered (p : Process K Pid X) (message : Ref) : Prop :=
  p.self.closed = false → p.self.lastMessage = some (p.buffers message) → p.Saved

theorem signWithRng_leaves {fill : FillRandom (Process K Pid (Captured K Pid))}
    (hfill : SilentFill fill) (message : Ref) {p : Process K Pid (Captured K Pid)} (h : p.Idle)
    (hw : Writable p.self.path p.world) (hretry : p.Covered message) :
    Ends (fun r p' => Leaves (fun _ => True) r p p') (signWithRng message fill) p := by
  unfold Ends
  rcases signWithRng_cases h.sampling message with
    ⟨e, hrun⟩ | ⟨hopen, ⟨hlast, hrun⟩ | ⟨hlen, hleaf, hrun⟩⟩ <;> rw [hrun fill]
  · exact ⟨(Keeps.refl p).saves hw, .refl _, fun _ he => by cases he⟩
  · exact ⟨(Keeps.refl p).saves hw, .refl _, fun _ _ _ => hretry hopen hlast⟩
  · exact attempt_leaves hfill hopen h.sampling (h.held hopen) hw hlen hleaf

/-- A reply that is a signature. -/
def Reply.Signed (reply : Reply) : Prop := ∃ bytes, reply = .signature bytes

theorem leaves_settle {x : Reentrant K Pid α} {reply : α → Reply}
    {p : Process K Pid (Captured K Pid)}
    (hx : Ends (fun r p' => Leaves (fun a => (reply a).Signed) r p p') x p) :
    Ends (fun r p' => Leaves Reply.Signed r p p') (settle reply x) p := by
  refine ends_onThrow (P := fun r p' => Leaves Reply.Signed r p p') (ends_bind hx
    (fun a p' h' => ⟨h'.saves, h'.changes, fun reply' he hsigned => ?_⟩)
    fun e p' h' => ⟨h'.saves, h'.changes, fun _ he => by cases he⟩)
    (fun _ _ h' => h') fun e p' h' => ⟨h'.saves, h'.changes, fun reply' he hsigned => ?_⟩
  · cases he
    exact h'.signed a rfl hsigned
  · cases he
    obtain ⟨bytes, he⟩ := hsigned
    cases he

theorem leaves_keeps {x : Reentrant K Pid α} {reply : α → Reply}
    {p : Process K Pid (Captured K Pid)} (hx : Moves Keeps x p)
    (hw : Writable p.self.path p.world) (hreply : ∀ a, ¬ (reply a).Signed) :
    Ends (fun r p' => Leaves Reply.Signed r p p') (settle reply x) p :=
  leaves_settle ⟨Keeps.saves hx hw, Keeps.changes hx, fun a _ hsigned => absurd hsigned (hreply a)⟩

/-- The array of the caller that a call signs. -/
def NestedCall.message : NestedCall → Option Ref
  | .sign message => some message
  | .signWithRng message _ => some message
  | _ => none

/-- If the call is a retry, the record is saved. -/
def NestedCall.Covered (c : NestedCall) (p : Process K Pid X) : Prop :=
  ∀ message, c.message = some message → p.Covered message

/-- **What any call between two attempts does to the file.** -/
theorem NestedCall.leaves_run (c : NestedCall) {p : Process K Pid (Captured K Pid)} (h : p.Idle)
    (hw : Writable p.self.path p.world) (hpresent : p.world.content p.self.path ≠ none)
    (hretry : c.Covered p) :
    Ends (fun r p' => Leaves Reply.Signed r p p') c.run p := by
  have hdone : ¬ Reply.done.Signed := by
    rintro ⟨bytes, he⟩
    cases he
  cases c with
  | sign message =>
    rw [NestedCall.run]
    have hsign := signWithRng_leaves silent_fillRandom message h hw (hretry message rfl)
    exact leaves_settle (hsign.imp fun r p' h' =>
      ⟨h'.saves, h'.changes, fun a he _ => h'.signed a he trivial⟩)
  | signWithRng message callbacks =>
    let p₀ : Process K Pid (Captured K Pid) := { p with captured := { p.captured with round := 0 } }
    have hp₀ : p₀.Idle := ⟨h.sampling, h.held⟩
    have hsign := signWithRng_leaves (silent_callbackFill callbacks) message hp₀ hw
      (hretry message rfl)
    have hsettle : Ends (fun r p' => Leaves Reply.Signed r p₀ p')
        (settle (fun sig => .signature (OneTime.toBytes sig))
          (Ts.signWithRng message (callbackFill callbacks))) p₀ :=
      leaves_settle (hsign.imp fun r p' h' =>
        ⟨h'.saves, h'.changes, fun a he _ => h'.signed a he trivial⟩)
    rcases hr : settle (fun sig => .signature (OneTime.toBytes sig))
      (Ts.signWithRng message (callbackFill callbacks)) p₀ with ⟨r, p'⟩
    obtain ⟨hsaves, hchanges, hsigned⟩ := hsettle.along hr
    unfold Ends
    rw [callbackFill] at hr
    rw [NestedCall.run, look_bind]
    unfold setRound
    rw [assign_bind]
    cases r with
    | error e =>
      rw [bind_error hr]
      exact ⟨⟨hsaves.path, hsaves.writable, hsaves.content, hsaves.survives, hsaves.shows⟩,
        hchanges, hsigned⟩
    | ok reply =>
      rw [bind_ok hr]
      exact ⟨⟨hsaves.path, hsaves.writable, hsaves.content, hsaves.survives, hsaves.shows⟩,
        hchanges, hsigned⟩
  | close =>
    rw [NestedCall.run]
    exact leaves_keeps (keeps_close p) hw fun _ => hdone
  | dispose =>
    rw [NestedCall.run]
    exact leaves_keeps (keeps_close p) hw fun _ => hdone
  | requireNextLeafAtLeast minimum =>
    rw [NestedCall.run]
    exact leaves_keeps (keeps_requireNextLeafAtLeast minimum p) hw fun _ => hdone
  | nextLeaf =>
    rw [NestedCall.run]
    refine leaves_keeps (Keeps.refl p) hw fun a => ?_
    rintro ⟨bytes, he⟩
    cases he
  | remaining =>
    rw [NestedCall.run]
    refine leaves_keeps (Keeps.refl p) hw fun a => ?_
    rintro ⟨bytes, he⟩
    cases he
  | verifyingKey =>
    rw [NestedCall.run]
    refine leaves_keeps (Keeps.refl p) hw fun a => ?_
    rintro ⟨bytes, he⟩
    cases he
  | openFile =>
    have hkeeps :
        Moves Keeps (SigningKey.openFile p.self.path : Reentrant K Pid (SigningKey K)) p :=
      ⟨Or.inl (elsewhere_openFile p.self.path p).self, moves_openFile .refl .trans kept_invoke p⟩
    have hleaves := leaves_keeps hkeeps hw fun _ => hdone
    unfold Ends at hleaves ⊢
    rw [NestedCall.run, look_bind]
    exact hleaves
  | create =>
    have hkeeps : Moves Keeps (SigningKey.create p.self.path : Reentrant K Pid (SigningKey K)) p :=
      ⟨Or.inl (elsewhere_create p.self.path p).self, kept_create hw hpresent⟩
    have hleaves := leaves_keeps hkeeps hw fun _ => hdone
    unfold Ends at hleaves ⊢
    rw [NestedCall.run, look_bind]
    exact hleaves

/-! ## Attempts with callbacks -/

/-- The salt that a signed attempt records is accepted at its leaf. -/
theorem Changes.accepted {s s' : SigningKey K} (h : Changes s s') {value : Bytes}
    (hnext : s'.nextLeaf = s.nextLeaf + 1) (hlast : s'.lastMessage = some value) :
    ∃ key, OneTime.verifyingKey s.key = .ok key ∧
      (encode s'.lastSalt (subarrayFrom key.toBytes elementLength) s.nextLeaf value).isSome
        = true := by
  cases h with
  | keep closed h =>
    rw [h] at hnext
    exact absurd hnext (by simp)
  | spend value' sampled closed hsampled h =>
    rw [h] at hlast ⊢
    cases sampled with
    | error e => cases hlast
    | ok salt =>
      cases hlast
      obtain ⟨key, hkey, -, haccepted⟩ := hsampled.accepted salt rfl
      exact ⟨key, hkey, haccepted⟩

/-- What a call of `signWithRng` did, whatever its callbacks tried. -/
structure Undisturbed (message : Ref) (p p' : Process K Pid (Captured K Pid))
    (r : Except Thrown (OneTime.Signature K)) : Prop where
  /-- Nested calls left the signer, the files and the lock alone, and gave back no signature. -/
  nested : Heard p p'
  /-- No callback was called, for one that leaves a trace would show, or one leaf is spent. -/
  leaf : (∀ fill, signWithRng message fill p = (r, p)) ∨ p'.self.nextLeaf = p.self.nextLeaf + 1
  /-- What is signed is the message as it was at the start of the call, and it is recorded. -/
  signed : ∀ sig, r = .ok sig → p'.self.lastMessage = some (p.buffers message) ∧
    OneTime.signAtWithSalt p.self.key (.integer (p'.self.nextLeaf - 1)) (p.buffers message)
      p'.self.lastSalt = .ok sig
  /-- The recorded salt was accepted at the leaf. -/
  accepted : ∀ sig, r = .ok sig → p'.self.nextLeaf = p.self.nextLeaf + 1 →
    ∃ key, OneTime.verifyingKey p.self.key = .ok key ∧
      (encode p'.self.lastSalt (subarrayFrom key.toBytes elementLength) p.self.nextLeaf
        (p.buffers message)).isSome = true
  /-- The key file has this record. -/
  saved : Writable p.self.path p.world → ∀ sig, r = .ok sig →
    p'.self.nextLeaf = p.self.nextLeaf + 1 → p'.Saved
  sampling : p'.self.sampling = false

end SolanaWinternitz.Ts
