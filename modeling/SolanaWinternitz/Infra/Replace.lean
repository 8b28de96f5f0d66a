import SolanaWinternitz.Infra.Confine
import SolanaWinternitz.Infra.Record

/-!
# Replacing a file

A file is replaced by way of a draft: it is written under another name, synced and moved.

* `replace` — the world after a file was replaced, if no call fails. What a call does when it is
  carried out is stated for each call that this takes
* `acquire` — the world after a lock file was opened and locked
* `Draft`, `Installs` — what is known at each point if calls may fail: **a power loss brings back an
  old file or the whole new one** (`Draft.rename`, `Installs.syncDir`)
* `Fewer` — what calls do that replace nothing
-/

namespace Infra.Os.World

variable {Name Pid E : Type} [DecidableEq Name] {w : World Name Pid} {source target n : Name}
  {i : Nat} {f g : File} {pid : Pid}

/-! ## The file under a name, made if there is none -/

/-- The file under a name once it was opened. -/
def inode (w : World Name Pid) (n : Name) : Nat := (w.dir n).getD w.next

theorem touch_dir_self (w : World Name Pid) (n : Name) : (w.touch n).dir n = some (w.inode n) := by
  unfold touch inode
  cases hd : w.dir n with
  | none =>
    rw [if_pos rfl]
    exact Function.update_self _ _ _
  | some i =>
    rw [if_neg (by simp)]
    exact hd

theorem touch_dir_of_ne {m : Name} (h : m ≠ n) : (w.touch n).dir m = w.dir m := by
  unfold touch
  split
  · exact Function.update_of_ne h _ _
  · rfl

omit [DecidableEq Name] in
theorem setFile_setFile (w : World Name Pid) (i : Nat) (f g : File) :
    (w.setFile i f).setFile i g = w.setFile i g := by
  unfold setFile
  rw [Function.update_idem]

/-- A new file is empty already. -/
theorem touch_setFile_empty (h : w.dir n = none) :
    (w.touch n).setFile (w.inode n) ⟨[], false⟩ = w.create n := by
  have hi : w.inode n = w.next := by
    unfold inode
    rw [h]
    rfl
  rw [touch, if_pos h, hi]
  show World.mk _ _ _ _ _ = World.mk _ _ _ _ _
  congr 1
  exact Function.update_idem _ _ _

theorem still_touch (hw : w.Ok) (ha : w.Apart source target) (hne : source ≠ target) :
    Still source target w (w.touch source) := by
  unfold touch
  split
  · exact .create hw ha hne
  · exact .refl hw ha

/-! ## Calls that are carried out -/

variable (w) (d : Bytes)

theorem exec_ok_openSidecar (pid : Pid) (n : Name) :
    w.exec pid (.ok d : Outcome E) (.openSidecar n) = (.ok (w.inode n), w.touch n) := by
  unfold touch inode
  simp only [exec, attempt]
  cases hd : w.dir n with
  | none => rfl
  | some i => rfl

theorem exec_ok_openTruncate (pid : Pid) (n : Name) :
    w.exec pid (.ok d : Outcome E) (.openTruncate n)
      = (.ok (w.inode n), (w.touch n).setFile (w.inode n) ⟨[], false⟩) := by
  cases hd : w.dir n with
  | none =>
    rw [touch_setFile_empty hd]
    simp only [exec, attempt, inode, hd]
    rfl
  | some i =>
    simp only [exec, attempt, inode, touch, hd]
    rfl

variable {w}

theorem exec_ok_openRead (hi : w.dir n = some i) (pid : Pid) :
    w.exec pid (.ok d : Outcome E) (.openRead n) = (.ok i, w) := by
  simp only [exec, attempt, hi]
  rfl

theorem exec_ok_readExact {fd : Fd} {off k : Nat} (h : off + k ≤ (w.file fd).bytes.length)
    (pid : Pid) : w.exec pid (.ok d : Outcome E) (.readExact fd off k)
      = (.ok (slice (w.file fd).bytes off k), w) := by
  simp only [exec, attempt, if_pos h]
  rfl

theorem exec_ok_tryLock {fd : Fd} (h : w.locks fd = none) (pid : Pid) :
    w.exec pid (.ok d : Outcome E) (.tryLock fd) = (.ok (), w.lock fd pid) := by
  simp only [exec, h]

theorem exec_ok_rename (hi : w.dir source = some i) (pid : Pid) (target : Name) :
    w.exec pid (.ok d : Outcome E) (.rename source target) = (.ok (), w.move source target i) := by
  simp only [exec, attempt, hi]
  rfl

/-! ## Replacing -/

/-- Replace the file under `target` by way of `source`. -/
def replace (w : World Name Pid) (source target : Name) (bytes : Bytes) : World Name Pid :=
  (((w.touch source).setFile (w.inode source) ⟨bytes, true⟩).move source target
    (w.inode source)).syncDir

variable {bytes : Bytes}

theorem content_replace : (w.replace source target bytes).content target = some ⟨bytes, true⟩ := by
  have hmove := content_move_target ((w.touch source).setFile (w.inode source) ⟨bytes, true⟩)
    source target (w.inode source)
  rw [setFile_file_self] at hmove
  exact hmove

theorem replace_locks : (w.replace source target bytes).locks = w.locks := locks_touch w source

theorem replace_dir (hs : n ≠ source) (ht : n ≠ target) :
    (w.replace source target bytes).dir n = w.dir n := by
  show (if n = target then _ else if n = source then _ else (w.touch source).dir n) = _
  rw [if_neg ht, if_neg hs, touch_dir_of_ne hs]

theorem Ok.replace (hw : w.Ok) (ha : w.Apart source target) (hne : source ≠ target)
    (bytes : Bytes) : (w.replace source target bytes).Ok ∧
      (w.replace source target bytes).Apart source target := by
  have htouch := still_touch hw ha hne
  have hfile := htouch.ok.setFile (w.inode source) ⟨bytes, true⟩
  exact ⟨(hfile.move (touch_dir_self w source) target).syncDir, (Apart.move hne).syncDir⟩

/-! ## Locking -/

/-- Open a lock file and lock it. -/
def acquire (w : World Name Pid) (n : Name) (pid : Pid) : World Name Pid :=
  (w.touch n).lock (w.inode n) pid

/-! ## Replacing, with failures -/

variable {d} {o : Outcome E} {w0 w' : World Name Pid} {fd : Fd} {b : Bytes} {synced : Bool}

/-- The draft under `source` is this file; nothing else has changed. -/
structure Draft (source target : Name) (w0 : World Name Pid) (fd : Fd) (f : File)
    (w : World Name Pid) : Prop where
  still : Still source target w0 w
  dir : w.dir source = some fd
  file : w.file fd = f

/-- The file under `target` is the old or the new one, and so is every one that can come back. -/
structure Installs (target : Name) (w0 : World Name Pid) (f : File)
    (w : World Name Pid) : Prop where
  ok : w.Ok
  content : w.content target = w0.content target ∨ w.content target = some f
  survives : ∀ x, w.Survives target x → w0.Survives target x ∨ x = some f

omit [DecidableEq Name] in
theorem Still.installs (h : Still source target w0 w) (f : File) : Installs target w0 f w :=
  ⟨h.ok, Or.inl h.content, fun x hx => Or.inl ((h.survives x).mp hx)⟩

/-- A new draft is empty. -/
theorem draft_openTruncate (hw : w.Ok) (ha : w.Apart source target) (hne : source ≠ target)
    {r : Except IoError Fd} (h : w.exec pid o (.openTruncate source) = (r, w')) :
    Still source target w w' ∧ ∀ fd, r = .ok fd → Draft source target w fd ⟨[], false⟩ w' := by
  obtain ⟨hcases, hopened⟩ := exec_openTruncate h
  have hstill : Still source target w w' := by
    rcases hcases with rfl | ⟨i, hi, rfl⟩ | rfl
    · exact .refl hw ha
    · exact .setFile hw ha hi _
    · exact .create hw ha hne
  refine ⟨hstill, fun fd hfd => ?_⟩
  obtain ⟨hdir, hfile⟩ := hopened fd hfd
  exact ⟨hstill, hdir, hfile⟩

omit [DecidableEq Name] in
theorem Draft.setFile (h : Draft source target w0 fd f w) (g : File) :
    Draft source target w0 fd g (w.setFile fd g) :=
  ⟨h.still.trans (.setFile h.still.ok h.still.apart h.dir g), h.dir, setFile_file_self w fd g⟩

theorem Draft.writeAll (h : Draft source target w0 fd ⟨b, synced⟩ w) {r : Except IoError Unit}
    (hexec : w.exec pid o (.writeAll fd d) = (r, w')) :
    Still source target w0 w' ∧ (r = .ok () → Draft source target w0 fd ⟨b ++ d, false⟩ w') := by
  obtain ⟨done, rfl, hdone⟩ := exec_writeAll hexec
  refine ⟨(h.setFile _).still, fun hr => ?_⟩
  rw [hdone hr, h.file]
  exact h.setFile _

theorem Draft.syncAll (h : Draft source target w0 fd ⟨b, synced⟩ w) {r : Except IoError Unit}
    (hexec : w.exec pid o (.syncAll fd) = (r, w')) :
    Still source target w0 w' ∧ (r = .ok () → Draft source target w0 fd ⟨b, true⟩ w') := by
  obtain ⟨hcases, hsynced⟩ := exec_syncAll hexec
  rw [h.file] at hcases hsynced
  refine ⟨?_, fun hr => ?_⟩
  · rcases hcases with rfl | rfl
    · exact h.still
    · exact (h.setFile _).still
  · rw [hsynced hr]
    exact h.setFile _

/-- **Moving the draft** puts the new file in place, or leaves the old one. -/
theorem Draft.rename (h : Draft source target w0 fd f w) (hne : source ≠ target)
    {r : Except IoError Unit} (hexec : w.exec pid o (.rename source target) = (r, w')) :
    Installs target w0 f w' ∧ w'.Apart source target
      ∧ (r = .ok () → w'.content target = some f) := by
  obtain ⟨hcases, hmoved⟩ := exec_rename h.dir hexec
  have hcontent : (w.move source target fd).content target = some f := by
    rw [content_move_target, h.file]
  have hinstalls : Installs target w0 f (w.move source target fd) := by
    refine ⟨h.still.ok.move h.dir target, Or.inr hcontent, fun x hx => ?_⟩
    rcases survives_move.mp hx with rfl | hx
    · exact Or.inr hcontent
    · exact Or.inl ((h.still.survives x).mp hx)
  refine ⟨?_, ?_, fun hr => ?_⟩
  · rcases hcases with rfl | rfl
    · exact h.still.installs f
    · exact hinstalls
  · rcases hcases with rfl | rfl
    · exact h.still.apart
    · exact .move hne
  · rw [hmoved hr]
    exact hcontent

/-- **Syncing the directory** makes the new file the only one that can come back. -/
theorem Installs.syncDir (h : Installs target w0 f w) (hcontent : w.content target = some f)
    (hf : f.synced = true) {r : Except IoError Unit} (hexec : w.exec pid o .syncDir = (r, w')) :
    Installs target w0 f w' ∧ (w' = w ∨ w' = w.syncDir) ∧ (r = .ok () → w'.Durable target f) := by
  obtain ⟨hcases, hsynced⟩ := exec_syncDir hexec
  refine ⟨?_, hcases, fun hr => ?_⟩
  · rcases hcases with rfl | rfl
    · exact h
    · refine ⟨h.ok.syncDir, h.content, fun x hx => ?_⟩
      exact Or.inr ((survives_syncDir.mp hx).trans hcontent)
  · rw [hsynced hr]
    exact durable_syncDir hcontent hf

/-! ## Calls that replace nothing -/

/-- A call that puts no file behind this name. -/
def Passive (target : Name) : Call Name → Prop
  | .openSidecar n => n ≠ target
  | .tryLock _ | .openRead _ | .fileLen _ | .readExact _ _ _ | .syncDir | .close _ | .release _
  | .random _ | .fill _ => True
  | .createNew _ | .openTruncate _ | .writeAll _ _ | .syncAll _ | .rename _ _ => False

/-- The file under `target` stays, no other one can come back, and it can still be replaced. -/
structure Fewer (source target : Name) (w w' : World Name Pid) : Prop where
  ok : w'.Ok
  apart : w'.Apart source target
  content : w'.content target = w.content target
  survives : ∀ x, w'.Survives target x → w.Survives target x

omit [DecidableEq Name] in
theorem Fewer.refl (hw : w.Ok) (ha : w.Apart source target) : Fewer source target w w :=
  ⟨hw, ha, rfl, fun _ hx => hx⟩

omit [DecidableEq Name] in
theorem Fewer.trans {w'' : World Name Pid} (h : Fewer source target w w')
    (h' : Fewer source target w' w'') : Fewer source target w w'' :=
  ⟨h'.ok, h'.apart, h'.content.trans h.content, fun x hx => h.survives x (h'.survives x hx)⟩

/-- **Such a call brings no other file back.** -/
theorem fewer_exec (hw : w.Ok) (ha : w.Apart source target) (hne : source ≠ target) {c : Call Name}
    (hc : Passive target c) : Fewer source target w (w.exec pid o c).2 := by
  have heffect : Effect pid w c (w.exec pid o c).2 := exec_effect c
  revert heffect
  generalize (w.exec pid o c).2 = w'
  intro heffect
  cases heffect with
  | nothing => exact .refl hw ha
  | openSidecar =>
    exact ⟨hw.create _, ha.create hw hne _, content_create_of_ne hw (Ne.symm hc),
      fun x => (survives_create_of_ne hw (Ne.symm hc)).mp⟩
  | syncDir =>
    exact ⟨hw.syncDir, ha.syncDir, rfl,
      fun x hx => survives_syncDir.mp hx ▸ survives_content w target⟩
  | lock _ => exact ⟨⟨hw.lt_next, hw.injective⟩, ha, rfl, fun _ hx => hx⟩
  | release => exact ⟨⟨hw.lt_next, hw.injective⟩, ha, rfl, fun _ hx => hx⟩
  | createNew => exact hc.elim
  | openTruncate => exact hc.elim
  | truncate _ _ => exact hc.elim
  | write _ => exact hc.elim
  | sync _ => exact hc.elim
  | move _ => exact hc.elim

/-- Every call but a move leaves the files of the two names apart. -/
theorem apart_exec (hw : w.Ok) (ha : w.Apart source target) (hne : source ≠ target) {c : Call Name}
    (hc : ∀ n m, c ≠ .rename n m) :
    (w.exec pid o c).2.Ok ∧ (w.exec pid o c).2.Apart source target := by
  have heffect : Effect pid w c (w.exec pid o c).2 := exec_effect c
  revert heffect
  generalize (w.exec pid o c).2 = w'
  intro heffect
  cases heffect with
  | nothing => exact ⟨hw, ha⟩
  | openSidecar => exact ⟨hw.create _, ha.create hw hne _⟩
  | createNew => exact ⟨hw.create _, ha.create hw hne _⟩
  | openTruncate => exact ⟨hw.create _, ha.create hw hne _⟩
  | truncate _ f => exact ⟨hw.setFile _ f, ha⟩
  | write f => exact ⟨hw.setFile _ f, ha⟩
  | sync f => exact ⟨hw.setFile _ f, ha⟩
  | move _ => exact absurd rfl (hc _ _)
  | syncDir => exact ⟨hw.syncDir, ha.syncDir⟩
  | lock _ => exact ⟨⟨hw.lt_next, hw.injective⟩, ha⟩
  | release => exact ⟨⟨hw.lt_next, hw.injective⟩, ha⟩

/-- A file that was just made is a draft. -/
theorem draft_createNew (hw : w.Ok) (hne : source ≠ target) {r : Except IoError Fd}
    (h : w.exec pid o (.createNew source) = (r, w')) : ∀ fd, r = .ok fd →
      w.content source = none ∧ Draft source target w' fd ⟨[], false⟩ w' := by
  intro fd hfd
  obtain ⟨hnone, rfl, rfl⟩ := (exec_createNew h).2 fd hfd
  have hapart : w.Apart source target := fun i hi => by
    rw [hnone] at hi
    cases hi
  refine ⟨by rw [content, hnone]; rfl,
    .refl (hw.create source) (hapart.create hw hne source), ?_, ?_⟩
  · exact Function.update_self _ _ _
  · exact Function.update_self _ _ _

omit [DecidableEq Name] in
theorem Draft.content (h : Draft source target w0 fd f w) : w.content source = some f := by
  rw [World.content, h.dir, Option.map_some, h.file]

end Infra.Os.World
