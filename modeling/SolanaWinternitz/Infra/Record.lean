import SolanaWinternitz.Infra.Os

/-!
# A record behind a name

A program keeps a record in a file and replaces the file as a whole: it writes a sibling, syncs it,
moves it over the name and syncs the directory. `read` reads a record from bytes, and `after` is the
order in which records replace each other.

* `Still` — work on the sibling leaves the name alone
* `Durable` — a power loss can bring back one file only
* `Evolves` — what one call may do behind the name
* `Sound` — every file that a power loss can bring back holds a record. **Kept by every call and by
  every power loss** (`Sound.evolves`, `Sound.powerLoss`).
-/

namespace Infra.Os

/-- The file once its content is synced. -/
def File.harden (f : File) : File := ⟨f.bytes, true⟩

namespace World

variable {Name Pid : Type} {w w' : World Name Pid} {source target n : Name} {i : Nat} {f : File}
  {x x' : Option File}

/-! ## Work on the sibling -/

/-- At most the entry `source` and its file have changed. -/
structure Still (source target : Name) (w w' : World Name Pid) : Prop where
  ok : w'.Ok
  apart : w'.Apart source target
  locks : w'.locks = w.locks
  dir : ∀ n, n ≠ source → w'.dir n = w.dir n
  content : w'.content target = w.content target
  survives : ∀ x, w'.Survives target x ↔ w.Survives target x

theorem Still.refl (hw : w.Ok) (ha : w.Apart source target) : Still source target w w :=
  ⟨hw, ha, rfl, fun _ _ => rfl, rfl, fun _ => Iff.rfl⟩

theorem Still.trans {w'' : World Name Pid} (h : Still source target w w')
    (h' : Still source target w' w'') : Still source target w w'' where
  ok := h'.ok
  apart := h'.apart
  locks := h'.locks.trans h.locks
  dir n hn := (h'.dir n hn).trans (h.dir n hn)
  content := h'.content.trans h.content
  survives x := (h'.survives x).trans (h.survives x)

theorem Still.setFile (hw : w.Ok) (ha : w.Apart source target) (hi : w.dir source = some i)
    (f : File) : Still source target w (w.setFile i f) where
  ok := hw.setFile i f
  apart := ha
  locks := rfl
  dir _ _ := rfl
  content := content_setFile_of_ne (ha i hi w.dir List.mem_cons_self)
  survives _ := survives_setFile_of_ne (ha i hi)

theorem Still.create [DecidableEq Name] (hw : w.Ok) (ha : w.Apart source target)
    (hne : source ≠ target) : Still source target w (w.create source) where
  ok := hw.create source
  apart := ha.create hw hne source
  locks := rfl
  dir _ hn := Function.update_of_ne hn _ _
  content := content_create_of_ne hw hne.symm
  survives _ := survives_create_of_ne hw hne.symm

/-! ## Durable files -/

/-- A power loss brings back `f` behind the name, whatever else it does. -/
structure Durable (w : World Name Pid) (n : Name) (f : File) : Prop where
  synced : f.synced = true
  survives : ∀ x, w.Survives n x → x = some f

theorem Durable.content (h : w.Durable n f) : w.content n = some f :=
  h.survives _ (survives_content w n)

theorem durable_syncDir (hc : w.content n = some f) (hs : f.synced = true) :
    w.syncDir.Durable n f :=
  ⟨hs, fun _ hx => (survives_syncDir.mp hx).trans hc⟩

/-- Nothing has changed in the directory since it was synced. -/
theorem durable_of_older (h : w.older = []) (hc : w.content n = some f) (hs : f.synced = true) :
    w.Durable n f := by
  have hw : w.syncDir = w := by rw [syncDir, ← h]
  exact hw ▸ durable_syncDir hc hs

/-! ## Records -/

/-- The same file, perhaps synced meanwhile. -/
def Hardens (x x' : Option File) : Prop := x' = x ∨ x' = x.map File.harden

theorem Hardens.of_synced (hf : f.synced = true) (h : Hardens (some f) x') : x' = some f := by
  rcases h with h | h
  · exact h
  · rw [h]
    exact congrArg some (File.mk.injEq .. ▸ ⟨rfl, hf.symm⟩)

variable {ρ : Type} {read : Bytes → Option ρ} {after : ρ → ρ → Prop} {P P' : ρ → Prop}

/-- The record that the next process finds. -/
def visible (read : Bytes → Option ρ) (w : World Name Pid) (n : Name) : Option ρ :=
  (w.content n).bind fun f => read f.bytes

theorem visible_of_content (h : w.content n = some f) : w.visible read n = read f.bytes := by
  rw [visible, h, Option.bind_some]

theorem visible_congr (h : w'.content n = w.content n) : w'.visible read n = w.visible read n := by
  rw [visible, visible, h]

theorem visible_hardens (h : Hardens (w.content n) (w'.content n)) :
    w'.visible read n = w.visible read n := by
  rcases h with h | h
  · exact visible_congr h
  · unfold visible
    rw [h]
    cases w.content n <;> rfl

/-- What one call may do behind a name. -/
inductive Evolves (read : Bytes → Option ρ) (after : ρ → ρ → Prop) (n : Name)
    (w w' : World Name Pid) : Prop where
  /-- No new file. -/
  | keep (content : Hardens (w.content n) (w'.content n))
      (survives : ∀ x', w'.Survives n x' → ∃ x, w.Survives n x ∧ Hardens x x')
  /-- There was no record yet. -/
  | fresh (none : w.visible read n = none)
  /-- A synced file with a later record. -/
  | replace {r r' : ρ} {f : File} (old : w.visible read n = some r)
      (content : w'.content n = some f) (synced : f.synced = true) (new : read f.bytes = some r')
      (after : after r r') (survives : ∀ x, w'.Survives n x → w.Survives n x ∨ x = some f)

theorem Evolves.refl (w : World Name Pid) : Evolves read after n w w :=
  .keep (Or.inl rfl) fun x hx => ⟨x, hx, Or.inl rfl⟩

theorem Evolves.of_eq (hc : w'.content n = w.content n)
    (hs : ∀ x, w'.Survives n x → w.Survives n x) : Evolves read after n w w' :=
  .keep (Or.inl hc) fun x hx => ⟨x, hs x hx, Or.inl rfl⟩

theorem Still.evolves (h : Still source target w w') : Evolves read after target w w' :=
  .of_eq h.content fun x => (h.survives x).mp

theorem evolves_syncDir (w : World Name Pid) : Evolves read after n w w.syncDir :=
  .of_eq rfl fun _ hx => survives_syncDir.mp hx ▸ survives_content w n

theorem evolves_harden (hi : w.dir n = some i) :
    Evolves read after n w (w.setFile i ⟨(w.file i).bytes, true⟩) := by
  have hc : w.content n = some (w.file i) := congrArg (Option.map w.file) hi
  refine .keep (Or.inr ?_) fun x hx => ?_
  · rw [content_setFile_self hi, hc]
    rfl
  · rcases survives_of_setFile hx with hx | rfl
    · exact ⟨x, hx, Or.inl rfl⟩
    · exact ⟨_, survives_content w n, Or.inr (by rw [hc]; rfl)⟩

/-- The move that replaces a record by a later one. -/
theorem evolves_move [DecidableEq Name] {r r' : ρ} (old : w.visible read target = some r)
    (hf : w.file i = f) (synced : f.synced = true) (new : read f.bytes = some r')
    (hafter : after r r') : Evolves read after target w (w.move source target i) := by
  have hc : (w.move source target i).content target = some f := by
    rw [content_move_target, hf]
  exact .replace old hc synced new hafter fun x hx =>
    (survives_move.mp hx).symm.imp id fun he => he.trans hc

/-- **A visible record stays or is replaced by a later one.** -/
theorem Evolves.visible {r : ρ} (h : Evolves read after n w w') (hr : w.visible read n = some r) :
    ∃ r', w'.visible read n = some r' ∧ (r' = r ∨ after r r') := by
  cases h with
  | keep content _ => exact ⟨r, (visible_hardens content).trans hr, Or.inl rfl⟩
  | fresh hn => cases hn.symm.trans hr
  | replace old content _ new hafter _ =>
    cases old.symm.trans hr
    exact ⟨_, (visible_of_content content).trans new, Or.inr hafter⟩

/-! ## Sound names -/

/-- Every file that a power loss can bring back is synced and holds a record with `P`. -/
def Sound (read : Bytes → Option ρ) (P : ρ → Prop) (w : World Name Pid) (n : Name) : Prop :=
  ∀ x, w.Survives n x → ∃ f r, x = some f ∧ f.synced = true ∧ read f.bytes = some r ∧ P r

theorem Sound.visible (h : w.Sound read P n) : ∃ r, w.visible read n = some r ∧ P r := by
  obtain ⟨f, r, hf, -, hr, hP⟩ := h _ (survives_content w n)
  exact ⟨r, (visible_of_content hf).trans hr, hP⟩

theorem Durable.sound {r : ρ} (h : w.Durable n f) (hr : read f.bytes = some r) (hP : P r) :
    w.Sound read P n := fun x hx => ⟨f, r, h.survives x hx, h.synced, hr, hP⟩

theorem Sound.evolves (h : w.Sound read P n) (hw : Evolves read after n w w')
    (hP : ∀ r r', P r → after r r' → P r') : w'.Sound read P n := by
  intro x hx
  cases hw with
  | keep _ survives =>
    obtain ⟨y, hy, hxy⟩ := survives x hx
    obtain ⟨f, r, rfl, hs, hr, hp⟩ := h y hy
    exact ⟨f, r, hxy.of_synced hs, hs, hr, hp⟩
  | fresh hn =>
    obtain ⟨r, hr, -⟩ := h.visible
    cases hn.symm.trans hr
  | replace old _ synced new hafter survives =>
    rcases survives x hx with hx | rfl
    · exact h x hx
    · obtain ⟨r, hr, hp⟩ := h.visible
      cases old.symm.trans hr
      exact ⟨_, _, rfl, synced, new, hP _ _ hp hafter⟩

theorem Sound.powerLoss (h : w.Sound read P n) (version : Nat) (left : Nat → Bytes) :
    (w.powerLoss version left).Sound read P n := by
  intro x hx
  obtain ⟨y, hy, hxy⟩ := survives_powerLoss hx
  obtain ⟨f, r, rfl, hs, hr, hp⟩ := h y hy
  rcases hxy with ⟨hn, -⟩ | ⟨_, g, hf, rfl, hgs, hfg⟩
  · cases hn
  · cases hf
    exact ⟨g, r, rfl, hgs, (hfg hs).symm ▸ hr, hp⟩

/-- A file on the disk of a machine that has just started. -/
theorem sound_boot [DecidableEq Name] {files : List (Name × Bytes)} {r : ρ}
    (hr : (boot files : World Name Pid).visible read n = some r) (hP : P r) :
    (boot files : World Name Pid).Sound read P n := by
  intro x hx
  obtain ⟨v, hv, rfl⟩ := hx
  rw [List.mem_singleton.mp hv]
  obtain ⟨f, hf, hread⟩ := Option.bind_eq_some_iff.mp hr
  obtain ⟨i, -, rfl⟩ := Option.map_eq_some_iff.mp hf
  exact ⟨_, r, hf, rfl, hread, hP⟩

end World

end Infra.Os
