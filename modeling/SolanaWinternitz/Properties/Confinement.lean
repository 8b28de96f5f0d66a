import SolanaWinternitz.Infra.Confine
import SolanaWinternitz.Properties.Machine

/-!
# The names that a signer uses

A signer of a path uses the path, its `.tmp` and its `.lock`, and no file but those that it has
opened. Once it holds the lock it does without the `.lock`, and neither locks nor unlocks.
-/

namespace SolanaWinternitz

open Infra Infra.Os

/-- The names that the signers of a path use. -/
def namesOf (path : String) : Set String := {path, sibling path ".tmp", sibling path ".lock"}

/-- A call of a signer of the path. -/
def Uses (path : String) (c : Call String) (F : Set Fd) : Prop := c.Within (namesOf path) F

/-- A call of the signer that holds the lock. -/
def Works (path : String) (c : Call String) (F : Set Fd) : Prop :=
  c.Within {path, sibling path ".tmp"} F ∧ c.Quiet

theorem Works.uses {path : String} {c : Call String} {F : Set Fd} (h : Works path c F) :
    Uses path c F := by
  refine Call.Within.mono h.1 fun n hn => ?_
  rcases hn with rfl | rfl
  · exact Or.inl rfl
  · exact Or.inr (Or.inl rfl)

variable [Keccak] {K : Type} [OneTime K] {path : String} {α β : Type} {F : Set Fd}

/-! ## Rules -/

omit [Keccak] in
theorem confined_orFail {P : Call String → Set Fd → Prop} {ε : Type} {p : Action (Except ε α)}
    {f : ε → SigningError} {Q : Except SigningError α → Set Fd → Prop}
    (h : Confined P p (fun r F' => Q (r.mapError f) F') F) : Confined P (orFail f p).run Q F :=
  Confined.bind _ h

/-- What a program returns, if it returns something, and the files that are open then. -/
def Succeeds (Q : α → Set Fd → Prop) (r : Except SigningError α) (F : Set Fd) : Prop :=
  ∀ a, r = .ok a → Q a F

omit [Keccak] in
theorem succeeds_error {Q : α → Set Fd → Prop} (e : SigningError) (F : Set Fd) :
    Succeeds Q (.error e) F := fun _ he => by cases he

omit [Keccak] in
theorem Succeeds.ok {Q : α → Set Fd → Prop} {a : α} (h : Q a F) : Succeeds Q (.ok a) F :=
  fun _ he => Except.ok.inj he ▸ h

omit [Keccak] in
/-- A program of which an error ends the whole. -/
theorem confined_bindExcept {P : Call String → Set Fd → Prop} {p : Fallible α}
    {f : α → Fallible β} {Q : β → Set Fd → Prop}
    (h : Confined P p.run (Succeeds fun a F' => Confined P (f a).run (Succeeds Q) F') F) :
    Confined P (p >>= f).run (Succeeds Q) F :=
  Confined.bindExcept succeeds_error h

omit [Keccak] in
/-- One program after another. -/
theorem confined_then {P : Call String → Set Fd → Prop} {p : Fallible α} {f : α → Fallible β}
    {Q : α → Set Fd → Prop} {Q' : β → Set Fd → Prop} (hp : Confined P p.run (Succeeds Q) F)
    (hf : ∀ a F', Q a F' → Confined P (f a).run (Succeeds Q') F') :
    Confined P (p >>= f).run (Succeeds Q') F :=
  confined_bindExcept (hp.imp (fun _ _ h => h) fun _ F' hr a he => hf a F' (hr a he))

omit [Keccak] in
theorem succeeds_mapError {ε : Type} {r : Except ε α} {f : ε → SigningError}
    {Q : α → Set Fd → Prop} (h : ∀ a, r = .ok a → Q a F) : Succeeds Q (r.mapError f) F := by
  cases r with
  | ok a => exact .ok (h a rfl)
  | error e => exact succeeds_error _ _

/-! ## The functions -/

/-- A source of random bytes opens nothing. -/
def Sourced (path : String) (fill : FillSource) : Prop :=
  ∀ n F, Confined (Works path) (fill n).run (Succeeds fun _ F' => F ⊆ F') F

omit [Keccak] in
theorem sourced_osFill : Sourced path osFill := fun _ _ =>
  confined_orFail ⟨⟨trivial, trivial⟩, fun _ => succeeds_mapError fun _ _ => Set.subset_union_left⟩

omit [Keccak] in
theorem sourced_callerFill : Sourced path callerFill := fun _ _ =>
  confined_orFail ⟨⟨trivial, trivial⟩, fun _ => succeeds_mapError fun _ _ => Set.subset_union_left⟩

theorem confined_sampleTrials {fill : FillSource} (hfill : Sourced path fill)
    (parameter : Parameter) (leaf : UInt32) (message : Message) : ∀ (trials : Nat) (F : Set Fd),
    Confined (Works path) (sampleTrials parameter leaf message fill trials).run
      (Succeeds fun _ F' => F ⊆ F') F
  | 0, F => succeeds_error _ F
  | trials + 1, F => by
    refine confined_then (hfill saltLength F) fun salt F' hsub => ?_
    by_cases hx : ((encode salt parameter leaf message).eval keccak256).isSome = true
    · rw [if_pos hx]
      exact .ok hsub
    · rw [if_neg hx]
      exact (confined_sampleTrials hfill parameter leaf message trials F').imp (fun _ _ h => h)
        fun r F'' hr a he => hsub.trans (hr a he)

theorem confined_writeRecord (signer : SigningKey K) {fd : Fd} (hfd : fd ∈ F) :
    Confined (Works path) (signer.writeRecord fd).run (Succeeds fun _ F' => F ⊆ F') F := by
  refine confined_bindExcept (confined_orFail ⟨⟨hfd, trivial⟩, fun r =>
    succeeds_mapError fun _ _ => ?_⟩)
  refine confined_orFail ⟨⟨Or.inl hfd, trivial⟩, fun r => succeeds_mapError fun _ _ => ?_⟩
  exact Set.subset_union_left.trans Set.subset_union_left

omit [Keccak] in
theorem confined_syncDir (F : Set Fd) :
    Confined (Works path) syncDir.run (Succeeds fun _ F' => F ⊆ F') F :=
  confined_orFail ⟨⟨trivial, trivial⟩, fun _ => succeeds_mapError fun _ _ => Set.subset_union_left⟩

theorem confined_write (signer : SigningKey K) (hpath : signer.path = path) (F : Set Fd) :
    Confined (Works path) signer.write.run (Succeeds fun _ _ => True) F := by
  unfold SigningKey.write
  rw [hpath]
  refine confined_bindExcept (confined_orFail ⟨⟨Or.inr rfl, trivial⟩, fun r =>
    succeeds_mapError fun fd hr => ?_⟩)
  have hfd : fd ∈ F ∪ (Call.openTruncate (sibling path ".tmp")).opened r := Or.inr hr
  refine confined_then (confined_writeRecord signer hfd) fun u F' hsub => ?_
  refine confined_bindExcept (confined_orFail ⟨⟨hsub hfd, trivial⟩, fun r =>
    succeeds_mapError fun _ _ => ?_⟩)
  refine confined_bindExcept (confined_orFail ⟨⟨⟨Or.inr rfl, Or.inl rfl⟩, trivial⟩, fun r =>
    succeeds_mapError fun _ _ => ?_⟩)
  exact (confined_syncDir _).imp (fun _ _ h => h) fun r F' _ _ _ => trivial

/-- A signer of the path. -/
def AtPath (path : String) (signer : SigningKey K) (_ : Set Fd) : Prop := signer.path = path

theorem confined_createLocked (lock : Fd) (F : Set Fd) : Confined (Works path)
    (SigningKey.createLocked K path lock).run (Succeeds (AtPath path)) F := by
  unfold SigningKey.createLocked
  refine confined_bindExcept (confined_orFail ⟨⟨Or.inl rfl, trivial⟩, fun r =>
    succeeds_mapError fun fd hr => ?_⟩)
  have hfd : fd ∈ F ∪ (Call.createNew path).opened r := Or.inr hr
  refine confined_then (sourced_osFill _ _) fun secrets F1 hsub => ?_
  refine confined_then (sourced_osFill _ _) fun parameter F2 hsub' => ?_
  have hfd2 := hsub' (hsub hfd)
  dsimp only
  cases (OneTime.fromSecrets (K := K) secrets.toList parameter).eval keccak256 with
  | error e => exact succeeds_error _ _
  | ok key =>
    refine confined_then (confined_writeRecord _ hfd2) fun u F3 hsub => ?_
    refine confined_bindExcept (confined_orFail ⟨⟨hsub hfd2, trivial⟩, fun r =>
      succeeds_mapError fun _ _ => ?_⟩)
    exact confined_then (confined_syncDir _) fun _ _ _ => .ok rfl

theorem confined_openLocked (lock : Fd) (F : Set Fd) : Confined (Works path)
    (SigningKey.openLocked K path lock).run (Succeeds (AtPath path)) F := by
  unfold SigningKey.openLocked
  refine confined_bindExcept (confined_orFail ⟨⟨Or.inl rfl, trivial⟩, fun r =>
    succeeds_mapError fun fd hr => ?_⟩)
  have hfd : fd ∈ F ∪ (Call.openRead path).opened r := Or.inr hr
  refine confined_bindExcept (confined_orFail ⟨⟨hfd, trivial⟩, fun r =>
    succeeds_mapError fun len _ => ?_⟩)
  by_cases hlen : len ≠ Layout.secrets + SigningKey.secretsLen K
  · rw [if_pos hlen]
    exact succeeds_error _ _
  rw [if_neg hlen]
  refine confined_bindExcept (confined_orFail ⟨⟨Or.inl hfd, trivial⟩, fun r =>
    succeeds_mapError fun header _ => ?_⟩)
  dsimp only
  by_cases hrejected : Header.rejected header (OneTime.height K) (OneTime.leaves K) = true
  · rw [if_pos hrejected]
    exact succeeds_error _ _
  rw [if_neg hrejected]
  refine confined_bindExcept (confined_orFail ⟨⟨Or.inl (Or.inl hfd), trivial⟩, fun r =>
    succeeds_mapError fun secrets _ => ?_⟩)
  cases (OneTime.fromSecrets (K := K) secrets.toList (Header.parameter header)).eval keccak256 with
  | error e => exact succeeds_error _ _
  | ok key => exact .ok rfl

theorem confined_afterLock (opening : Bool) (fd : Fd) (F : Set Fd) : Confined (Works path)
    (Machine.afterLock K path opening fd).run (Succeeds (AtPath path)) F := by
  cases opening with
  | true => exact confined_openLocked fd F
  | false => exact confined_createLocked fd F

/-- What a function that signs leaves. -/
def LeavesAt (path : String) (r : Except SigningError (OneTime.Signature K) × SigningKey K)
    (_ : Set Fd) : Prop := r.2.path = path

theorem confined_signWithRng (signer : SigningKey K) (hpath : signer.path = path)
    (message : Message) {fill : FillSource} (hfill : Sourced path fill) (F : Set Fd) :
    Confined (Works path) (signer.signWithRng message fill) (LeavesAt path) F := by
  unfold SigningKey.signWithRng
  by_cases hfailed : signer.failed = true
  · rw [if_pos hfailed]
    exact hpath
  rw [if_neg hfailed]
  by_cases hretry : signer.lastMessage = some message
  · rw [if_pos hretry]
    exact hpath
  rw [if_neg hretry]
  by_cases hspent : signer.nextLeaf ≥ OneTime.leaves K
  · rw [if_pos hspent]
    exact hpath
  rw [if_neg hspent]
  refine Confined.bind _ ((confined_sampleTrials hfill _ _ _ maxTrials F).imp (fun _ _ h => h)
    fun sampled F' _ => ?_)
  refine Confined.bind _ ((confined_write (signer.advance message sampled) hpath F').imp
    (fun _ _ h => h) fun written F'' _ => ?_)
  cases written with
  | error e => exact hpath
  | ok u =>
    cases sampled with
    | error e => exact hpath
    | ok salt => exact hpath

/-- **`create` and `open` use the names of the path only.** -/
theorem confined_begin (opening : Bool) :
    Confined (Uses path) (Machine.begin K path opening) (Succeeds (AtPath path)) ∅ := by
  refine ⟨Or.inr (Or.inr rfl), fun r => ?_⟩
  change Except IoError Fd at r
  cases r with
  | error kind => exact succeeds_error _ _
  | ok fd =>
    refine ⟨Or.inr rfl, fun r => ?_⟩
    change Except TryLockError Unit at r
    cases r with
    | ok u => exact (confined_afterLock opening fd _).imp (fun _ _ h => h.uses) fun _ _ h => h
    | error e =>
      cases e with
      | wouldBlock => exact succeeds_error _ _
      | error kind => exact succeeds_error _ _

end SolanaWinternitz
