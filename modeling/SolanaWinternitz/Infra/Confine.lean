import SolanaWinternitz.Infra.Os
import SolanaWinternitz.Infra.Prog

/-!
# Programs that keep to their own files

A program is confined to a set of names if its calls name nothing else and use only files that it
has opened. Two parties that are confined to different names do not notice each other.

* `Confined` — the logic, with the rules of sequencing
* `exec_outside` — a call that is confined to other names leaves a party's names, files and locks
  alone
* `exec_inside` — **a call that is confined to a party's names sees and changes only these**: two
  worlds that agree on them give the same answer and still agree
-/

namespace Infra.Os

variable {Name Pid E α β : Type}

/-! ## The logic -/

/-- The files that an answer gives access to. -/
def Call.opened : (c : Call Name) → Answer E c → Set Fd
  | .openSidecar _, r | .createNew _, r | .openRead _, r | .openTruncate _, r =>
    {fd | (r : Except IoError Fd) = .ok fd}
  | _, _ => ∅

/-- The names and the open files of a call are among these. -/
def Call.Within (names : Set Name) (files : Set Fd) : Call Name → Prop
  | .openSidecar n | .createNew n | .openRead n | .openTruncate n => n ∈ names
  | .tryLock fd | .fileLen fd | .readExact fd _ _ | .writeAll fd _ | .syncAll fd | .close fd
  | .release fd => fd ∈ files
  | .rename source target => source ∈ names ∧ target ∈ names
  | .syncDir | .random _ | .fill _ => True

theorem Call.Within.mono {names names' : Set Name} {files : Set Fd} {c : Call Name}
    (h : c.Within names files) (hnames : names ⊆ names') : c.Within names' files := by
  cases c with
  | openSidecar n => exact hnames h
  | createNew n => exact hnames h
  | openRead n => exact hnames h
  | openTruncate n => exact hnames h
  | rename source target => exact ⟨hnames h.1, hnames h.2⟩
  | _ => exact h

/-- The call does not lock or unlock. -/
def Call.Quiet : Call Name → Prop
  | .tryLock _ | .release _ => False
  | _ => True

/-- Every call has `P`, given the files that were opened so far, and `Q` holds at the end. -/
def Confined (P : Call Name → Set Fd → Prop) :
    Prog (Call Name) (Answer E) α → (α → Set Fd → Prop) → Set Fd → Prop
  | .ret a, Q, F => Q a F
  | .call c k, Q, F => P c F ∧ ∀ r, Confined P (k r) Q (F ∪ c.opened r)

namespace Confined

variable {P P' : Call Name → Set Fd → Prop} {F : Set Fd}

theorem bind (f : α → Prog (Call Name) (Answer E) β) {Q : β → Set Fd → Prop} :
    ∀ {p : Prog (Call Name) (Answer E) α} {F : Set Fd},
      Confined P p (fun a F' => Confined P (f a) Q F') F → Confined P (p >>= f) Q F
  | .ret _, _, h => h
  | .call _ _, _, h => ⟨h.1, fun r => bind f (h.2 r)⟩

theorem bindExcept {ε : Type} {p : ExceptT ε (Prog (Call Name) (Answer E)) α}
    {f : α → ExceptT ε (Prog (Call Name) (Answer E)) β} {Q : Except ε β → Set Fd → Prop}
    (herror : ∀ e F, Q (.error e) F)
    (h : Confined P p.run (fun r F' => ∀ a, r = .ok a → Confined P (f a).run Q F') F) :
    Confined P (p >>= f).run Q F := by
  rw [ExceptT.run_bind]
  refine bind _ ?_
  revert h
  generalize p.run = p
  induction p generalizing F with
  | ret r =>
    intro h
    cases r with
    | ok a => exact h a rfl
    | error e => exact herror e F
  | call c k ih => exact fun h => ⟨h.1, fun r => ih r (h.2 r)⟩

theorem imp {Q Q' : α → Set Fd → Prop} (hP : ∀ c F, P c F → P' c F) (hQ : ∀ a F, Q a F → Q' a F) :
    ∀ {p : Prog (Call Name) (Answer E) α} {F : Set Fd}, Confined P p Q F → Confined P' p Q' F
  | .ret a, F, h => hQ a F h
  | .call _ _, _, h => ⟨hP _ _ h.1, fun r => imp hP hQ (h.2 r)⟩

end Confined

/-! ## What a call can do -/

namespace World

variable [DecidableEq Name] {w w' : World Name Pid} {n : Name} {i : Nat} {pid q : Pid}
  {o : Outcome E} {c : Call Name}

/-- What a call may do to the world. -/
inductive Effect (pid : Pid) (w : World Name Pid) : Call Name → World Name Pid → Prop where
  | nothing {c : Call Name} : Effect pid w c w
  | openSidecar {n : Name} : Effect pid w (.openSidecar n) (w.create n)
  | createNew {n : Name} : Effect pid w (.createNew n) (w.create n)
  | openTruncate {n : Name} : Effect pid w (.openTruncate n) (w.create n)
  | truncate {n : Name} {i : Nat} (hi : w.dir n = some i) (f : File) :
      Effect pid w (.openTruncate n) (w.setFile i f)
  | write {fd : Fd} {bytes : Bytes} (f : File) :
      Effect pid w (.writeAll fd bytes) (w.setFile fd f)
  | sync {fd : Fd} (f : File) : Effect pid w (.syncAll fd) (w.setFile fd f)
  | move {source target : Name} {i : Nat} (hi : w.dir source = some i) :
      Effect pid w (.rename source target) (w.move source target i)
  | syncDir : Effect pid w .syncDir w.syncDir
  | lock {fd : Fd} (hfree : w.locks fd = none) : Effect pid w (.tryLock fd) (w.lock fd pid)
  | release {fd : Fd} : Effect pid w (.release fd) (w.release fd)

omit [DecidableEq Name] in
/-- A file call takes effect or not. -/
theorem attempt_rule {T : World Name Pid → Prop} {done : Except IoError α × World Name Pid}
    (h : T w) (hdone : T done.2) : T (w.attempt o done).2 := by
  cases o with
  | fail kind late left =>
    cases late with
    | false => exact h
    | true => exact hdone
  | _ => exact hdone

/-- **Every call has one of these effects.** -/
theorem exec_effect (c : Call Name) : Effect pid w c (w.exec pid o c).2 := by
  cases c with
  | openSidecar n =>
    refine attempt_rule (T := Effect pid w _) .nothing ?_
    cases w.dir n with
    | some i => exact .nothing
    | none => exact .openSidecar
  | createNew n =>
    refine attempt_rule (T := Effect pid w _) .nothing ?_
    cases w.dir n with
    | some i => exact .nothing
    | none => exact .createNew
  | openRead n =>
    refine attempt_rule (T := Effect pid w _) .nothing ?_
    cases w.dir n with
    | some i => exact .nothing
    | none => exact .nothing
  | openTruncate n =>
    refine attempt_rule (T := Effect pid w _) .nothing ?_
    cases hi : w.dir n with
    | some i => exact .truncate hi _
    | none => exact .openTruncate
  | readExact fd off len =>
    refine attempt_rule (T := Effect pid w _) .nothing ?_
    split
    · exact .nothing
    · exact .nothing
  | rename source target =>
    refine attempt_rule (T := Effect pid w _) .nothing ?_
    cases hi : w.dir source with
    | some i => exact .move hi
    | none => exact .nothing
  | tryLock fd =>
    have hexec : w.exec pid o (.tryLock fd)
      = ((w.exec pid o (.tryLock fd)).1, (w.exec pid o (.tryLock fd)).2) := rfl
    rcases exec_tryLock hexec with ⟨-, hfree, hw⟩ | ⟨-, hw⟩
    · rw [hw]
      exact .lock hfree
    · rw [hw]
      exact .nothing
  | writeAll fd bytes =>
    cases o with
    | _ => exact .write _
  | random len =>
    cases o with
    | _ => exact .nothing
  | fill len =>
    cases o with
    | _ => exact .nothing
  | fileLen fd => exact attempt_rule (T := Effect pid w _) .nothing .nothing
  | close fd => exact attempt_rule (T := Effect pid w _) .nothing .nothing
  | syncAll fd => exact attempt_rule (T := Effect pid w _) .nothing (.sync _)
  | syncDir => exact attempt_rule (T := Effect pid w _) .nothing .syncDir
  | release fd => exact attempt_rule (T := Effect pid w _) .nothing .release

theorem Effect.next (h : Effect pid w c w') : w.next ≤ w'.next := by
  cases h with
  | openSidecar => exact Nat.le_succ _
  | createNew => exact Nat.le_succ _
  | openTruncate => exact Nat.le_succ _
  | _ => exact le_refl _

/-- Names that a call does not use stay as they are. -/
theorem Effect.dir (h : Effect pid w c w') {N : Set Name} {F : Set Fd} (hc : c.Within N F)
    (hn : n ∉ N) : w'.dir n = w.dir n := by
  have hne : ∀ {m}, m ∈ N → n ≠ m := fun hm he => hn (he ▸ hm)
  cases h with
  | openSidecar => exact Function.update_of_ne (hne hc) _ _
  | createNew => exact Function.update_of_ne (hne hc) _ _
  | openTruncate => exact Function.update_of_ne (hne hc) _ _
  | move hi => simp only [World.move, World.setDir, if_neg (hne hc.1), if_neg (hne hc.2)]
  | _ => rfl

/-- A call that does not lock or unlock leaves the locks as they are. -/
theorem Effect.locks (h : Effect pid w c w') (hc : c.Quiet) : w'.locks = w.locks := by
  cases h with
  | lock hfree => exact hc.elim
  | release => exact hc.elim
  | _ => rfl

/-- A lock after a call was there before or is the caller's. -/
theorem Effect.lock_cases (h : Effect pid w c w') (hq : w'.locks i = some q) :
    w.locks i = some q ∨ q = pid := by
  cases h with
  | lock hfree =>
    rcases of_lock_locks hq with ⟨-, rfl⟩ | hq
    · exact Or.inr rfl
    · exact Or.inl hq
  | @release fd =>
    change Function.update w.locks fd none i = some q at hq
    by_cases hi : i = fd
    · rw [hi, Function.update_self] at hq
      cases hq
    · rw [Function.update_of_ne hi] at hq
      exact Or.inl hq
  | _ => exact Or.inl hq

/-- An open file has one of the names of the call. -/
theorem exec_opened {N : Set Name} {F : Set Fd} {fd : Fd} (hc : c.Within N F) {r : Answer E c}
    (hexec : w.exec pid o c = (r, w')) (hfd : fd ∈ c.opened r) : ∃ n ∈ N, w'.dir n = some fd := by
  cases c with
  | openSidecar n => exact ⟨n, hc, (exec_openSidecar hexec).2.1 fd hfd⟩
  | createNew n =>
    obtain ⟨-, rfl, rfl⟩ := (exec_createNew hexec).2 fd hfd
    exact ⟨n, hc, Function.update_self _ _ _⟩
  | openRead n =>
    obtain ⟨rfl, hr | ⟨-, e, he⟩⟩ := exec_openRead hexec
    · have hok := hr.symm.trans hfd
      cases hi : w'.dir n with
      | some i =>
        rw [hi] at hok
        exact ⟨n, hc, hi.trans (congrArg some (Except.ok.inj hok))⟩
      | none =>
        rw [hi] at hok
        cases hok
    · cases he.symm.trans hfd
  | openTruncate n => exact ⟨n, hc, ((exec_openTruncate hexec).2 fd hfd).1⟩
  | _ => exact absurd hfd (Set.notMem_empty fd)

end World

/-! ## Two worlds -/

namespace World

variable {N : Set Name} {I : Set Nat} {w w' w1 : World Name Pid} {n source target : Name} {i : Nat}
  {f : File}

/-- The names in `N` are those of the files in `I`, and other names are of other files. -/
structure Tagged (N : Set Name) (I : Set Nat) (w : World Name Pid) : Prop where
  lt_next : ∀ n i, w.dir n = some i → i < w.next
  mem_iff : ∀ n i, w.dir n = some i → (i ∈ I ↔ n ∈ N)
  owned : ∀ i ∈ I, i < w.next
  unlocked : ∀ i, w.next ≤ i → w.locks i = none

/-- The two worlds agree on these names and files. -/
structure SameAt (N : Set Name) (I : Set Nat) (w w' : World Name Pid) : Prop where
  dir : ∀ n ∈ N, w'.dir n = w.dir n
  file : ∀ i ∈ I, w'.file i = w.file i
  locks : ∀ i ∈ I, w'.locks i = w.locks i

theorem SameAt.content (h : SameAt N I w w') (ht : Tagged N I w) (hn : n ∈ N) :
    w'.content n = w.content n := by
  unfold World.content
  rw [h.dir n hn]
  cases hi : w.dir n with
  | none => rfl
  | some i => exact congrArg some (h.file i ((ht.mem_iff n i hi).mpr hn))

/-- What a step elsewhere does: nothing to these names and files. -/
structure Elsewhere (N : Set Name) (I : Set Nat) (w w' : World Name Pid) : Prop where
  tagged : Tagged N I w'
  same : SameAt N I w w'
  next : w.next ≤ w'.next

theorem Elsewhere.refl (h : Tagged N I w) : Elsewhere N I w w :=
  ⟨h, ⟨fun _ _ => rfl, fun _ _ => rfl, fun _ _ => rfl⟩, le_refl _⟩

theorem Elsewhere.setFile (h : Tagged N I w) (hi : i ∉ I) (f : File) :
    Elsewhere N I w (w.setFile i f) := by
  refine ⟨⟨h.lt_next, h.mem_iff, h.owned, h.unlocked⟩,
    ⟨fun _ _ => rfl, fun j hj => ?_, fun _ _ => rfl⟩, le_refl _⟩
  have hne : j ≠ i := fun he => hi (he ▸ hj)
  exact Function.update_of_ne hne _ _

theorem Elsewhere.syncDir (h : Tagged N I w) : Elsewhere N I w w.syncDir :=
  ⟨⟨h.lt_next, h.mem_iff, h.owned, h.unlocked⟩,
    ⟨fun _ _ => rfl, fun _ _ => rfl, fun _ _ => rfl⟩, le_refl _⟩

/-- An open file is locked or unlocked. -/
theorem Elsewhere.setLock (h : Tagged N I w) (hi : i ∉ I ∧ i < w.next) (x : Option Pid) :
    Elsewhere N I w { w with locks := Function.update w.locks i x } := by
  refine ⟨⟨h.lt_next, h.mem_iff, h.owned, fun j hj => ?_⟩, ⟨fun _ _ => rfl, fun _ _ => rfl,
    fun j hj => ?_⟩, le_refl _⟩
  · have hne : j ≠ i := fun he => absurd (he ▸ hj) (Nat.not_le.mpr hi.2)
    exact (Function.update_of_ne hne _ _).trans (h.unlocked j hj)
  · have hne : j ≠ i := fun he => hi.1 (he ▸ hj)
    exact Function.update_of_ne hne _ _

/-- The end of a process that has no lock of these files. -/
theorem Elsewhere.unlock [DecidableEq Pid] (h : Tagged N I w) {pid : Pid}
    (hpid : ∀ i ∈ I, w.locks i ≠ some pid) : Elsewhere N I w (w.unlock pid) := by
  refine ⟨⟨h.lt_next, h.mem_iff, h.owned, fun i hi => ?_⟩,
    ⟨fun _ _ => rfl, fun _ _ => rfl, fun i hi => if_neg (hpid i hi)⟩, le_refl _⟩
  show (if w.locks i = some pid then none else w.locks i) = none
  rw [h.unlocked i hi]
  exact ite_self _

variable [DecidableEq Name]

/-- The directory entries of a new file. -/
theorem create_dir {m : Name} (h : (w.create m).dir n = some i) :
    (n = m ∧ i = w.next) ∨ (n ≠ m ∧ w.dir n = some i) := by
  by_cases hn : n = m
  · subst hn
    rw [show (w.create n).dir n = some w.next from Function.update_self _ _ _] at h
    exact Or.inl ⟨rfl, (Option.some.inj h).symm⟩
  · rw [show (w.create m).dir n = w.dir n from Function.update_of_ne hn _ _] at h
    exact Or.inr ⟨hn, h⟩

/-- The directory entries after a move. -/
theorem move_dir (h : (w.move source target i).dir n = some j) :
    (n = target ∧ j = i) ∨ (n ≠ target ∧ n ≠ source ∧ w.dir n = some j) := by
  unfold World.move World.setDir at h
  by_cases ht : n = target
  · simp only [ht, if_true] at h
    exact Or.inl ⟨ht, (Option.some.inj h).symm⟩
  · by_cases hs : n = source
    · simp only [if_neg ht, if_pos hs] at h
      cases h
    · simp only [if_neg ht, if_neg hs] at h
      exact Or.inr ⟨ht, hs, h⟩

theorem Elsewhere.create (h : Tagged N I w) (hn : n ∉ N) : Elsewhere N I w (w.create n) where
  tagged := by
    refine ⟨fun m i hi => ?_, fun m i hi => ?_, fun i hi => Nat.lt_succ_of_lt (h.owned i hi),
      fun i hi => h.unlocked i (Nat.le_of_succ_le hi)⟩
    · rcases create_dir hi with ⟨-, rfl⟩ | ⟨-, hi⟩
      · exact Nat.lt_succ_self _
      · exact Nat.lt_succ_of_lt (h.lt_next m i hi)
    · rcases create_dir hi with ⟨rfl, rfl⟩ | ⟨-, hi⟩
      · exact ⟨fun hi => absurd (h.owned _ hi) (lt_irrefl _), fun hm => absurd hm hn⟩
      · exact h.mem_iff m i hi
  same := by
    refine ⟨fun m hm => ?_, fun i hi => file_create_of_lt (h.owned i hi) n, fun _ _ => rfl⟩
    have hne : m ≠ n := fun he => hn (he ▸ hm)
    exact Function.update_of_ne hne _ _
  next := Nat.le_succ _

theorem Elsewhere.move (h : Tagged N I w) (hi : w.dir source = some i) (hs : source ∉ N)
    (ht : target ∉ N) : Elsewhere N I w (w.move source target i) where
  tagged := by
    refine ⟨fun m j hj => ?_, fun m j hj => ?_, h.owned, h.unlocked⟩
    · rcases move_dir hj with ⟨-, rfl⟩ | ⟨-, -, hj⟩
      · exact h.lt_next source _ hi
      · exact h.lt_next m j hj
    · rcases move_dir hj with ⟨rfl, rfl⟩ | ⟨-, -, hj⟩
      · exact ⟨fun hj => absurd ((h.mem_iff source _ hi).mp hj) hs, fun hm => absurd hm ht⟩
      · exact h.mem_iff m j hj
  same := by
    refine ⟨fun m hm => ?_, fun _ _ => rfl, fun _ _ => rfl⟩
    have hmt : m ≠ target := fun he => ht (he ▸ hm)
    have hms : m ≠ source := fun he => hs (he ▸ hm)
    unfold World.move World.setDir
    simp only [if_neg hmt, if_neg hms]
  next := le_refl _

/-- The open files in `F` are others than those in `I`. -/
def Others (I F : Set Nat) (w : World Name Pid) : Prop := ∀ fd ∈ F, fd ∉ I ∧ fd < w.next

variable {F : Set Fd} {pid : Pid} {o : Outcome E}

omit [DecidableEq Name] in
theorem Others.mono (h : Others I F w) (hw : w.next ≤ w'.next) : Others I F w' :=
  fun fd hfd => ⟨(h fd hfd).1, Nat.lt_of_lt_of_le (h fd hfd).2 hw⟩

/-- A step elsewhere, after which the files in `F` are open. -/
structure Outside (N : Set Name) (I F : Set Nat) (w w' : World Name Pid) : Prop where
  elsewhere : Elsewhere N I w w'
  others : Others I F w'

/-- **A call elsewhere** leaves the names and files alone, and opens others. -/
theorem exec_outside (ht : Tagged N I w) (hF : Others I F w) {c : Call Name}
    (hc : c.Within Nᶜ F) {r : Answer E c} (hexec : w.exec pid o c = (r, w')) :
    Outside N I (F ∪ c.opened r) w w' := by
  have heffect : Effect pid w c w' := by
    have h : Effect pid w c (w.exec pid o c).2 := exec_effect c
    rw [hexec] at h
    exact h
  -- What a name outside is the name of.
  have hname : ∀ {n i}, n ∉ N → w.dir n = some i → i ∉ I := fun {n i} hn hi hmem =>
    hn ((ht.mem_iff n i hi).mp hmem)
  have helse : Elsewhere N I w w' := by
    cases heffect with
    | nothing => exact .refl ht
    | openSidecar => exact .create ht hc
    | createNew => exact .create ht hc
    | openTruncate => exact .create ht hc
    | truncate hi f => exact .setFile ht (hname hc hi) f
    | write f => exact .setFile ht (hF _ hc).1 f
    | sync f => exact .setFile ht (hF _ hc).1 f
    | move hi => exact .move ht hi hc.1 hc.2
    | syncDir => exact .syncDir ht
    | lock hfree => exact .setLock ht (hF _ hc) (some pid)
    | release => exact .setLock ht (hF _ hc) none
  refine ⟨helse, fun fd hfd => ?_⟩
  rcases hfd with hfd | hfd
  · exact hF.mono helse.next fd hfd
  · obtain ⟨n, hn, hi⟩ := exec_opened hc hexec hfd
    exact ⟨fun hmem => hn ((helse.tagged.mem_iff n fd hi).mp hmem), helse.tagged.lt_next n fd hi⟩

/-! ## The same step in two worlds -/

variable {w1' : World Name Pid}

/-- The two worlds agree on the party's names and files, and hand out the same files next. -/
structure Twin (N : Set Name) (I : Set Nat) (w w' : World Name Pid) : Prop where
  tagged : Tagged N I w
  same : SameAt N I w w'
  next : w'.next = w.next
  unlocked : ∀ i, w'.next ≤ i → w'.locks i = none

/-- The party's files after its own step: those that were made in it are its own. -/
def grown (I : Set Nat) (w w1 : World Name Pid) : Set Nat := I ∪ {i | w.next ≤ i ∧ i < w1.next}

omit [DecidableEq Name] in
theorem grown_of_next (h : w1.next = w.next) : grown I w w1 = I := by
  have hempty : {i | w.next ≤ i ∧ i < w1.next} = (∅ : Set Nat) := by
    ext i
    simp only [Set.mem_ofPred_eq, Set.mem_empty_iff_false, iff_false]
    omega
  rw [grown, hempty, Set.union_empty]

omit [DecidableEq Name] in
theorem subset_grown : I ⊆ grown I w w1 := Set.subset_union_left

/-- Both worlds after the same step of the party. -/
def Twins (N : Set Name) (I : Set Nat) (w w1 w1' : World Name Pid) : Prop :=
  Twin N (grown I w w1) w1 w1'

omit [DecidableEq Name] in
theorem Twin.twins (h : Twin N I w1 w1') (hnext : w1.next = w.next) : Twins N I w w1 w1' := by
  rw [Twins, grown_of_next hnext]
  exact h

omit [DecidableEq Name] in
theorem Twin.setFile (h : Twin N I w w') (i : Nat) (f : File) :
    Twin N I (w.setFile i f) (w'.setFile i f) := by
  refine ⟨⟨h.tagged.lt_next, h.tagged.mem_iff, h.tagged.owned, h.tagged.unlocked⟩,
    ⟨h.same.dir, fun j hj => ?_, h.same.locks⟩, h.next, h.unlocked⟩
  show Function.update w'.file i f j = Function.update w.file i f j
  by_cases hij : j = i
  · rw [hij, Function.update_self, Function.update_self]
  · rw [Function.update_of_ne hij, Function.update_of_ne hij]
    exact h.same.file j hj

omit [DecidableEq Name] in
theorem Twin.setLock (h : Twin N I w w') (hi : i ∈ I) (x : Option Pid) :
    Twin N I { w with locks := Function.update w.locks i x }
      { w' with locks := Function.update w'.locks i x } := by
  have hlt := h.tagged.owned i hi
  refine ⟨⟨h.tagged.lt_next, h.tagged.mem_iff, h.tagged.owned, fun j hj => ?_⟩,
    ⟨h.same.dir, h.same.file, fun j hj => ?_⟩, h.next, fun j hj => ?_⟩
  · have hne : j ≠ i := fun he => absurd (he ▸ hj) (Nat.not_le.mpr hlt)
    exact (Function.update_of_ne hne _ _).trans (h.tagged.unlocked j hj)
  · show Function.update w'.locks i x j = Function.update w.locks i x j
    by_cases hij : j = i
    · rw [hij, Function.update_self, Function.update_self]
    · rw [Function.update_of_ne hij, Function.update_of_ne hij]
      exact h.same.locks j hj
  · have hne : j ≠ i := fun he => absurd (he ▸ hj) (Nat.not_le.mpr (h.next.symm ▸ hlt))
    exact (Function.update_of_ne hne _ _).trans (h.unlocked j hj)

omit [DecidableEq Name] in
/-- The end of a process. -/
theorem Twin.unlock [DecidableEq Pid] (h : Twin N I w w') (pid : Pid) :
    Twin N I (w.unlock pid) (w'.unlock pid) := by
  have hnone : ∀ {v : World Name Pid} {i : Nat},
      v.locks i = none → (v.unlock pid).locks i = none := by
    intro v i hv
    show (if v.locks i = some pid then none else v.locks i) = none
    rw [hv]
    rfl
  refine ⟨⟨h.tagged.lt_next, h.tagged.mem_iff, h.tagged.owned,
      fun i hi => hnone (h.tagged.unlocked i hi)⟩,
    ⟨h.same.dir, h.same.file, fun i hi => ?_⟩, h.next, fun i hi => hnone (h.unlocked i hi)⟩
  show (if w'.locks i = some pid then none else w'.locks i)
    = if w.locks i = some pid then none else w.locks i
  rw [h.same.locks i hi]

omit [DecidableEq Name] in
theorem Twin.syncDir (h : Twin N I w w') : Twin N I w.syncDir w'.syncDir :=
  ⟨⟨h.tagged.lt_next, h.tagged.mem_iff, h.tagged.owned, h.tagged.unlocked⟩,
    ⟨h.same.dir, h.same.file, h.same.locks⟩, h.next, h.unlocked⟩

theorem Twin.move (h : Twin N I w w') (hi : w.dir source = some i) (hs : source ∈ N)
    (ht : target ∈ N) : Twin N I (w.move source target i) (w'.move source target i) := by
  refine ⟨⟨fun m j hj => ?_, fun m j hj => ?_, h.tagged.owned, h.tagged.unlocked⟩,
    ⟨fun m hm => ?_, h.same.file, h.same.locks⟩, h.next, h.unlocked⟩
  · rcases move_dir hj with ⟨-, rfl⟩ | ⟨-, -, hj⟩
    · exact h.tagged.lt_next source _ hi
    · exact h.tagged.lt_next m j hj
  · rcases move_dir hj with ⟨rfl, rfl⟩ | ⟨-, -, hj⟩
    · exact ⟨fun _ => ht, fun _ => (h.tagged.mem_iff source _ hi).mpr hs⟩
    · exact h.tagged.mem_iff m j hj
  · unfold World.move World.setDir
    by_cases hmt : m = target
    · simp only [if_pos hmt]
    · by_cases hms : m = source
      · simp only [if_neg hmt, if_pos hms]
      · simp only [if_neg hmt, if_neg hms]
        exact h.same.dir m hm

theorem Twin.create (h : Twin N I w w') (hn : n ∈ N) :
    Twins N I w (w.create n) (w'.create n) := by
  have hmem : ∀ i, i ∈ grown I w (w.create n) ↔ i ∈ I ∨ i = w.next := by
    intro i
    show i ∈ I ∨ (w.next ≤ i ∧ i < w.next + 1) ↔ _
    constructor
    · exact Or.imp id fun hi => by omega
    · exact Or.imp id fun hi => by omega
  refine ⟨⟨fun m i hi => ?_, fun m i hi => ?_, fun i hi => ?_,
      fun i hi => h.tagged.unlocked i (Nat.le_of_succ_le hi)⟩,
    ⟨fun m hm => ?_, fun i hi => ?_, fun i hi => ?_⟩, congrArg Nat.succ h.next,
    fun i hi => h.unlocked i (Nat.le_of_succ_le hi)⟩
  · rcases create_dir hi with ⟨-, rfl⟩ | ⟨-, hi⟩
    · exact Nat.lt_succ_self _
    · exact Nat.lt_succ_of_lt (h.tagged.lt_next m i hi)
  · rw [hmem]
    rcases create_dir hi with ⟨rfl, rfl⟩ | ⟨-, hi⟩
    · exact ⟨fun _ => hn, fun _ => Or.inr rfl⟩
    · have hlt := h.tagged.lt_next m i hi
      rw [← h.tagged.mem_iff m i hi]
      exact ⟨fun hi => hi.resolve_right (Nat.ne_of_lt hlt), Or.inl⟩
  · rcases (hmem i).mp hi with hi | rfl
    · exact Nat.lt_succ_of_lt (h.tagged.owned i hi)
    · exact Nat.lt_succ_self _
  · show Function.update w'.dir n (some w'.next) m = Function.update w.dir n (some w.next) m
    by_cases hmn : m = n
    · rw [hmn, Function.update_self, Function.update_self, h.next]
    · rw [Function.update_of_ne hmn, Function.update_of_ne hmn]
      exact h.same.dir m hm
  · rcases (hmem i).mp hi with hi | rfl
    · rw [file_create_of_lt (h.tagged.owned i hi),
        file_create_of_lt (h.next.symm ▸ h.tagged.owned i hi)]
      exact h.same.file i hi
    · show Function.update w'.file w'.next _ w.next = Function.update w.file w.next _ w.next
      rw [← h.next, Function.update_self, h.next, Function.update_self]
  · rcases (hmem i).mp hi with hi | rfl
    · exact h.same.locks i hi
    · show w'.locks w.next = w.locks w.next
      rw [h.tagged.unlocked _ (le_refl _), h.unlocked _ (le_of_eq h.next)]

omit [DecidableEq Name] in
/-- A step elsewhere in the first world only, after which the second one skips as many files. -/
theorem Twin.elsewhere (h : Twin N I w w') (hw : Elsewhere N I w w1) :
    Twin N I w1 { w' with next := w'.next + (w1.next - w.next) } := by
  have hnext : w'.next + (w1.next - w.next) = w1.next := by
    have := hw.next
    have := h.next
    omega
  refine ⟨hw.tagged, ⟨fun n hn => ?_, fun i hi => ?_, fun i hi => ?_⟩, hnext, fun i hi => ?_⟩
  · exact (h.same.dir n hn).trans (hw.same.dir n hn).symm
  · exact (h.same.file i hi).trans (hw.same.file i hi).symm
  · exact (h.same.locks i hi).trans (hw.same.locks i hi).symm
  · exact h.unlocked i (Nat.le_of_add_right_le hi)

/-- Two outcomes of one call: the same answer, and the same step. -/
structure TwinStep (N : Set Name) (I : Set Nat) (w : World Name Pid) (x x' : α × World Name Pid) :
    Prop where
  answer : x.1 = x'.1
  twins : Twins N I w x.2 x'.2

omit [DecidableEq Name] in
theorem Twin.step (h : Twin N I w1 w1') (hnext : w1.next = w.next) (a : α) :
    TwinStep N I w (a, w1) (a, w1') := ⟨rfl, h.twins hnext⟩

omit [DecidableEq Name] in
/-- A file call takes effect in both worlds or in neither. -/
theorem TwinStep.attempt {o : Outcome E} (h : Twin N I w w') {done : Except IoError α}
    (hdone : TwinStep N I w (done, w1) (done, w1')) :
    TwinStep N I w (w.attempt o (done, w1)) (w'.attempt o (done, w1')) := by
  cases o with
  | fail kind late left =>
    cases late with
    | false => exact h.step rfl _
    | true => exact ⟨rfl, hdone.twins⟩
  | _ => exact hdone

/-- **A call of the party** gives the same answer in both worlds, and changes them alike. -/
theorem exec_inside (h : Twin N I w w') {F : Set Fd} (hF : F ⊆ I) {pid : Pid} {o : Outcome E}
    {c : Call Name} (hc : c.Within N F) :
    TwinStep N I w (w.exec pid o c) (w'.exec pid o c) := by
  have hsame : ∀ {α : Type} (a : α), TwinStep N I w (a, w) (a, w') := fun a => h.step rfl a
  have hopen : ∀ {n}, n ∈ N → TwinStep N I w
      ((Except.ok w.next : Except IoError Fd), w.create n) (Except.ok w.next, w'.create n) :=
    fun hn => ⟨rfl, h.create hn⟩
  have hset : ∀ {α : Type} (a : α) (i : Nat) (f : File),
      TwinStep N I w (a, w.setFile i f) (a, w'.setFile i f) :=
    fun a i f => (h.setFile i f).step (w := w) rfl a
  cases c with
  | openSidecar n =>
    have hd := h.same.dir n hc
    cases hi : w.dir n with
    | some i =>
      simp only [exec, hd, hi]
      exact .attempt h (hsame _)
    | none =>
      simp only [exec, hd, hi, h.next]
      exact .attempt h (hopen hc)
  | createNew n =>
    have hd := h.same.dir n hc
    cases hi : w.dir n with
    | some i =>
      simp only [exec, hd, hi]
      exact .attempt h (hsame _)
    | none =>
      simp only [exec, hd, hi, h.next]
      exact .attempt h (hopen hc)
  | openRead n =>
    have hd := h.same.dir n hc
    cases hi : w.dir n with
    | some i =>
      simp only [exec, hd, hi]
      exact .attempt h (hsame _)
    | none =>
      simp only [exec, hd, hi]
      exact .attempt h (hsame _)
  | openTruncate n =>
    have hd := h.same.dir n hc
    cases hi : w.dir n with
    | some i =>
      simp only [exec, hd, hi]
      exact .attempt h (hset _ _ _)
    | none =>
      simp only [exec, hd, hi, h.next]
      exact .attempt h (hopen hc)
  | tryLock fd =>
    have hl := h.same.locks fd (hF hc)
    have hlock := (h.setLock (hF hc) (some pid)).step (w := w) rfl
      (Except.ok () : Except TryLockError Unit)
    cases hlocked : w.locks fd with
    | some q =>
      simp only [exec, hl, hlocked]
      cases o with
      | _ => exact hsame _
    | none =>
      simp only [exec, hl, hlocked]
      cases o with
      | fail kind late left => exact hsame _
      | _ => exact hlock
  | fileLen fd =>
    simp only [exec, h.same.file fd (hF hc)]
    exact .attempt h (hsame _)
  | readExact fd off len =>
    simp only [exec, h.same.file fd (hF hc)]
    split
    · exact .attempt h (hsame _)
    · exact .attempt h (hsame _)
  | writeAll fd bytes =>
    simp only [exec, h.same.file fd (hF hc)]
    cases o with
    | _ => exact hset _ _ _
  | syncAll fd =>
    simp only [exec, h.same.file fd (hF hc)]
    exact .attempt h (hset _ _ _)
  | rename source target =>
    have hd := h.same.dir source hc.1
    cases hi : w.dir source with
    | some i =>
      simp only [exec, hd, hi]
      exact .attempt h ((h.move hi hc.1 hc.2).step (w := w) rfl _)
    | none =>
      simp only [exec, hd, hi]
      exact .attempt h (hsame _)
  | syncDir => exact .attempt h (h.syncDir.step (w := w) rfl _)
  | close fd => exact .attempt h (hsame _)
  | release fd => exact .attempt h ((h.setLock (hF hc) none).step (w := w) rfl _)
  | random len =>
    cases o with
    | _ => exact hsame _
  | fill len =>
    cases o with
    | _ => exact hsame _

/-- The files that the party has opened are its own. -/
theorem opened_inside (h : Twin N I w w') {F : Set Fd} (hF : F ⊆ I) {pid : Pid} {o : Outcome E}
    {c : Call Name} (hc : c.Within N F) {r : Answer E c} (hexec : w.exec pid o c = (r, w1)) :
    F ∪ c.opened r ⊆ grown I w w1 := by
  have htagged : Tagged N (grown I w w1) w1 := by
    have hstep : TwinStep N I w (w.exec pid o c) (w'.exec pid o c) := exec_inside h hF hc
    rw [hexec] at hstep
    exact hstep.twins.tagged
  refine Set.union_subset (hF.trans subset_grown) fun fd hfd => ?_
  obtain ⟨n, hn, hi⟩ := exec_opened hc hexec hfd
  exact (htagged.mem_iff n fd hi).mpr hn

omit [DecidableEq Name] in
/-- The files of others stay so when the party makes new ones. -/
theorem Others.grown (h : Others I F w) (hnext : w.next ≤ w1.next) :
    Others (World.grown I w w1) F w1 := by
  intro fd hfd
  refine ⟨?_, Nat.lt_of_lt_of_le (h fd hfd).2 hnext⟩
  rintro (hi | ⟨hle, -⟩)
  · exact (h fd hfd).1 hi
  · exact absurd (h fd hfd).2 (Nat.not_lt.mpr hle)

end World

end Infra.Os
