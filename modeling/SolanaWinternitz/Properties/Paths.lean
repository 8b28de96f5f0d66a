import SolanaWinternitz.Directory
import SolanaWinternitz.Properties.Confinement
import SolanaWinternitz.Properties.OneSignature

/-!
# Signers at different paths

A path is compared with the same path alone. Its names and its files are its own as long as no other
path is one of them with `.tmp` or `.lock` appended, or the other way around.

* `Directory.Mirror` — the directory and the path alone agree on what is the path's, after a step of
  the path (`member_step`) and of another one (`stranger_step`)
* `paths_do_not_interfere` — **no signer of another path is noticed**
* `paths_interfere` — what happens at paths that differ by a suffix
-/

namespace SolanaWinternitz

open Infra Infra.Os

/-- Neither path is the other one with a suffix that signers append. -/
structure Clear (p q : String) : Prop where
  ne : p ≠ q
  tmp : p ≠ sibling q ".tmp"
  lock : p ≠ sibling q ".lock"
  of_tmp : q ≠ sibling p ".tmp"
  of_lock : q ≠ sibling p ".lock"

theorem sibling_inj {p q suffix : String} (h : sibling p suffix = sibling q suffix) : p = q :=
  String.append_left_inj suffix |>.mp h

theorem sibling_tmp_ne_lock (p q : String) : sibling p ".tmp" ≠ sibling q ".lock" := by
  intro h
  have hlist := congrArg (fun s => s.toList.getLast?) h
  simp [sibling, String.toList_append] at hlist

/-- The signers of a clear path use other names. -/
theorem Clear.names {p q : String} (h : Clear p q) : namesOf p ⊆ (namesOf q)ᶜ := by
  rintro n (rfl | rfl | rfl) (hn | hn | hn)
  · exact h.ne hn
  · exact h.tmp hn
  · exact h.lock hn
  · exact h.of_tmp hn.symm
  · exact h.ne (sibling_inj hn)
  · exact sibling_tmp_ne_lock p q hn
  · exact h.of_lock hn.symm
  · exact sibling_tmp_ne_lock q p hn.symm
  · exact h.ne (sibling_inj hn)

section

variable [Keccak] {K Pid : Type} [OneTime K] {p q : String} {I I' : Set Nat}
  {w w' : World String (String × Pid)} {id id' : String × Pid} {c : Client K}

/-! ## The clients of a path -/

/-- A client that has called `create` or `open` and has no lock. -/
inductive Queued (K : Type) [OneTime K] (q : String) (w : World String (String × Pid)) :
    Action (Except SigningError (SigningKey K)) → Prop where
  | begin {opening : Bool} : Queued K q w (Machine.begin K q opening)
  | acquire {opening : Bool} {fd : Fd} (h : w.dir (sibling q ".lock") = some fd) :
      Queued K q w (Machine.acquire K q opening fd)
  | failed {e : SigningError} : Queued K q w (.ret (.error e))

/-- A client of the path works on the files in `I`, and only if it holds the lock. -/
def Member (q : String) (I : Set Nat) (w : World String (String × Pid)) (id : String × Pid) :
    Client K → Prop
  | .idle => True
  | .starting _ _ rest => Queued K q w rest ∨
      (Machine.Holds q w id ∧ ∃ F ⊆ I, Confined (Works q) rest (Succeeds (AtPath q)) F)
  | .live signer => Machine.Holds q w id ∧ signer.path = q
  | .signing _ _ rest => Machine.Holds q w id ∧ ∃ F ⊆ I, Confined (Works q) rest (LeavesAt q) F

/-- A step of client `id` leaves the lock file where it is, and the others their locks. -/
structure Kept (q : String) (id : String × Pid) (w w' : World String (String × Pid)) : Prop where
  lockFile : ∀ fd, w.dir (sibling q ".lock") = some fd → w'.dir (sibling q ".lock") = some fd
  holds : ∀ id', id' ≠ id → Machine.Holds q w id' → Machine.Holds q w' id'

omit [Keccak] in
theorem Kept.refl : Kept q id w w := ⟨fun _ h => h, fun _ _ h => h⟩

omit [Keccak] in
/-- Neither the lock file nor any lock has changed. -/
theorem Kept.of_eq (hdir : w'.dir (sibling q ".lock") = w.dir (sibling q ".lock"))
    (hlocks : w'.locks = w.locks) : Kept q id w w' :=
  ⟨fun _ h => hdir.trans h, fun _ _ ⟨i, hi, hl⟩ => ⟨i, hdir.trans hi, hlocks ▸ hl⟩⟩

omit [Keccak] in
theorem Kept.unlock [DecidableEq Pid] : Kept q id w (w.unlock id) :=
  ⟨fun _ h => h, fun _ hne ⟨i, hi, hl⟩ => ⟨i, hi, World.unlock_locks.mpr ⟨hl, hne⟩⟩⟩

/-- The steps of other clients do not disturb a client of the path. -/
theorem Member.kept (h : Member q I w id' c) (hk : Kept q id w w') (hne : id' ≠ id)
    (hI : I ⊆ I') : Member q I' w' id' c := by
  cases c with
  | idle => trivial
  | starting opening clean rest =>
    rcases h with h | ⟨hholds, F, hF, hrest⟩
    · cases h with
      | begin => exact Or.inl .begin
      | acquire hfd => exact Or.inl (.acquire (hk.lockFile _ hfd))
      | failed => exact Or.inl .failed
    · exact Or.inr ⟨hk.holds _ hne hholds, F, hF.trans hI, hrest⟩
  | live signer => exact ⟨hk.holds _ hne h.1, h.2⟩
  | signing message retry rest =>
    obtain ⟨hholds, F, hF, hrest⟩ := h
    exact ⟨hk.holds _ hne hholds, F, hF.trans hI, hrest⟩

/-- A client that has a signer holds the lock. -/
theorem Member.holds (h : Member q I w id c) (hlive : c.Live) : Machine.Holds q w id := by
  cases c with
  | idle => exact hlive.elim
  | starting opening clean rest => exact hlive.elim
  | live signer => exact h.1
  | signing message retry rest => exact h.1

/-- The next call of a client of the path is about its names and files. -/
theorem Member.within (h : Member q I w id c) (ht : World.Tagged (namesOf q) I w)
    {call : Call String} (hcall : Machine.Calls call c) :
    ∃ F ⊆ I, call.Within (namesOf q) F := by
  cases c with
  | idle => exact hcall.elim
  | live signer => exact hcall.elim
  | starting opening clean rest =>
    cases rest with
    | ret r => exact hcall.elim
    | call call' k =>
      obtain rfl : call' = call := hcall
      rcases h with h | ⟨-, F, hF, hwork, -⟩
      · cases h with
        | begin => exact ⟨∅, Set.empty_subset _, Or.inr (Or.inr rfl)⟩
        | acquire hfd =>
          refine ⟨I, subset_rfl, (ht.mem_iff _ _ hfd).mpr (Or.inr (Or.inr rfl))⟩
      · exact ⟨F, hF, Works.uses hwork⟩
  | signing message retry rest =>
    cases rest with
    | ret r => exact hcall.elim
    | call call' k =>
      obtain rfl : call' = call := hcall
      obtain ⟨-, F, hF, hwork, -⟩ := h
      exact ⟨F, hF, Works.uses hwork⟩

omit [Keccak] in
/-- A call of the client that holds the lock. -/
theorem Works.same {F : Set Fd} {call : Call String} (h : Works q call F)
    {o : Outcome SigningError} {r : Answer SigningError call}
    (hexec : w.exec id o call = (r, w')) :
    w'.dir (sibling q ".lock") = w.dir (sibling q ".lock") ∧ w'.locks = w.locks := by
  have hlock : sibling q ".lock" ∉ ({q, sibling q ".tmp"} : Set String) := by
    rintro (hq | hq)
    · exact sibling_ne (by decide) hq
    · exact tmp_ne_lock q hq.symm
  have hw : w' = (w.exec id o call).2 := (congrArg Prod.snd hexec).symm
  rw [hw]
  exact ⟨(World.exec_effect call).dir h.1 hlock, (World.exec_effect call).locks h.2⟩

omit [Keccak] in
theorem Kept.touch : Kept q id w (w.touch (sibling q ".lock")) := by
  unfold World.touch
  by_cases hd : w.dir (sibling q ".lock") = none
  · rw [if_pos hd]
    refine ⟨fun fd hfd => ?_, fun _ _ ⟨i, hi, _⟩ => ?_⟩
    · cases hd.symm.trans hfd
    · cases hd.symm.trans hi
  · rw [if_neg hd]
    exact .refl

omit [Keccak] in
theorem Kept.lock {fd : Fd} (hfd : w.dir (sibling q ".lock") = some fd)
    (hfree : w.locks fd = none) :
    Kept q id w (w.lock fd id) := by
  refine ⟨fun _ h => h, fun id' _ ⟨i, hi, hl⟩ => ?_⟩
  cases hfd.symm.trans hi
  cases hfree.symm.trans hl

/-- A call of a client that has no lock yet. -/
theorem Queued.call {call : Call String} {k} (h : Queued K q w (.call call k))
    {o : Outcome SigningError} {r : Answer SigningError call}
    (hexec : w.exec id o call = (r, w')) (opening clean : Bool) :
    Kept q id w w' ∧ Member q I w' id (.starting opening clean (k r)) := by
  cases h with
  | @begin opening =>
    obtain ⟨hw, hopened, -⟩ := World.exec_openSidecar hexec
    have hkept : Kept q id w w' := by
      rcases hw with rfl | rfl
      · exact .refl
      · exact .touch
    refine ⟨hkept, Or.inl ?_⟩
    cases r with
    | ok fd => exact .acquire (hopened fd rfl)
    | error kind => exact .failed
  | @acquire opening fd hfd =>
    rcases World.exec_tryLock hexec with ⟨rfl, hfree, rfl⟩ | ⟨⟨e, rfl, -⟩, rfl⟩
    · exact ⟨.lock hfd hfree, Or.inr ⟨Machine.holds_lock hfd, ∅, Set.empty_subset _,
        confined_afterLock opening fd ∅⟩⟩
    · refine ⟨.refl, Or.inl ?_⟩
      cases e with
      | wouldBlock => exact .failed
      | error kind => exact .failed

variable [DecidableEq Pid] {m : Machine K (String × Pid)} {e : Event (String × Pid)}
  {report : Option (Report K)}

/-- **What a client of the path does** keeps the lock file and the locks of the others. -/
theorem Member.acts (h : Member q I m.world id (m.client id)) {w₁ : World String (String × Pid)}
    (htwin : World.Twin (namesOf q) I m.world w₁) (ha : Machine.Acts q m e id w c report) :
    Kept q id m.world w ∧ Member q (World.grown I m.world w) w id c := by
  -- What the holder of the lock does next is about its own files again.
  have hholder : ∀ {call : Call String} {o : Outcome SigningError}
      {r : Answer SigningError call} {F : Set Fd}, Machine.Holds q m.world id → F ⊆ I →
      Works q call F → m.world.exec id o call = (r, w) →
      Kept q id m.world w ∧ Machine.Holds q w id ∧
        F ∪ call.opened r ⊆ World.grown I m.world w := by
    intro call o r F ⟨i, hi, hl⟩ hF hwork hexec
    obtain ⟨hdir, hlocks⟩ := hwork.same hexec
    exact ⟨.of_eq hdir hlocks, ⟨i, hdir.trans hi, hlocks ▸ hl⟩,
      World.opened_inside htwin hF hwork.uses hexec⟩
  cases ha with
  | start hc => exact ⟨.refl, Or.inl .begin⟩
  | @sign message fill signer hc he =>
    rw [hc] at h
    obtain ⟨hholds, hpath⟩ := h
    have hfill : Sourced q fill := by
      rcases he with ⟨-, rfl⟩ | ⟨-, rfl⟩
      · exact sourced_osFill
      · exact sourced_callerFill
    exact ⟨.refl, hholds, ∅, Set.empty_subset _, confined_signWithRng signer hpath message hfill ∅⟩
  | leave => exact ⟨.unlock, trivial⟩
  | @startCall opening clean call k o r w hc he hexec =>
    rw [hc] at h
    rcases h with h | ⟨hholds, F, hF, hwork, hrest⟩
    · exact h.call hexec opening (clean && o.isOk)
    · obtain ⟨hkept, hholds', hF'⟩ := hholder hholds hF hwork hexec
      exact ⟨hkept, Or.inr ⟨hholds', _, hF', hrest r⟩⟩
  | @started opening clean signer hc =>
    rw [hc] at h
    rcases h with h | ⟨hholds, F, -, hrest⟩
    · cases h
    · exact ⟨.refl, hholds, hrest signer rfl⟩
  | refused hc => exact ⟨.unlock, trivial⟩
  | @signCall message retry call k o r w hc he hexec =>
    rw [hc] at h
    obtain ⟨hholds, F, hF, hwork, hrest⟩ := h
    obtain ⟨hkept, hholds', hF'⟩ := hholder hholds hF hwork hexec
    exact ⟨hkept, hholds', _, hF', hrest r⟩
  | signed hc =>
    rw [hc] at h
    obtain ⟨hholds, F, -, hpath⟩ := h
    exact ⟨.refl, hholds, hpath⟩

/-! ## The clients of another path -/

/-- A client of another path `p` keeps to other names and files. -/
def Stranger (q : String) (I : Set Nat) (w : World String (String × Pid)) (p : String) :
    Client K → Prop
  | .idle => True
  | .starting _ _ rest => ∃ F, World.Others I F w ∧
      Confined (fun c F => c.Within (namesOf q)ᶜ F) rest (Succeeds (AtPath p)) F
  | .live signer => signer.path = p
  | .signing _ _ rest => ∃ F, World.Others I F w ∧
      Confined (fun c F => c.Within (namesOf q)ᶜ F) rest (LeavesAt p) F

omit [Keccak] [DecidableEq Pid] in
theorem Stranger.mono (h : Stranger q I w p c)
    (hF : ∀ F, World.Others I F w → World.Others I' F w') : Stranger q I' w' p c := by
  cases c with
  | idle => trivial
  | starting opening clean rest =>
    obtain ⟨F, hothers, hrest⟩ := h
    exact ⟨F, hF F hothers, hrest⟩
  | live signer => exact h
  | signing message retry rest =>
    obtain ⟨F, hothers, hrest⟩ := h
    exact ⟨F, hF F hothers, hrest⟩

/-- **What a client of a clear path does** leaves the names, files and locks of `q` alone. -/
theorem Stranger.acts (h : Stranger q I m.world p (m.client id)) (hclear : Clear p q)
    (ht : World.Tagged (namesOf q) I m.world) (hid : ∀ i ∈ I, m.world.locks i ≠ some id)
    (ha : Machine.Acts p m e id w c report) :
    World.Elsewhere (namesOf q) I m.world w ∧ Stranger q I w p c := by
  have hnames : ∀ {call : Call String} {F : Set Fd}, Uses p call F →
      call.Within (namesOf q)ᶜ F := fun huses => Call.Within.mono huses hclear.names
  have hnone : World.Others I ∅ m.world := fun fd hfd => absurd hfd (Set.notMem_empty fd)
  cases ha with
  | start hc =>
    exact ⟨.refl ht, ∅, hnone,
      (confined_begin _).imp (fun _ _ huses => hnames huses) fun _ _ hr => hr⟩
  | @sign message fill signer hc he =>
    rw [hc] at h
    have hfill : Sourced p fill := by
      rcases he with ⟨-, rfl⟩ | ⟨-, rfl⟩
      · exact sourced_osFill
      · exact sourced_callerFill
    exact ⟨.refl ht, ∅, hnone, (confined_signWithRng signer h message hfill ∅).imp
      (fun _ _ hworks => hnames hworks.uses) fun _ _ hr => hr⟩
  | leave => exact ⟨.unlock ht hid, trivial⟩
  | @startCall opening clean call k o r w hc he hexec =>
    rw [hc] at h
    obtain ⟨F, hothers, hwithin, hrest⟩ := h
    have hout := World.exec_outside ht hothers hwithin hexec
    exact ⟨hout.elsewhere, _, hout.others, hrest r⟩
  | @started opening clean signer hc =>
    rw [hc] at h
    obtain ⟨F, -, hrest⟩ := h
    exact ⟨.refl ht, hrest signer rfl⟩
  | refused hc => exact ⟨.unlock ht hid, trivial⟩
  | @signCall message retry call k o r w hc he hexec =>
    rw [hc] at h
    obtain ⟨F, hothers, hwithin, hrest⟩ := h
    have hout := World.exec_outside ht hothers hwithin hexec
    exact ⟨hout.elsewhere, _, hout.others, hrest r⟩
  | signed hc =>
    rw [hc] at h
    obtain ⟨F, -, hpath⟩ := h
    exact ⟨.refl ht, hpath⟩

/-- What an action does to the locks and to the next inode. -/
theorem Machine.Acts.bounds (ha : Machine.Acts p m e id w c report) :
    m.world.next ≤ w.next ∧
      ∀ i id', w.locks i = some id' → m.world.locks i = some id' ∨ id' = id := by
  have hcall : ∀ {call : Call String} {o : Outcome SigningError}
      {r : Answer SigningError call}, m.world.exec id o call = (r, w) →
      World.Effect id m.world call w := by
    intro call o r hexec
    have h : World.Effect id m.world call (m.world.exec id o call).2 := World.exec_effect call
    rw [hexec] at h
    exact h
  cases ha with
  | leave => exact ⟨le_refl _, fun _ _ hi => Or.inl (World.unlock_locks.mp hi).1⟩
  | refused hc => exact ⟨le_refl _, fun _ _ hi => Or.inl (World.unlock_locks.mp hi).1⟩
  | startCall hc he hexec => exact ⟨(hcall hexec).next, fun _ _ hi => (hcall hexec).lock_cases hi⟩
  | signCall hc he hexec => exact ⟨(hcall hexec).next, fun _ _ hi => (hcall hexec).lock_cases hi⟩
  | _ => exact ⟨le_refl _, fun _ _ hi => Or.inl hi⟩

end

/-! ## The directory and the path alone -/

section

variable [Keccak] {K : String → Type} [∀ path, OneTime (K path)] {Pid : Type} [DecidableEq Pid]
  {p q : String} {d : Directory K Pid} {e : Event Pid}

omit [Keccak] [DecidableEq Pid] in
theorem actor_map (f : Pid → String × Pid) (e : Event Pid) :
    Machine.actor (e.map f) = (Machine.actor e).map f := by
  cases e <;> rfl

omit [Keccak] [DecidableEq Pid] in
theorem isPowerLoss_map (f : Pid → String × Pid) (e : Event Pid) :
    (e.map f).isPowerLoss = e.isPowerLoss := by
  cases e <;> rfl

namespace Directory

/-- The directory after an action of a client of a path. -/
def acted (d : Directory K Pid) (p : String) (pid : Pid) (w : World String (String × Pid))
    (c : Client (K p)) (report : Option (Report (K p))) : Directory K Pid :=
  ⟨w, Function.update d.client p (Function.update (d.client p) pid c),
    Function.update d.log p (report.toList ++ d.log p)⟩

omit [Keccak] [DecidableEq Pid] in
theorem machine_client (d : Directory K Pid) (p : String) (pid : Pid) :
    (d.machine p).client (p, pid) = d.client p pid := if_pos rfl

theorem step_of_none (he : e.isPowerLoss = false)
    (h : (d.machine p).step p (e.map (p, ·)) = d.machine p) : d.step (p, e) = d := by
  unfold step
  rw [h]
  simp only [he, machine_client, Bool.false_eq_true, if_false]
  rw [Function.update_eq_self, show (d.machine p).log = d.log p from rfl, Function.update_eq_self]
  rfl

theorem step_of_acted {pid : Pid} {w : World String (String × Pid)} {c : Client (K p)}
    {report : Option (Report (K p))} (he : e.isPowerLoss = false)
    (h : (d.machine p).step p (e.map (p, ·)) = (d.machine p).acted (p, pid) w c report) :
    d.step (p, e) = d.acted p pid w c report := by
  have hclient : (fun pid' => ((d.machine p).acted (p, pid) w c report).client (p, pid'))
      = Function.update (d.client p) pid c := by
    funext pid'
    show Function.update (d.machine p).client (p, pid) c (p, pid') = _
    by_cases hpid : pid' = pid
    · rw [hpid, Function.update_self, Function.update_self]
    · rw [Function.update_of_ne hpid, Function.update_of_ne fun he => hpid (Prod.mk.inj he).2,
        machine_client]
  unfold step
  rw [h]
  simp only [he, Bool.false_eq_true, if_false]
  rw [hclient]
  rfl

omit [Keccak] in
/-- The machine of the path after an action of one of its clients. -/
theorem machine_acted_client (d : Directory K Pid) (p : String) (pid : Pid)
    (w : World String (String × Pid)) (c : Client (K p)) (report : Option (Report (K p))) :
    ((d.acted p pid w c report).machine p).client
      = Function.update (d.machine p).client (p, pid) c := by
  funext id
  obtain ⟨p', pid'⟩ := id
  show (if p' = p then (d.acted p pid w c report).client p pid' else .idle) = _
  have hp : (d.acted p pid w c report).client p = Function.update (d.client p) pid c :=
    Function.update_self _ _ _
  rw [hp]
  by_cases hp' : p' = p
  · subst hp'
    rw [if_pos rfl]
    by_cases hpid : pid' = pid
    · rw [hpid, Function.update_self, Function.update_self]
    · rw [Function.update_of_ne hpid, Function.update_of_ne fun he => hpid (Prod.mk.inj he).2,
        machine_client]
  · rw [if_neg hp', Function.update_of_ne fun he => hp' (Prod.mk.inj he).1]
    exact (if_neg hp').symm

omit [Keccak] in
theorem acted_client_of_ne {p' : String} (hp : p' ≠ p) (pid : Pid)
    (w : World String (String × Pid)) (c : Client (K p)) (report : Option (Report (K p))) :
    (d.acted p pid w c report).client p' = d.client p' := Function.update_of_ne hp _ _

omit [Keccak] in
theorem acted_client (pid pid' : Pid) (w : World String (String × Pid)) (c : Client (K p))
    (report : Option (Report (K p))) : (d.acted p pid w c report).client p pid'
      = if pid' = pid then c else d.client p pid' := by
  show Function.update d.client p (Function.update (d.client p) pid c) p pid' = _
  rw [Function.update_self, Function.update_apply]

/-- **What a path may notice of a step**: nothing. -/
structure Undisturbed (q : String) (d d' : Directory K Pid) : Prop where
  file : d'.world.dir q = d.world.dir q
  record : d'.world.content q = d.world.content q
  lockFile : d'.world.dir (sibling q ".lock") = d.world.dir (sibling q ".lock")
  locks : ∀ fd, d.world.dir (sibling q ".lock") = some fd → d'.world.locks fd = d.world.locks fd
  client : d'.client q = d.client q
  log : d'.log q = d.log q

/-- The directory and the path alone agree on what is the path's: on the files in `I`. -/
structure Mirror (q : String) (I : Set Nat) (d : Directory K Pid)
    (alone : Machine (K q) (String × Pid)) : Prop where
  twin : World.Twin (namesOf q) I d.world alone.world
  client : alone.client = (d.machine q).client
  log : alone.log = d.log q
  owned : ∀ i ∈ I, ∀ id, d.world.locks i = some id → id.1 = q
  member : ∀ pid, Member q I d.world (q, pid) (d.client q pid)
  stranger : ∀ p, p ≠ q → ∀ pid, Stranger q I d.world p (d.client p pid)

variable {I : Set Nat} {alone : Machine (K q) (String × Pid)}

/-- **An event of the path** happens in the same way when the path is alone. -/
theorem Mirror.member_step (h : Mirror q I d alone) (he : e.isPowerLoss = false) :
    ∃ I', Mirror q I' (d.step (q, e)) (alone.step q (e.map (q, ·))) := by
  have hactor : ∀ id, Machine.actor (e.map (q, ·)) = some id → ∃ pid, id = (q, pid) := by
    intro id hid
    rw [actor_map] at hid
    obtain ⟨pid, -, rfl⟩ := Option.map_eq_some_iff.mp hid
    exact ⟨pid, rfl⟩
  have hboth : Machine.ActedBoth q (World.Twins (namesOf q) I d.world) (d.machine q) alone
      (e.map (q, ·)) ((d.machine q).step q (e.map (q, ·))) (alone.step q (e.map (q, ·))) := by
    refine Machine.actedBoth_step q ((isPowerLoss_map (q, ·) e).trans he)
      (fun id _ => congrFun h.client id) (h.twin.twins rfl)
      (fun id _ => (h.twin.unlock id).twins rfl) ?_
    intro id o call he hcalls
    obtain ⟨pid, rfl⟩ := hactor id (by rw [he]; rfl)
    rw [machine_client] at hcalls
    obtain ⟨F, hF, hwithin⟩ := (h.member pid).within h.twin.tagged hcalls
    exact ⟨(World.exec_inside h.twin hF hwithin).answer,
      (World.exec_inside h.twin hF hwithin).twins⟩
  cases hboth with
  | none h1 h2 =>
    rw [step_of_none he h1, h2]
    exact ⟨I, h⟩
  | @acts id w w' c report hid ha hT h1 h2 =>
    obtain ⟨pid, rfl⟩ := hactor id hid
    obtain ⟨hnext, hlocks⟩ := ha.bounds
    obtain ⟨hkept, hmember⟩ := Member.acts (by rw [machine_client]; exact h.member pid) h.twin ha
    rw [step_of_acted he h1, h2]
    refine ⟨World.grown I d.world w, ⟨hT, ?_, ?_, fun i hi id hl => ?_, fun pid' => ?_,
      fun p hp pid' => ?_⟩⟩
    · rw [machine_acted_client, ← h.client]
      rfl
    · show report.toList ++ alone.log = Function.update d.log q (report.toList ++ d.log q) q
      rw [Function.update_self, h.log]
    · rcases hlocks i id hl with hold | rfl
      · rcases hi with hi | ⟨hle, -⟩
        · exact h.owned i hi id hold
        · cases (h.twin.tagged.unlocked i hle).symm.trans hold
      · rfl
    · rw [acted_client]
      by_cases hpid : pid' = pid
      · rw [if_pos hpid, hpid]
        exact hmember
      · rw [if_neg hpid]
        exact (h.member pid').kept hkept (fun he => hpid (Prod.mk.inj he).2) World.subset_grown
    · rw [acted_client_of_ne hp]
      exact (h.stranger p hp pid').mono fun F hF => hF.grown hnext

/-- **An event of a clear path** is not noticed. -/
theorem Mirror.stranger_step (h : Mirror q I d alone) (hclear : Clear p q)
    (he : e.isPowerLoss = false) :
    Mirror q I (d.step (p, e)) (alone.elsewhere ((d.step (p, e)).world.next - d.world.next)) ∧
      Undisturbed q d (d.step (p, e)) := by
  have hne := hclear.ne
  rcases Machine.acted_step p (d.machine p) ((isPowerLoss_map (p, ·) e).trans he) with
    hnone | ⟨id, w, c, report, hid, ha, hacted⟩
  · rw [step_of_none he hnone, Nat.sub_self]
    exact ⟨h, rfl, rfl, rfl, fun _ _ => rfl, rfl, rfl⟩
  · rw [actor_map] at hid
    obtain ⟨pid, -, rfl⟩ := Option.map_eq_some_iff.mp hid
    have hlocked : ∀ i ∈ I, d.world.locks i ≠ some (p, pid) := fun i hi hl =>
      hne (h.owned i hi _ hl)
    obtain ⟨helse, hstranger⟩ := Stranger.acts (by rw [machine_client]; exact h.stranger p hne pid)
      hclear h.twin.tagged hlocked ha
    have hlock : ∀ fd, d.world.dir (sibling q ".lock") = some fd → w.locks fd = d.world.locks fd :=
      fun fd hfd => helse.same.locks fd
        ((h.twin.tagged.mem_iff _ fd hfd).mpr (Or.inr (Or.inr rfl)))
    have hlockFile : w.dir (sibling q ".lock") = d.world.dir (sibling q ".lock") :=
      helse.same.dir _ (Or.inr (Or.inr rfl))
    rw [step_of_acted he hacted]
    refine ⟨⟨h.twin.elsewhere helse, ?_, ?_, fun i hi id hl => ?_, fun pid' => ?_,
      fun p' hp' pid' => ?_⟩, ?_⟩
    · funext id
      show alone.client id = if id.1 = q then (d.acted p pid w c report).client q id.2 else .idle
      rw [acted_client_of_ne hne.symm, h.client]
      rfl
    · exact h.log.trans (Function.update_of_ne hne.symm _ _).symm
    · exact h.owned i hi id ((helse.same.locks i hi).symm.trans hl)
    · rw [acted_client_of_ne hne.symm]
      have hkept : Kept q (p, pid) d.world w := ⟨fun fd hfd => hlockFile.trans hfd,
        fun id' _ ⟨i, hi, hl⟩ => ⟨i, hlockFile.trans hi, (hlock i hi).trans hl⟩⟩
      exact (h.member pid').kept hkept (fun he => hne (Prod.mk.inj he).1.symm) subset_rfl
    · by_cases hp : p' = p
      · subst hp
        rw [acted_client]
        by_cases hpid : pid' = pid
        · rw [if_pos hpid]
          exact hstranger
        · rw [if_neg hpid]
          exact (h.stranger p' hp' pid').mono fun F hF => hF.mono helse.next
      · rw [acted_client_of_ne hp]
        exact (h.stranger p' hp' pid').mono fun F hF => hF.mono helse.next
    · exact ⟨helse.same.dir q (Or.inl rfl), helse.same.content h.twin.tagged (Or.inl rfl),
        hlockFile, hlock, acted_client_of_ne hne.symm _ _ _ _, Function.update_of_ne hne.symm _ _⟩

/-! ## Runs -/

omit [DecidableEq Pid] in
/-- The files of the path when the signers start. -/
theorem mirror_boot (q : String) (files : List (String × Bytes)) :
    ∃ I, Mirror q I (boot files : Directory K Pid) (Machine.boot files) := by
  have hok : (World.boot files : World String (String × Pid)).Ok := World.ok_boot files
  have hclients : (Machine.boot files : Machine (K q) (String × Pid)).client
      = ((boot files : Directory K Pid).machine q).client := by
    funext id
    exact (ite_self (c := id.1 = q) Client.idle).symm
  refine ⟨{i | ∃ n ∈ namesOf q, (World.boot files : World String (String × Pid)).dir n = some i},
    ⟨⟨⟨fun n i => hok.content_lt, fun n i hi => ?_, ?_, fun _ _ => rfl⟩,
      ⟨fun _ _ => rfl, fun _ _ => rfl, fun _ _ => rfl⟩, rfl, fun _ _ => rfl⟩,
      hclients, rfl, fun _ _ _ hl => ?_, fun _ => trivial, fun _ _ _ => trivial⟩⟩
  · refine ⟨?_, fun hn => ⟨n, hn, hi⟩⟩
    rintro ⟨n', hn', hi'⟩
    rw [hok.injective _ List.mem_cons_self n n' i hi hi']
    exact hn'
  · rintro i ⟨n, -, hi⟩
    exact hok.content_lt hi
  · cases hl

/-- A run without a power loss in which the other paths are clear. -/
def Apart (q : String) (events : List (String × Event Pid)) : Prop :=
  ∀ x ∈ events, x.2.isPowerLoss = false ∧ (x.1 ≠ q → Clear x.1 q)

/-- **What happens at a path happens in the same way when it is alone.** -/
theorem mirror_run {q : String} : ∀ {events : List (String × Event Pid)} {I : Set Nat}
    {d : Directory K Pid} {alone : Machine (K q) (String × Pid)}, Apart q events →
    Mirror q I d alone → ∃ (own : List (Event Pid ⊕ Nat)) (I' : Set Nat),
      own.filterMap Sum.getLeft? = eventsAt q events ∧
        Mirror q I' (d.run events) (alone.runAlone q own)
  | [], I, _, _, _, h => ⟨[], I, rfl, h⟩
  | (p, e) :: events, I, d, alone, hapart, h => by
    obtain ⟨he, hclear⟩ := hapart (p, e) List.mem_cons_self
    have hapart' : Apart q events := fun x hx => hapart x (List.mem_cons_of_mem _ hx)
    by_cases hp : p = q
    · subst hp
      obtain ⟨I1, h1⟩ := h.member_step he
      obtain ⟨own, I', hown, h'⟩ := mirror_run hapart' h1
      refine ⟨.inl e :: own, I', ?_, h'⟩
      simp [eventsAt, hown]
    · obtain ⟨h1, -⟩ := h.stranger_step (hclear hp) he
      obtain ⟨own, I', hown, h'⟩ := mirror_run hapart' h1
      refine ⟨.inr ((d.step (p, e)).world.next - d.world.next) :: own, I', ?_, h'⟩
      rw [List.filterMap_cons_none rfl, hown]
      simp [eventsAt, hp]

end Directory

/--
**Signers at different paths do not interfere**, if neither path is the other one with `.tmp` or
`.lock` appended. In every run of clients of `q` and of such paths, whatever their instances:

* no step of another path changes what `q` names, the key file, its lock file or who holds it
* the path does what it does alone, apart from the inodes that others have taken
* it has at most one live signer
-/
theorem paths_do_not_interfere (k : String → Instance) {Pid : Type} [DecidableEq Pid]
    (files : List (String × Bytes)) (q : String) (events : List (String × Event Pid))
    (hapart : Directory.Apart q events) :
    let d : Directory (fun path => (k path).SecretKey) Pid := (Directory.boot files).run events
    (∀ p e, Clear p q → e.isPowerLoss = false → Directory.Undisturbed q d (d.step (p, e))) ∧
    (∃ own : List (Event Pid ⊕ Nat), own.filterMap Sum.getLeft? = Directory.eventsAt q events ∧
      let m : Machine (k q).SecretKey (String × Pid) := (Machine.boot files).runAlone q own
      m.world.content q = d.world.content q ∧ (∀ pid, m.client (q, pid) = d.client q pid) ∧
        m.log = d.log q) ∧
    ∀ pid pid', (d.client q pid).Live → (d.client q pid').Live → pid = pid' := by
  intro d
  obtain ⟨I, hboot⟩ : ∃ I, Directory.Mirror q I
      (Directory.boot files : Directory (fun path => (k path).SecretKey) Pid)
        (Machine.boot files) :=
    Directory.mirror_boot q files
  obtain ⟨own, I', hown, h⟩ := Directory.mirror_run hapart hboot
  refine ⟨fun p e hclear he => (h.stranger_step hclear he).2, ⟨own, hown, ?_, fun pid => ?_, h.log⟩,
    fun pid pid' hlive hlive' => ?_⟩
  · exact h.twin.same.content h.twin.tagged (Or.inl rfl)
  · rw [h.client]
    exact Directory.machine_client _ q pid
  · have hholds := (h.member pid).holds hlive
    exact (Prod.mk.inj (hholds.unique ((h.member pid').holds hlive'))).2

end

/-- `n` calls of client 0 of a path. -/
def callsAt (path : String) (n : Nat) : List (String × Event Nat) :=
  List.replicate n (path, .io 0 (.ok []))

/-- Signers of `p` and of `q` are created. -/
def createEvents (p q : String) : List (String × Event Nat) :=
  (p, .create 0) :: callsAt p 10 ++ (q, .create 0) :: callsAt q 10

/-- The signer of `p` signs. -/
def signEvents (p : String) : List (String × Event Nat) := (p, .sign 0 (zeros _)) :: callsAt p 10

/-- Keys at two clear paths. -/
theorem paths_do_not_interfere_once :
    letI := constantHash
    let d : Directory (fun _ => Instance.winternitz.SecretKey) Nat :=
      (Directory.boot []).run (createEvents "hot" "cold" ++ signEvents "hot")
    Directory.Undisturbed "cold" d (d.step ("hot", .drop 0)) := by
  let _ := constantHash
  have hclear : Clear "hot" "cold" := by
    constructor <;> decide
  have hevents : ∀ x ∈ createEvents "hot" "cold" ++ signEvents "hot",
      x.2.isPowerLoss = false ∧ (x.1 = "hot" ∨ x.1 = "cold") := by decide +kernel
  refine (paths_do_not_interfere (fun _ => .winternitz) [] "cold" _ fun x hx =>
    ⟨(hevents x hx).1, fun hne => ?_⟩).1 "hot" (.drop 0) hclear rfl
  rw [(hevents x hx).2.resolve_right hne]
  exact hclear

/-- `key` signs, and `key.tmp` signs another message before `key` renames what is now its file. -/
def handedEvents : List (String × Event Nat) :=
  ("key", .sign 0 (zeros _)) :: callsAt "key" 5
    ++ ("key.tmp", .sign 0 (.replicate _ 1)) :: callsAt "key.tmp" 10 ++ callsAt "key" 5

/--
**Signers at two paths interfere**, in each of the four cases in which one is the other one with a
suffix.

* The signer of `key` replaces the file of `key.tmp` and moves it away.
* If the signer of `key.tmp` signs meanwhile, then `key` is handed the record of `key.tmp`.
* The signer of `key.lock` replaces the lock file of `key`, of which there are two signers then.
* The lock file of `key` stands in the way of a key at `key.lock`, which cannot be created.
-/
theorem paths_interfere :
    letI := constantHash
    let d (p q : String) : Directory (fun _ => Instance.winternitz.SecretKey) Nat :=
      (Directory.boot []).run (createEvents p q)
    let handed := (d "key" "key.tmp").run handedEvents
    let e := ((d "key.lock" "key").run (signEvents "key.lock")).run
      (("key", .openFile 1) :: List.replicate 10 ("key", .io 1 (.ok [])))
    (((d "key" "key.tmp").world.content "key.tmp").isSome = true ∧
      ((d "key" "key.tmp").run (signEvents "key")).world.content "key.tmp" = none) ∧
    ((handed.client "key" 0).signer.map (·.lastMessage) = some (some (zeros _)) ∧
      (handed.world.content "key").map
          (fun f => Header.lastMessage (slice f.bytes 0 Layout.secrets))
        = some (some (.replicate _ 1))) ∧
    (((d "key.lock" "key").world.dir "key.lock"
        ≠ ((d "key.lock" "key").run (signEvents "key.lock")).world.dir "key.lock") ∧
      (e.client "key" 0).signer.isSome = true ∧ (e.client "key" 1).signer.isSome = true) ∧
    ((d "key.lock" "key").client "key.lock" 0).signer.isSome = true ∧
      ((d "key" "key.lock").client "key.lock" 0).signer.isSome = false := by
  let _ := constantHash
  exact ⟨⟨by decide +kernel, by decide +kernel⟩, ⟨by decide +kernel, by decide +kernel⟩,
    ⟨by decide +kernel, by decide +kernel, by decide +kernel⟩, by decide +kernel,
    by decide +kernel⟩

end SolanaWinternitz
