import SolanaWinternitz.Properties.OneSignature
import SolanaWinternitz.Properties.CanonicalFile

/-!
# Retries

Once `sign` has returned a signature, the record of it is visible. As long as no other message is
signed, every client that has a signer has that record, and what it signs makes no call at all. Once
the record is replaced, its leaf is behind for good.

* `Steady` — the invariant of the runs that only repeat a message (`Steady.step`)
* `retries_idempotent` — **a retry returns the same signature; a replaced one never comes back**
-/

namespace SolanaWinternitz

open Infra Infra.Os

variable [Keccak] {K : Type} [OneTime K] {path : String} {message : Message}
  {sig : OneTime.Signature K} {r : Record K}

/-! ## The functions -/

/-- A signer of a visible record. -/
structure SigningKey.Fresh (signer : SigningKey K) (r : Record K) : Prop where
  failed : signer.failed = false
  record : signer.record = r

/-- A function that signs leaves a signer that has not failed, if it returns a signature. -/
def Answered (r : Except SigningError (OneTime.Signature K) × SigningKey K) : Prop :=
  ∀ sig, r.1 = .ok sig → r.2.failed = false

theorem SigningKey.yields_signWithRng (signer : SigningKey K) (message : Message)
    (fill : FillSource) : (signer.signWithRng message fill).Yields Answered := by
  unfold SigningKey.signWithRng
  by_cases hfailed : signer.failed = true
  · rw [if_pos hfailed]
    intro sig he
    cases he
  rw [if_neg hfailed]
  have hunfailed := Bool.eq_false_iff.mpr hfailed
  by_cases hretry : signer.lastMessage = some message
  · rw [if_pos hretry]
    exact fun _ _ => hunfailed
  rw [if_neg hretry]
  by_cases hspent : signer.nextLeaf ≥ OneTime.leaves K
  · rw [if_pos hspent]
    exact fun _ _ => hunfailed
  rw [if_neg hspent]
  refine Prog.yields_bind (fun sampled => Prog.yields_bind (fun written => ?_) _) _
  cases written with
  | error e =>
    intro sig he
    cases he
  | ok u =>
    cases sampled with
    | error e => exact fun _ _ => hunfailed
    | ok salt => exact fun _ _ => hunfailed

variable {Pid : Type} {pid : Pid} {w w' : World String Pid} {i : Nat}

/-- `create` refuses a file that exists, and does nothing to it. -/
theorem always_createLocked_exists (hi : w.dir path = some i) (clean : Bool) (lock : Fd) :
    (SigningKey.createLocked K path lock).run.Always (Runs (fun _ => True) pid)
      (fun s s' => s'.1 = s.1) (fun result _ => ∃ e, result = .error e) (w, clean) := by
  unfold SigningKey.createLocked
  refine Prog.always_bindExcept (always_orFail ?_)
  rintro r ⟨w', clean'⟩ ⟨o, -, hexec, -⟩
  obtain ⟨hw, hr⟩ := World.exec_createNew hexec
  change Except IoError Fd at r
  cases r with
  | ok fd => cases hi.symm.trans (hr fd rfl).1
  | error kind =>
    rcases hw with rfl | ⟨hnone, -⟩
    · exact ⟨rfl, _, rfl⟩
    · cases hi.symm.trans hnone

/-! ## Who has returned a signature -/

/-- The client answers as `Answered` says. -/
def Client.Answers : Client K → Prop
  | .signing _ _ rest => rest.Yields Answered
  | _ => True

namespace Machine

/-- Every client does. -/
def Answering (m : Machine K Pid) : Prop := ∀ pid, (m.client pid).Answers

variable [DecidableEq Pid] {m : Machine K Pid}

theorem Answering.step (h : Answering m) (e : Event Pid) : Answering (m.step path e) := by
  cases he : e.isPowerLoss with
  | true =>
    cases e with
    | powerLoss version left => exact fun _ => trivial
    | _ => cases he
  | false =>
    obtain heq | ⟨pid, w, c, report, -, ha, heq⟩ := acted_step path m he
    · rw [heq]
      exact h
    · rw [heq]
      have hclient := h pid
      have hc : c.Answers := by
        cases ha with
        | sign hc he => exact SigningKey.yields_signWithRng _ _ _
        | signCall hc he hexec =>
          rw [hc] at hclient
          exact hclient _
        | _ => trivial
      intro q
      show (Function.update m.client pid c q).Answers
      by_cases hq : q = pid
      · subst hq
        rw [Function.update_self]
        exact hc
      · rw [Function.update_of_ne hq]
        exact h q

/-- In every run from a start. -/
theorem answering_run (path : String) (files : List (String × Bytes)) (events : List (Event Pid)) :
    Answering ((boot files).run path events : Machine K Pid) :=
  run_rule (Q := Answering) (P := fun _ _ => True) (fun _ e h _ => h.step e) events
    (fun _ => trivial) (along_of_forall _ fun _ _ _ => trivial)

/-- The event makes a call that signs return. -/
def Returns (path : String) (m : Machine K Pid) (e : Event Pid) (message : Message)
    (result : Except SigningError (OneTime.Signature K)) : Prop :=
  ∃ retry, (m.step path e).log = .signed message retry result :: m.log

/-- A call returns when its program has ended, and its client goes on. -/
theorem Returns.signed {e : Event Pid} {result : Except SigningError (OneTime.Signature K)}
    (h : Returns path m e message result) : e.isPowerLoss = false ∧
      ∃ pid retry signer, m.client pid = .signing message retry (.ret (result, signer)) ∧
        m.step path e
          = m.acted pid m.world (.live signer) (some (.signed message retry result)) := by
  obtain ⟨retry, hlog⟩ := h
  have hlonger : (m.step path e).log ≠ m.log := fun he =>
    List.cons_ne_self _ _ (hlog.symm.trans he)
  have hpower : e.isPowerLoss = false := by
    cases e with
    | powerLoss version left => exact absurd rfl hlonger
    | _ => rfl
  refine ⟨hpower, ?_⟩
  obtain heq | ⟨pid, w, c, report, -, ha, heq⟩ := acted_step path m hpower
  · exact absurd (congrArg Machine.log heq) hlonger
  · rw [heq] at hlog
    have hreport : report.toList = [.signed message retry result] :=
      List.append_cancel_right (hlog : report.toList ++ m.log = [_] ++ m.log)
    cases ha with
    | @signed message' retry' result' signer hc =>
      cases hreport
      exact ⟨pid, retry, signer, hc, heq⟩
    | started hc => cases hreport
    | refused hc => cases hreport
    | _ => cases hreport

/-! ## While only one message is signed -/

end Machine

/-- The event repeats the message, or signs nothing. -/
def Event.repeats (message : Message) : Event Pid → Bool
  | .sign _ message' | .signWithRng _ message' => message' = message
  | .powerLoss _ _ => false
  | _ => true

namespace Machine

/-- What a client does while the record stays as it is. -/
def ClientSteady (path : String) (message : Message) (sig : OneTime.Signature K) (r : Record K)
    (w : World String Pid) (pid : Pid) : Client K → Prop
  | .idle => True
  | .starting _ clean rest => Holds path w pid → rest.Always (Runs (fun _ => True) pid)
      (fun s s' => s'.1 = s.1) (fun result _ => ∀ signer, result = .ok signer → signer.Fresh r)
      (w, clean)
  | .live signer => signer.Fresh r
  | .signing message' _ rest => message' = message ∧
      ∃ signer, rest = .ret (.ok sig, signer) ∧ signer.Fresh r

/-- The file stays as it is, and every client that has a signer has its record. -/
structure Steady (path : String) (f : File) (message : Message) (sig : OneTime.Signature K)
    (r : Record K) (m : Machine K Pid) : Prop where
  content : m.world.content path = some f
  client : ∀ pid, ClientSteady path message sig r m.world pid (m.client pid)

/-- The steps of other clients do not matter. -/
theorem ClientSteady.turn {q : Pid} {c : Client K} (ht : Turn K path pid w w') (hne : q ≠ pid)
    (h : ClientSteady path message sig r w q c) : ClientSteady path message sig r w' q c := by
  cases c with
  | starting opening clean rest =>
    intro hq'
    have hq := ht.holds q hne hq'
    rw [ht.same q hne hq]
    exact h hq
  | _ => exact h

variable {f : File}

/-- A client that gets the lock of a file with a record. -/
theorem always_afterLock {opening : Bool} {fd : Fd} {clean : Bool}
    (hcontent : w.content path = some f) (hr : decode K f.bytes = some r) :
    (afterLock K path opening fd).run.Always (Runs (fun _ => True) pid) (fun s s' => s'.1 = s.1)
      (fun result _ => ∀ signer, result = .ok signer → signer.Fresh r) (w, clean) := by
  cases opening with
  | true =>
    refine (always_openLocked (fun _ _ => rfl) clean fd).imp (fun _ _ hG => hG) ?_
    rintro result s ⟨-, hresult⟩ signer rfl
    obtain ⟨hvisible, -, hfailed⟩ := hresult
    rw [World.visible_of_content hcontent, hr] at hvisible
    exact ⟨hfailed, (Option.some.inj hvisible).symm⟩
  | false =>
    obtain ⟨i, hi, -⟩ := Option.map_eq_some_iff.mp hcontent
    refine (always_createLocked_exists hi clean fd).imp (fun _ _ hG => hG) ?_
    rintro result s ⟨e, rfl⟩ signer he
    cases he

variable [DecidableEq Pid] {m : Machine K Pid} {e : Event Pid}

/-- What the acting client does to the file, and what it is doing then. -/
theorem Steady.acts [LawfulOneTime K] (h : Steady path f message sig r m)
    (hinv : Inv path (fun _ => True) (fun _ => True) m) (hr : decode K f.bytes = some r)
    (hsigns : r.Signs message sig) (he : e.repeats message = true) {c : Client K}
    {report : Option (Report K)} (ha : Acts path m e pid w c report) :
    w.content path = some f ∧ ClientSteady path message sig r w pid c := by
  have hclient := h.client pid
  have hok := hinv.client pid
  cases ha with
  | start hc =>
    rw [hc] at hok
    exact ⟨h.content, fun hpid => absurd hpid hok⟩
  | @sign message' fill signer hc hsign =>
    rw [hc] at hclient
    have hm : message' = message := by
      rcases hsign with ⟨rfl, -⟩ | ⟨rfl, -⟩
      · exact of_decide_eq_true he
      · exact of_decide_eq_true he
    subst hm
    obtain ⟨hfailed, hrecord⟩ := hclient
    exact ⟨h.content, rfl, signer, signer.signWithRng_retry hfailed (hrecord ▸ hsigns) fill,
      hfailed, hrecord⟩
  | leave => exact ⟨h.content, trivial⟩
  | @startCall opening clean call k o answer w hc he hexec =>
    rw [hc] at hclient hok
    rcases hok with ⟨hpid, hwait⟩ | ⟨hpid, -⟩
    · cases hwait with
      | begin =>
        obtain ⟨hw, -⟩ := World.exec_openSidecar hexec
        rcases hw with rfl | rfl
        · exact ⟨h.content, fun hw => absurd hw hpid⟩
        · exact ⟨(World.content_touch_of_ne hinv.world.ok (sibling_ne (by decide)).symm).trans
            h.content, fun hw => absurd (hw.of_locks hinv.world (World.locks_touch _ _)) hpid⟩
      | acquire hfd =>
        rcases World.exec_tryLock hexec with ⟨rfl, -, rfl⟩ | ⟨-, rfl⟩
        · exact ⟨h.content, fun _ => always_afterLock h.content hr⟩
        · exact ⟨h.content, fun hw => absurd hw hpid⟩
    · obtain ⟨hw, hrest⟩ := hclient hpid answer (w, clean && o.isOk) ⟨o, trivial, hexec, rfl⟩
      obtain rfl : w = m.world := hw
      exact ⟨h.content, fun _ => hrest⟩
  | started hc =>
    rw [hc] at hclient hok
    rcases hok with ⟨-, hwait⟩ | ⟨hpid, -⟩
    · cases hwait
    · exact ⟨h.content, hclient hpid _ rfl⟩
  | refused hc => exact ⟨h.content, trivial⟩
  | signCall hc he hexec =>
    rw [hc] at hclient
    obtain ⟨-, signer, hrest, -⟩ := hclient
    cases hrest
  | signed hc =>
    rw [hc] at hclient
    obtain ⟨-, signer, hrest, hfresh⟩ := hclient
    cases hrest
    exact ⟨h.content, hfresh⟩

/-- **Nothing that repeats the message changes the file.** -/
theorem Steady.step [LawfulOneTime K] (h : Steady path f message sig r m)
    (hinv : Inv path (fun _ => True) (fun _ => True) m) (hr : decode K f.bytes = some r)
    (hsigns : r.Signs message sig) (he : e.repeats message = true) :
    Steady path f message sig r (m.step path e) := by
  have hpower : e.isPowerLoss = false := by
    cases e with
    | powerLoss version left => cases he
    | _ => rfl
  obtain heq | ⟨pid, w, c, report, -, ha, heq⟩ := acted_step path m hpower
  · rw [heq]
    exact h
  · rw [heq]
    obtain ⟨hcontent, hclient⟩ := h.acts hinv hr hsigns he ha
    have hmoved := ha.moved hinv (allowed_of_true m e)
    refine ⟨hcontent, fun q => ?_⟩
    by_cases hq : q = pid
    · subst hq
      show ClientSteady path message sig r w q (Function.update m.client q c q)
      rw [Function.update_self]
      exact hclient
    · rw [hmoved.others q hq]
      exact (h.client q).turn hmoved.turn hq

theorem steady_run [LawfulOneTime K] (events : List (Event Pid))
    (h : Inv path (fun _ => True) (fun _ => True) m ∧ Steady path f message sig r m)
    (hr : decode K f.bytes = some r) (hsigns : r.Signs message sig)
    (he : ∀ e ∈ events, e.repeats message = true) :
    Steady path f message sig r (m.run path events) := by
  refine (run_rule (P := fun _ e => e.repeats message = true)
    (Q := fun m => Inv path (fun _ => True) (fun _ => True) m ∧ Steady path f message sig r m)
    ?_ events h (along_of_forall m fun e hmem _ => he e hmem)).2
  rintro m e ⟨hinv, hsteady⟩ he
  exact ⟨inv_step hinv (allowed_of_true m e), hsteady.step hinv hr hsigns he⟩

/-- **A signature has just been returned**: it is of the visible record, and its client has that
record. -/
theorem Returns.steady [LawfulOneTime K] {path : String}
    (h : Returns path m e message (.ok sig))
    (hinv : Inv path (fun _ => True) (fun _ => True) m) (hanswers : Answering m) :
    ∃ f r, decode K f.bytes = some r ∧ r.Valid ∧ r.Signs message sig ∧
      Steady path f message sig r (m.step path e) := by
  obtain ⟨-, pid, retry, signer, hc, heq⟩ := h.signed
  have ha : Acts path m e pid m.world (.live signer) (some (.signed message retry (.ok sig))) :=
    .signed hc
  have hinv' := hinv.moved (ha.moved hinv (allowed_of_true m e))
  have hclient := hinv.client pid
  have hfailed := hanswers pid
  rw [hc] at hclient hfailed
  obtain ⟨hpid, clean, howns, f, r, hf, hr, hsigns, -⟩ := hclient
  have hunfailed : signer.failed = false := hfailed sig rfl
  have hrecord : signer.record = r := by
    have hvisible := howns.current hunfailed
    rw [World.visible_of_content hf, hr] at hvisible
    exact (Option.some.inj hvisible).symm
  refine ⟨f, r, hr, valid_of_decode hr, hsigns, ?_⟩
  rw [heq]
  refine ⟨hf, fun q => ?_⟩
  by_cases hq : q = pid
  · subst hq
    show ClientSteady path message sig r m.world q (Function.update m.client q (.live signer) q)
    rw [Function.update_self]
    exact ⟨hunfailed, hrecord⟩
  · -- The client that has signed holds the lock, so that no other one does.
    have hother := hinv'.client q
    show ClientSteady path message sig r m.world q (Function.update m.client pid (.live signer) q)
    change ClientOk path _ _ m.world q (Function.update m.client pid (.live signer) q) at hother
    rw [Function.update_of_ne hq] at hother ⊢
    have hfree : ¬ Holds path m.world q := fun h => hq (h.unique hpid)
    cases hcq : m.client q with
    | idle => trivial
    | starting opening clean rest => exact fun h => absurd h hfree
    | live signer =>
      rw [hcq] at hother
      exact absurd hother.1 hfree
    | signing message' retry rest =>
      rw [hcq] at hother
      exact absurd hother.1 hfree

/-- A signature that a call returns is of the record that is visible then. -/
theorem Returns.signs [LawfulOneTime K] {path : String} (h : Returns path m e message (.ok sig))
    (hinv : Inv path (fun _ => True) (fun _ => True) m) :
    ∃ r, m.world.visible (decode K) path = some r ∧ r.Valid ∧ r.Signs message sig := by
  obtain ⟨-, pid, retry, signer, hc, -⟩ := h.signed
  have hclient := hinv.client pid
  rw [hc] at hclient
  obtain ⟨-, clean, -, f, r, hf, hr, hsigns, -⟩ := hclient
  exact ⟨r, (World.visible_of_content hf).trans hr, valid_of_decode hr, hsigns⟩

/-- What a call returns is at a leaf where nothing was released, or was released before. -/
theorem Returns.fresh [LawfulOneTime K] {path : String} (h : Returns path m e message (.ok sig))
    (hinv : Inv path (fun _ => True) (fun _ => True) m) (hsafe : Safe path m) :
    (∀ p ∈ m.released, SealedSignature.leaf p.2 ≠ SealedSignature.leaf sig) ∨
      (message, sig) ∈ m.released := by
  obtain ⟨hpower, -⟩ := h.signed
  obtain ⟨pid, hmoved⟩ := step_moved hinv (allowed_of_true m e) hpower
  obtain ⟨retry, hlog⟩ := h
  have hreleased : (m.step path e).released = (message, sig) :: m.released := released_of_log hlog
  by_cases hold : ∃ p ∈ m.released, SealedSignature.leaf p.2 = SealedSignature.leaf sig
  · obtain ⟨p, hp, hleaf⟩ := hold
    rcases hsafe.moved hmoved with hnil | ⟨r, -, hc⟩
    · rw [hreleased] at hnil
      cases hnil
    · rw [hreleased] at hc
      have heq := hc.unique p (List.mem_cons_of_mem _ hp) (message, sig) List.mem_cons_self hleaf
      exact Or.inr (heq ▸ hp)
  · exact Or.inl fun p hp hleaf => hold ⟨p, hp, hleaf⟩

/-- A signature is released when a call returns it. -/
theorem returns_of_released {path : String}
    (h : (m.step path e).released = (message, sig) :: m.released) :
    Returns path m e message (.ok sig) := by
  have hlonger : (m.step path e).released ≠ m.released := fun he =>
    List.cons_ne_self _ _ (h.symm.trans he)
  have hpower : e.isPowerLoss = false := by
    cases e with
    | powerLoss version left => exact absurd rfl hlonger
    | _ => rfl
  obtain heq | ⟨pid, w, c, report, -, ha, heq⟩ := acted_step path m hpower
  · exact absurd (congrArg released heq) hlonger
  · have hlog : (m.step path e).log = report.toList ++ m.log := congrArg Machine.log heq
    cases report with
    | none => exact absurd (congrArg (List.filterMap Report.released) hlog) hlonger
    | some report =>
      rw [released_of_log hlog] at h
      have hreport : report.released.toList = [(message, sig)] := List.append_cancel_right h
      cases report with
      | started opening clean result => cases hreport
      | signed message' retry result =>
        cases result with
        | error e => cases hreport
        | ok sig' =>
          cases hreport
          exact ⟨retry, hlog⟩

end Machine

/-- A signature of a later record is at a later leaf. -/
theorem Record.Signs.leaf_lt [LawfulOneTime K] {r' : Record K} {message' : Message}
    {sig' : OneTime.Signature K} (h : r.Signs message sig) (hvalid : r.Valid)
    (h' : r'.Signs message' sig') (hvalid' : r'.Valid) (hlt : r.nextLeaf < r'.nextLeaf) :
    SealedSignature.leaf sig < SealedSignature.leaf sig' := by
  have hnat := UInt32.lt_iff_toNat_lt.mp hlt
  have hnext := h.toNat_nextLeaf hvalid
  have hnext' := h'.toNat_nextLeaf hvalid'
  exact UInt32.lt_iff_toNat_lt.mpr (by omega)

omit [Keccak] in
/-- The encoding determines the signature. -/
theorem asBytes_injective (k : Instance) :
    Function.Injective (SealedSignature.asBytes (S := OneTime.Signature k.SecretKey)) := by
  intro sig sig' h
  cases k with
  | winternitz => exact congrArg Winternitz.Signature.mk (List.Vector.eq _ _ h)
  | xmss => exact congrArg Xmss.Signature.mk (List.Vector.eq _ _ h)

/--
**Retries are idempotent, across restarts.** Once a call has returned a signature, then in every run
that signs no other message the file stays byte by byte as it is, every signer has its record, every
call that signs the message ends without a call of its own, be leaves left or not, and it returns
that signature. Once a run without a power loss has replaced the visible record, the signature is
never returned again: what is returned is at a later leaf, which is a fresh one unless the signature
was returned before.
-/
theorem retries_idempotent (k : Instance) {Pid : Type} [DecidableEq Pid] (path : String)
    (files : List (String × Bytes)) (before : List (Event Pid)) (e : Event Pid) (message : Message)
    (sig : OneTime.Signature k.SecretKey)
    (hreturned : Machine.Returns path
      ((Machine.boot files).run path before : Machine k.SecretKey Pid) e message (.ok sig)) :
    let m : Machine k.SecretKey Pid := ((Machine.boot files).run path before).step path e
    (∀ after, (∀ e ∈ after, e.repeats message = true) →
      let m' := m.run path after
      m'.world.content path = m.world.content path ∧
      (∀ pid signer, m'.client pid = .live signer →
        m.world.visible (decode k.SecretKey) path = some signer.record) ∧
      (∀ pid message' retry rest, m'.client pid = .signing message' retry rest →
        message' = message ∧ ∃ signer, rest = .ret (.ok sig, signer) ∧
          m.world.visible (decode k.SecretKey) path = some signer.record) ∧
      ∀ e' message' result, Machine.Returns path m' e' message' result →
        message' = message ∧ result = .ok sig) ∧
    (∀ between after r r', (∀ e ∈ between ++ after, e.isPowerLoss = false) →
      m.world.visible (decode k.SecretKey) path = some r →
      (m.run path between).world.visible (decode k.SecretKey) path = some r' → r' ≠ r →
      let m' := (m.run path between).run path after
      ∀ e' message' sig', Machine.Returns path m' e' message' (.ok sig') →
        SealedSignature.leaf sig < SealedSignature.leaf sig' ∧
        SealedSignature.asBytes sig' ≠ SealedSignature.asBytes sig ∧
        ((∀ e ∈ before, e.isPowerLoss = false) →
          (∀ p ∈ m'.released, SealedSignature.leaf p.2 ≠ SealedSignature.leaf sig') ∨
            (message', sig') ∈ m'.released)) := by
  have hinv : Machine.Inv path (fun _ => True) (fun _ => True)
      ((Machine.boot files).run path before : Machine k.SecretKey Pid) :=
    Machine.inv_run before (Machine.inv_boot files)
      (Machine.along_of_forall _ fun e _ m => Machine.allowed_of_true m e)
  obtain ⟨f, r, hf, hvalid, hsigns, hsteady⟩ := hreturned.steady hinv
    (Machine.answering_run path files before)
  have hinv' := Machine.inv_step hinv (Machine.allowed_of_true _ e)
  dsimp only
  have hvisible := (World.visible_of_content hsteady.content).trans hf
  constructor
  · intro after hafter
    have hlater := Machine.steady_run after ⟨hinv', hsteady⟩ hf hsigns hafter
    refine ⟨hlater.content.trans hsteady.content.symm, ?_, ?_, ?_⟩
    · intro pid signer hc
      have hclient := hlater.client pid
      rw [hc] at hclient
      exact hvisible.trans (congrArg some hclient.record.symm)
    · intro pid message' retry rest hc
      have hclient := hlater.client pid
      rw [hc] at hclient
      obtain ⟨hm, signer, hrest, hfresh⟩ := hclient
      exact ⟨hm, signer, hrest, hvisible.trans (congrArg some hfresh.record.symm)⟩
    · intro e' message' result hreturns
      obtain ⟨-, pid, retry, signer, hc, -⟩ := hreturns.signed
      have hclient := hlater.client pid
      rw [hc] at hclient
      obtain ⟨hm, signer', hrest, -⟩ := hclient
      cases hrest
      exact ⟨hm, rfl⟩
  · intro between after r0 r' hpower hr0 hr' hne e' message' sig' hreturns
    cases hvisible.symm.trans hr0
    have hbetween := Machine.along_powered path
      (fun e he => hpower e (List.mem_append_left _ he))
      (((Machine.boot files).run path before).step path e : Machine k.SecretKey Pid)
    have hafter := Machine.along_powered path
      (fun e he => hpower e (List.mem_append_right _ he))
      ((((Machine.boot files).run path before).step path e).run path between :
        Machine k.SecretKey Pid)
    have hinv1 := Machine.inv_run between hinv'
      (Machine.along_of_forall _ fun e _ m => Machine.allowed_of_true m e)
    have hinv2 := Machine.inv_run after hinv1
      (Machine.along_of_forall _ fun e _ m => Machine.allowed_of_true m e)
    -- The record was replaced by a later one, and the signature is of one that is later still.
    obtain ⟨r1, hr1, hlater⟩ := Machine.record_run between hinv' hbetween hvisible
    cases hr'.symm.trans hr1
    obtain ⟨hkey, hlt⟩ := Or.resolve_left hlater hne
    obtain ⟨r2, hr2, -, hle⟩ := Machine.visible_run after hinv1 hafter hr'
    obtain ⟨r3, hr3, hvalid3, hsigns3⟩ := hreturns.signs hinv2
    cases hr2.symm.trans hr3
    have hleaf := hsigns.leaf_lt hvalid hsigns3 hvalid3
      (UInt32.lt_iff_toNat_lt.mpr (Nat.lt_of_lt_of_le (UInt32.lt_iff_toNat_lt.mp hlt)
        (UInt32.le_iff_toNat_le.mp hle)))
    refine ⟨hleaf, ?_, ?_⟩
    · intro he
      rw [asBytes_injective k he] at hleaf
      exact absurd hleaf (UInt32.lt_irrefl _)
    · intro hbefore
      have hsafe := Machine.safe_run before ⟨Machine.inv_boot files, Or.inl rfl⟩
        (Machine.along_powered path hbefore (Machine.boot files : Machine k.SecretKey Pid))
      obtain ⟨pid, hmoved⟩ := Machine.step_moved hinv (Machine.allowed_of_true _ e)
        hreturned.signed.1
      have hsafe1 := Machine.safe_run between ⟨hinv', hsafe.2.moved hmoved⟩ hbetween
      exact hreturns.fresh hinv2 (Machine.safe_run after hsafe1 hafter).2

/-- A signer that is created and about to return a signature. -/
def signedEvents : List (Event Nat) :=
  .create 0 :: Machine.calls 0 10 [] ++ .sign 0 (zeros _) :: Machine.calls 0 7 []

omit [Keccak] in
/-- It is asked for the same message again. -/
theorem retries_idempotent_twice :
    letI := constantHash
    let m : Machine Instance.winternitz.SecretKey Nat :=
      ((Machine.boot []).run "key" signedEvents).step "key" (.io 0 (.ok []))
    ∃ message sig, (message, sig) ∈ m.released ∧ ∀ message' result,
      Machine.Returns "key" (m.run "key" [.sign 0 message]) (.io 0 (.ok [])) message' result →
        message' = message ∧ result = .ok sig := by
  let _ := constantHash
  have hnone : ((Machine.boot []).run "key" signedEvents :
    Machine Instance.winternitz.SecretKey Nat).released.length = 0 := by decide +kernel
  have hone : (((Machine.boot []).run "key" signedEvents).step "key" (.io 0 (.ok [])) :
    Machine Instance.winternitz.SecretKey Nat).released.length = 1 := by decide +kernel
  obtain ⟨⟨message, sig⟩, hp⟩ := List.length_eq_one_iff.mp hone
  have hreturned : Machine.Returns "key" ((Machine.boot []).run "key" signedEvents :
      Machine Instance.winternitz.SecretKey Nat) (.io 0 (.ok [])) message (.ok sig) :=
    Machine.returns_of_released (by rw [hp, List.length_eq_zero_iff.mp hnone])
  refine ⟨message, sig, hp ▸ List.mem_singleton_self _, ?_⟩
  exact ((retries_idempotent .winternitz "key" [] signedEvents _ message sig hreturned).1
    [.sign 0 message] (fun e he => by
      rw [List.mem_singleton.mp he]
      exact decide_eq_true rfl)).2.2.2 _

end SolanaWinternitz
