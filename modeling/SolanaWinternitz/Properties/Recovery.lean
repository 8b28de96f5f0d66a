import SolanaWinternitz.Properties.OneSignature

/-!
# A signer never bricks its own key file

From a `create` that has returned, or a file that `open` accepts, every file that any run can leave
behind the path is a record that `open` accepts.

* `never_bricked` — over every run, power losses included
-/

namespace SolanaWinternitz

open Infra Infra.Os

section

variable [Keccak] {K : Type} [OneTime K]

/-- `open` that was carried out fails only for the lock, and `sign` is never `Corrupt`. -/
def Report.Good : Report K → Prop
  | .started true true (.error e) => e = .locked
  | .signed _ _ (.error e) => e ≠ .corrupt
  | _ => True

/-- The arithmetic of the code on `next_leaf` stays in range. -/
structure SigningKey.InRange (self : SigningKey K) : Prop where
  le : self.nextLeaf.toNat ≤ (OneTime.leaves K).toNat
  /-- The leaf of a retry. -/
  pred : self.lastMessage.isSome → (self.nextLeaf - 1).toNat + 1 = self.nextLeaf.toNat
  /-- The next leaf of an attempt. -/
  succ : self.nextLeaf < OneTime.leaves K → (self.nextLeaf + 1).toNat = self.nextLeaf.toNat + 1
  remaining : self.remaining.toNat + self.nextLeaf.toNat = (OneTime.leaves K).toNat

theorem SigningKey.inRange {self : SigningKey K} (h : self.record.Valid) : self.InRange := by
  have hle : self.nextLeaf ≤ OneTime.leaves K := h.nextLeaf_le
  have hnat := UInt32.le_iff_toNat_le.mp hle
  refine ⟨hnat, fun hm => ?_, u32_toNat_succ, ?_⟩
  · obtain ⟨message, hm⟩ := Option.isSome_iff_exists.mp hm
    have hne : self.nextLeaf ≠ 0 := (h.spent message hm).1
    have h0 : self.nextLeaf.toNat ≠ 0 := fun h0 => hne (UInt32.toNat_inj.mp h0)
    rw [u32_toNat_pred hne]
    omega
  · rw [SigningKey.remaining, UInt32.toNat_sub_of_le _ _ hle]
    omega

/-- **An exact retry** returns a signature that verifies, at the leaf that was spent last. -/
theorem SigningKey.retry_verifies [LawfulOneTime K] {self : SigningKey K}
    (h : self.record.Valid) (hfailed : self.failed = false) {message : Message}
    (hm : self.lastMessage = some message) (fill : FillSource) :
    ∃ sig, self.signWithRng message fill = pure (.ok sig, self) ∧
      (self.verifyingKey.verify message sig).eval keccak256 = .ok () ∧
      SealedSignature.leaf sig = self.nextLeaf - 1 := by
  obtain ⟨sig, hsigns⟩ := h.exists_signs hm
  obtain ⟨secrets, parameter, hkey⟩ := h.built
  obtain ⟨hverify, hleaf, -⟩ := LawfulOneTime.of_sign hkey hsigns.2
  exact ⟨sig, self.signWithRng_retry hfailed hsigns fill, hverify, hleaf⟩

namespace Machine

variable {Pid : Type} {path : String} {m m' : Machine K Pid} {pid : Pid}

/-- No source of random bytes fails with `Corrupt`. -/
def Honest (o : Outcome SigningError) : Prop := o ≠ .error .corrupt

/-- Every file that can survive is a record. -/
def Readable (path : String) (m : Machine K Pid) : Prop :=
  m.world.Sound (decode K) (fun _ => True) path

/-- `create` has returned. -/
def Created (m : Machine K Pid) : Prop := m.log.any Report.created

theorem Readable.moved (h : Readable path m)
    (hm : Moved path Honest (fun _ => True) pid m m') : Readable path m' ∧
      (m'.log = m.log ∨ ∃ report, m'.log = report :: m.log ∧ report.Good) := by
  have hreadable : Readable path m' := World.Sound.evolves h hm.turn.evolves fun _ _ _ _ => trivial
  refine ⟨hreadable, hm.log.imp id ?_⟩
  rintro ⟨report, hlog, hreport⟩
  refine ⟨report, hlog, ?_⟩
  cases report with
  | started opening clean result =>
    cases result with
    | ok u => cases opening <;> cases clean <;> trivial
    | error e =>
      cases opening with
      | false => trivial
      | true =>
        cases clean with
        | false => trivial
        | true =>
          rcases hreport rfl rfl with he | hnone
          · exact he
          · obtain ⟨r, hr, -⟩ := hreadable.visible
            cases hnone.symm.trans hr
  | signed message retry result =>
    cases result with
    | ok sig => trivial
    | error e => exact fun he => hreport he rfl

theorem Created.moved (h : Created m → Readable path m)
    (hm : Moved path Honest (fun _ => True) pid m m') : Created m' → Readable path m' := by
  intro hcreated
  rcases hm.log with hlog | ⟨report, hlog, hreport⟩
  · rw [Created, hlog] at hcreated
    exact ((h hcreated).moved hm).1
  · rw [Created, hlog, List.any_cons, Bool.or_eq_true] at hcreated
    rcases hcreated with hnew | hold
    · cases report with
      | signed message retry result => cases hnew
      | started opening clean result =>
        cases result with
        | error e => cases opening <;> cases hnew
        | ok u =>
          cases opening with
          | true => cases hnew
          | false =>
            obtain ⟨f, r, hdurable, hr⟩ := hreport rfl
            exact hdurable.sound hr trivial
    · exact ((h hold).moved hm).1

variable [DecidableEq Pid]

/-- No source of random bytes fails with `Corrupt`, and anything else may happen. -/
def Fair (m : Machine K Pid) (e : Event Pid) : Prop := Allowed Honest (fun _ => True) m e

theorem along_fair (path : String) {events : List (Event Pid)}
    (h : ∀ e ∈ events, e.honest) (m : Machine K Pid) : Along path Fair m events := by
  refine along_of_forall m fun e he _ => ⟨fun pid o ho hc => ?_, fun _ _ _ _ _ _ _ => trivial⟩
  have hhonest := h e he
  rw [ho, hc] at hhonest
  cases hhonest

theorem created_run [LawfulOneTime K] (events : List (Event Pid))
    (h : Inv path Honest (fun _ => True) m ∧ (Created m → Readable path m))
    (he : Along path Fair m events) :
    Inv path Honest (fun _ => True) (m.run path events) ∧
      (Created (m.run path events) → Readable path (m.run path events)) := by
  refine run_rule (Q := fun m => Inv path Honest (fun _ => True) m ∧
    (Created m → Readable path m)) ?_ events h he
  rintro m e ⟨hinv, hcreated⟩ hfair
  cases he : e.isPowerLoss with
  | false =>
    obtain ⟨pid, hm⟩ := step_moved hinv hfair he
    exact ⟨hinv.moved hm, Created.moved hcreated hm⟩
  | true =>
    cases e with
    | powerLoss version left =>
      exact ⟨inv_powerLoss hinv version left, fun hc => (hcreated hc).powerLoss version left⟩
    | _ => cases he

theorem readable_run [LawfulOneTime K] (events : List (Event Pid))
    (h : Inv path Honest (fun _ => True) m) (hr : Readable path m)
    (he : Along path Fair m events) :
    Inv path Honest (fun _ => True) (m.run path events) ∧ Readable path (m.run path events) ∧
      ∃ new, (m.run path events).log = new ++ m.log ∧ ∀ report ∈ new, report.Good := by
  refine run_rule (Q := fun m' => Inv path Honest (fun _ => True) m' ∧ Readable path m' ∧
    ∃ new, m'.log = new ++ m.log ∧ ∀ report ∈ new, report.Good) ?_ events
    ⟨h, hr, [], rfl, fun _ h => absurd h List.not_mem_nil⟩ he
  rintro m' e ⟨hinv, hr, new, hnew, hgood⟩ hfair
  cases he : e.isPowerLoss with
  | false =>
    obtain ⟨pid, hm⟩ := step_moved hinv hfair he
    obtain ⟨hr', hlog | ⟨report, hlog, hreport⟩⟩ := hr.moved hm
    · exact ⟨hinv.moved hm, hr', new, hlog.trans hnew, hgood⟩
    · refine ⟨hinv.moved hm, hr', report :: new, by rw [hlog, hnew, List.cons_append], ?_⟩
      intro r hmem
      rcases List.mem_cons.mp hmem with rfl | hmem
      · exact hreport
      · exact hgood r hmem
  | true =>
    cases e with
    | powerLoss version left =>
      exact ⟨inv_powerLoss hinv version left, hr.powerLoss version left, new, hnew, hgood⟩
    | _ => cases he

end Machine

/--
**A signer never bricks its own key file.** Start when a `create` has returned, or with a file that
`open` accepts, and let anything happen, power losses included. Then every `open` that was carried
out and got the lock has succeeded, no `sign` has returned `Corrupt`, and each live signer is in
range; if no write of it has failed, an exact retry returns a signature that verifies.
-/
theorem never_bricked (k : Instance) {Pid : Type} [DecidableEq Pid] (path : String)
    (files : List (String × Bytes)) (before after : List (Event Pid))
    (hstart : Machine.Created ((Machine.boot files).run path before : Machine k.SecretKey Pid) ∨
      ((Machine.boot files : Machine k.SecretKey Pid).world.visible (decode k.SecretKey)
        path).isSome)
    (hfill : ∀ e ∈ before ++ after, e.honest) :
    let m₀ : Machine k.SecretKey Pid := (Machine.boot files).run path before
    let m := m₀.run path after
    (∃ new, m.log = new ++ m₀.log ∧ ∀ report ∈ new, report.Good) ∧
    (∃ r, m.world.visible (decode k.SecretKey) path = some r) ∧
    ∀ pid signer, m.client pid = .live signer → signer.InRange ∧
      ∀ message fill, signer.failed = false → signer.lastMessage = some message →
        ∃ sig, signer.signWithRng message fill = pure (.ok sig, signer) ∧
          (signer.verifyingKey.verify message sig).eval keccak256 = .ok () ∧
          SealedSignature.leaf sig = signer.nextLeaf - 1 := by
  have hboot : Machine.Inv path Machine.Honest (fun _ => True)
      (Machine.boot files : Machine k.SecretKey Pid) := Machine.inv_boot files
  obtain ⟨hbefore, hafter⟩ := Machine.along_append.mp
    (Machine.along_fair path hfill (Machine.boot files : Machine k.SecretKey Pid))
  have hreadable : Machine.Inv path Machine.Honest (fun _ => True)
      ((Machine.boot files).run path before : Machine k.SecretKey Pid) ∧
      Machine.Readable path ((Machine.boot files).run path before : Machine k.SecretKey Pid) := by
    rcases hstart with hcreated | haccepted
    · obtain ⟨hinv, hr⟩ := Machine.created_run before
        ⟨hboot, fun h => by cases h⟩ hbefore
      exact ⟨hinv, hr hcreated⟩
    · obtain ⟨r, hr⟩ := Option.isSome_iff_exists.mp haccepted
      obtain ⟨hinv, hr, -⟩ := Machine.readable_run before hboot
        (World.sound_boot hr trivial) hbefore
      exact ⟨hinv, hr⟩
  obtain ⟨hinv, hr, hnew⟩ := Machine.readable_run after hreadable.1 hreadable.2 hafter
  dsimp only
  refine ⟨hnew, hr.visible.imp fun _ h => h.1, fun pid signer hlive => ?_⟩
  have hvalid := (hinv.owns hlive).valid
  exact ⟨SigningKey.inRange hvalid, fun message fill hfailed hm =>
    SigningKey.retry_verifies hvalid hfailed hm fill⟩

end

/-- A signer is created, loses power while it signs, and is opened again. -/
theorem never_bricked_once :
    letI := constantHash
    ∃ r, ((Machine.boot []).run "key" (.create 0 :: Machine.calls 0 10 []) |>.run "key"
      (.sign 0 (zeros _) :: Machine.calls 0 5 [] ++ .powerLoss 1 (fun _ => []) :: .openFile 0 ::
        Machine.calls 0 10 []) : Machine Instance.winternitz.SecretKey Nat).world.visible
      (decode Instance.winternitz.SecretKey) "key" = some r := by
  let _ := constantHash
  exact (never_bricked .winternitz "key" [] _ _ (Or.inl (by
    unfold Machine.Created
    decide +kernel)) (by decide)).2.1

end SolanaWinternitz
