import SolanaWinternitz.Properties.Machine

/-!
# One signature per leaf

`Consistent r released` ties a record to everything that was returned: each signature is at a leaf
below the next leaf of `r`, and if it is the last one below, `r` records its message and its salt. A
later record of the same key stays consistent, and so does a record that has just signed.

* `one_signature_per_leaf` — over every run without a power loss
-/

namespace SolanaWinternitz

open Infra Infra.Os

section

variable [Keccak] {K : Type} [OneTime K] {r r' : Record K}
  {released : List (Message × OneTime.Signature K)} {message : Message} {sig : OneTime.Signature K}

/-- Everything that was returned is accounted for in the record. -/
structure Consistent (r : Record K) (released : List (Message × OneTime.Signature K)) : Prop where
  spent : ∀ p ∈ released, ∃ leaf salt, leaf < r.nextLeaf ∧
    (OneTime.signAtWithSalt r.key leaf p.1 salt).eval keccak256 = some p.2 ∧
    (leaf = r.nextLeaf - 1 → r.lastMessage = some p.1 ∧ r.lastSalt = salt)
  unique : ∀ p ∈ released, ∀ q ∈ released,
    SealedSignature.leaf p.2 = SealedSignature.leaf q.2 → p = q

theorem consistent_nil (r : Record K) : Consistent r [] :=
  ⟨fun _ hp => absurd hp List.not_mem_nil, fun _ hp => absurd hp List.not_mem_nil⟩

/-- The leaves of the signatures are spent. -/
theorem Consistent.leaf_lt [LawfulOneTime K] (h : Consistent r released) (hvalid : r.Valid)
    {p : Message × OneTime.Signature K} (hp : p ∈ released) :
    SealedSignature.leaf p.2 < r.nextLeaf := by
  obtain ⟨leaf, salt, hlt, hsig, -⟩ := h.spent p hp
  obtain ⟨secrets, parameter, hkey⟩ := hvalid.built
  exact (LawfulOneTime.of_sign hkey hsig).2.1.symm ▸ hlt

/-- A later record accounts for the same signatures. -/
theorem Consistent.after (h : Consistent r released) (hafter : r.After r') :
    Consistent r' released := by
  refine ⟨fun p hp => ?_, h.unique⟩
  obtain ⟨leaf, salt, hlt, hsig, -⟩ := h.spent p hp
  refine ⟨leaf, salt, UInt32.lt_trans hlt hafter.2, hafter.1 ▸ hsig, fun he => ?_⟩
  -- the leaf is not the last one any more
  have h1 := UInt32.lt_iff_toNat_lt.mp hlt
  have h2 := UInt32.lt_iff_toNat_lt.mp hafter.2
  have hne : r'.nextLeaf ≠ 0 := fun h0 => by
    rw [h0] at h2
    exact Nat.not_lt_zero _ h2
  have h3 := congrArg UInt32.toNat he
  rw [u32_toNat_pred hne] at h3
  omega

/-- The leaf of a signature of the recorded message. -/
theorem Record.Signs.leaf [LawfulOneTime K] (h : r.Signs message sig) (hvalid : r.Valid) :
    SealedSignature.leaf sig = r.nextLeaf - 1 := by
  obtain ⟨secrets, parameter, hkey⟩ := hvalid.built
  exact (LawfulOneTime.of_sign hkey h.2).2.1

omit [Keccak] [OneTime K] in
theorem Record.After.trans {r'' : Record K} (h : r.After r') (h' : r'.After r'') : r.After r'' :=
  ⟨h'.1.trans h.1, UInt32.lt_trans h.2 h'.2⟩

/-- The leaf of a signature is the one that was spent last. -/
theorem Record.Signs.toNat_nextLeaf [LawfulOneTime K] (h : r.Signs message sig)
    (hvalid : r.Valid) : r.nextLeaf.toNat = (SealedSignature.leaf sig).toNat + 1 := by
  have hne := (hvalid.spent message h.1).1
  have h0 : r.nextLeaf.toNat ≠ 0 := fun h0 => hne (UInt32.toNat_inj.mp h0)
  rw [h.leaf hvalid, u32_toNat_pred hne]
  omega

/-- The record, or a later one. -/
def Record.Onward (r r' : Record K) : Prop := r' = r ∨ r.After r'

omit [Keccak] [OneTime K] in
theorem Record.Onward.after {r'' : Record K} (h : r.Onward r') (hafter : r'.After r'') :
    r.Onward r'' := by
  rcases h with rfl | h
  · exact Or.inr hafter
  · exact Or.inr (h.trans hafter)

omit [Keccak] [OneTime K] in
theorem Record.Onward.le (h : r.Onward r') : r.nextLeaf ≤ r'.nextLeaf := by
  rcases h with rfl | h
  · exact UInt32.le_refl _
  · exact UInt32.le_of_lt h.2

omit [Keccak] [OneTime K] in
/-- The next leaf tells the records of a history apart. -/
theorem Record.Onward.eq (h : r.Onward r') (hleaf : r'.nextLeaf ≤ r.nextLeaf) :
    r' = r := by
  rcases h with rfl | h
  · rfl
  · exact absurd h.2 (UInt32.not_lt.mpr hleaf)

/-- The leaf that was spent last is below the next leaf. -/
theorem Record.Valid.pred_lt (h : r.Valid) (hm : r.lastMessage = some message) :
    r.nextLeaf - 1 < r.nextLeaf := by
  have hne := (h.spent message hm).1
  have h0 : r.nextLeaf.toNat ≠ 0 := fun h0 => hne (UInt32.toNat_inj.mp h0)
  rw [UInt32.lt_iff_toNat_lt, u32_toNat_pred hne]
  omega

/-- **A signature of the recorded message is the one that was returned before**, if any. -/
theorem Consistent.signed [LawfulOneTime K] (h : Consistent r released) (hvalid : r.Valid)
    (hsigns : r.Signs message sig) : Consistent r ((message, sig) :: released) := by
  have hold : ∀ p ∈ released, SealedSignature.leaf p.2 = SealedSignature.leaf sig →
      p = (message, sig) := by
    intro p hp hleaf
    obtain ⟨secrets, parameter, hkey⟩ := hvalid.built
    obtain ⟨leaf, salt, -, hsig, hlast⟩ := h.spent p hp
    have hl : leaf = r.nextLeaf - 1 :=
      (LawfulOneTime.of_sign hkey hsig).2.1.symm.trans (hleaf.trans (hsigns.leaf hvalid))
    obtain ⟨hm, hs⟩ := hlast hl
    have hmessage : p.1 = message := Option.some.inj (hm.symm.trans hsigns.1)
    rw [hl, ← hs, hmessage, hsigns.2] at hsig
    exact Prod.ext hmessage (Option.some.inj hsig).symm
  refine ⟨fun p hp => ?_, fun p hp q hq hleaf => ?_⟩
  · rcases List.mem_cons.mp hp with rfl | hp
    · exact ⟨_, _, hvalid.pred_lt hsigns.1, hsigns.2, fun _ => ⟨hsigns.1, rfl⟩⟩
    · exact h.spent p hp
  · rcases List.mem_cons.mp hp with rfl | hp <;> rcases List.mem_cons.mp hq with rfl | hq
    · rfl
    · exact (hold q hq hleaf.symm).symm
    · exact hold p hp hleaf
    · exact h.unique p hp q hq hleaf

namespace Machine

variable {Pid : Type} {path : String} {A : Outcome SigningError → Prop}
  {D : World String Pid → Prop} {pid : Pid} {w w' : World String Pid} {m m' : Machine K Pid}

/-- An entry of the log releases a signature of the visible record, or nothing. -/
theorem reported_cases [LawfulOneTime K] {report : Report K} (h : Reported path A D w report) :
    report.released = none ∨ ∃ message retry sig f r, report = .signed message retry (.ok sig) ∧
      w.content path = some f ∧ decode K f.bytes = some r ∧ r.Valid ∧ r.Signs message sig ∧
      (retry = false → w.Durable path f) ∧ (retry = true → D w) := by
  cases report with
  | started opening clean result => exact Or.inl rfl
  | signed message retry result =>
    cases result with
    | error e => exact Or.inl rfl
    | ok sig =>
      obtain ⟨f, r, hf, hr, hsigns, hdurable⟩ := h
      exact Or.inr ⟨message, retry, sig, f, r, rfl, hf, hr, valid_of_decode hr, hsigns, hdurable⟩

omit [Keccak] in
theorem released_of_log {report : Report K} (hlog : m'.log = report :: m.log) :
    m'.released = report.released.toList ++ m.released := by
  unfold released
  rw [hlog, List.filterMap_cons]
  cases report.released <;> rfl

/-- Once something was returned, the visible record accounts for everything that was. -/
def Safe (path : String) (m : Machine K Pid) : Prop :=
  m.released = [] ∨ ∃ r, m.world.visible (decode K) path = some r ∧ Consistent r m.released

theorem Safe.moved [LawfulOneTime K] (h : Safe path m) (hm : Moved path A D pid m m') :
    Safe path m' := by
  -- the signatures so far, and the record that is visible now
  have hold : m.released = [] ∨
      ∃ r, m'.world.visible (decode K) path = some r ∧ Consistent r m.released := by
    refine h.imp id ?_
    rintro ⟨r, hr, hc⟩
    obtain ⟨r', hr', rfl | hafter⟩ := hm.turn.evolves.visible hr
    · exact ⟨_, hr', hc⟩
    · exact ⟨r', hr', hc.after hafter⟩
  rcases hm.log with hlog | ⟨report, hlog, hreport⟩
  · rw [Safe, released, hlog]
    exact hold
  · rw [Safe, released_of_log hlog]
    rcases reported_cases hreport with hnone | ⟨message, retry, sig, f, r, rfl, hf, hr, hv, hs, -⟩
    · rw [hnone]
      exact hold
    · have hvisible := (World.visible_of_content hf).trans hr
      refine Or.inr ⟨r, hvisible, ?_⟩
      rcases hold with hnil | ⟨r', hr', hc⟩
      · rw [hnil]
        exact (consistent_nil r).signed hv hs
      · cases hvisible.symm.trans hr'
        exact hc.signed hv hs

variable [DecidableEq Pid]

/-- No condition on the calls, and no power loss. -/
def Powered (m : Machine K Pid) (e : Event Pid) : Prop :=
  Allowed (fun _ => True) (fun _ => True) m e ∧ e.isPowerLoss = false

omit [Keccak] [DecidableEq Pid] in
theorem allowed_of_true (m : Machine K Pid) (e : Event Pid) :
    Allowed (fun _ => True) (fun _ => True) m e :=
      ⟨fun _ _ _ => trivial, fun _ _ _ _ _ _ _ => trivial⟩

theorem along_powered (path : String) {events : List (Event Pid)}
    (h : ∀ e ∈ events, e.isPowerLoss = false) (m : Machine K Pid) : Along path Powered m events :=
  along_of_forall m fun e he m => ⟨allowed_of_true m e, h e he⟩

theorem safe_run [LawfulOneTime K] (events : List (Event Pid))
    (h : Inv path (fun _ => True) (fun _ => True) m ∧ Safe path m)
    (he : Along path Powered m events) :
    Inv path (fun _ => True) (fun _ => True) (m.run path events) ∧
      Safe path (m.run path events) := by
  refine run_rule (Q := fun m => Inv path (fun _ => True) (fun _ => True) m ∧ Safe path m)
    ?_ events h he
  rintro m e ⟨hinv, hsafe⟩ ⟨hA, he⟩
  obtain ⟨pid, hm⟩ := step_moved hinv hA he
  exact ⟨hinv.moved hm, hsafe.moved hm⟩

/-- **The visible record stays or is replaced by later ones.** -/
theorem record_run [LawfulOneTime K] (events : List (Event Pid)) {r : Record K}
    (h : Inv path (fun _ => True) (fun _ => True) m) (he : Along path Powered m events)
    (hr : m.world.visible (decode K) path = some r) :
    ∃ r', (m.run path events).world.visible (decode K) path = some r' ∧ r.Onward r' := by
  refine (run_rule (Q := fun m => Inv path (fun _ => True) (fun _ => True) m ∧
    ∃ r', m.world.visible (decode K) path = some r' ∧ r.Onward r')
    ?_ events ⟨h, r, hr, Or.inl rfl⟩ he).2
  rintro m e ⟨hinv, r', hr', honward⟩ ⟨hA, he⟩
  obtain ⟨pid, hm⟩ := step_moved hinv hA he
  refine ⟨hinv.moved hm, ?_⟩
  obtain ⟨r'', hr'', rfl | hafter⟩ := hm.turn.evolves.visible hr'
  · exact ⟨_, hr'', honward⟩
  · exact ⟨r'', hr'', honward.after hafter⟩

/-- **The visible record only moves forward**, under one key. -/
theorem visible_run [LawfulOneTime K] (events : List (Event Pid)) {r : Record K}
    (h : Inv path (fun _ => True) (fun _ => True) m) (he : Along path Powered m events)
    (hr : m.world.visible (decode K) path = some r) :
    ∃ r', (m.run path events).world.visible (decode K) path = some r' ∧ r'.key = r.key ∧
      r.nextLeaf ≤ r'.nextLeaf := by
  obtain ⟨r', hr', honward⟩ := record_run events h he hr
  refine ⟨r', hr', ?_, honward.le⟩
  rcases honward with rfl | hafter
  · rfl
  · exact hafter.1

end Machine

/--
**One signature per leaf.** In every run of signers on one path without a power loss, with files on
the disk to start with: at most one signer is live; a signature that was ever returned is at a leaf
below the next leaf of the visible key file; two signatures at one leaf are the same and were
returned for the same message; and the next leaf of a visible record never decreases.
-/
theorem one_signature_per_leaf (k : Instance) {Pid : Type} [DecidableEq Pid] (path : String)
    (files : List (String × Bytes)) (events : List (Event Pid))
    (hrun : ∀ e ∈ events, e.isPowerLoss = false) :
    let m : Machine k.SecretKey Pid := (Machine.boot files).run path events
    (∀ p q, (m.client p).Live → (m.client q).Live → p = q) ∧
    (∀ p ∈ m.released, ∃ r, m.world.visible (decode k.SecretKey) path = some r ∧
      SealedSignature.leaf p.2 < r.nextLeaf) ∧
    (∀ p ∈ m.released, ∀ q ∈ m.released, SealedSignature.leaf p.2 = SealedSignature.leaf q.2 →
      p.1 = q.1 ∧ SealedSignature.asBytes p.2 = SealedSignature.asBytes q.2) ∧
    ∀ before after r, events = before ++ after →
      ((Machine.boot files).run path before : Machine k.SecretKey Pid).world.visible
        (decode k.SecretKey) path = some r →
      ∃ r', m.world.visible (decode k.SecretKey) path = some r' ∧ r.nextLeaf ≤ r'.nextLeaf := by
  have hboot : Machine.Inv path (fun _ => True) (fun _ => True)
      (Machine.boot files : Machine k.SecretKey Pid) := Machine.inv_boot files
  have hpowered := Machine.along_powered path hrun (Machine.boot files : Machine k.SecretKey Pid)
  obtain ⟨hinv, hsafe⟩ := Machine.safe_run events ⟨hboot, Or.inl rfl⟩ hpowered
  dsimp only
  refine ⟨fun p q hp hq => hinv.live_unique hp hq, fun p hp => ?_, fun p hp q hq hleaf => ?_,
    ?_⟩
  · rcases hsafe with hnil | ⟨r, hr, hc⟩
    · rw [hnil] at hp
      exact absurd hp List.not_mem_nil
    · obtain ⟨f, -, hf⟩ := Option.bind_eq_some_iff.mp hr
      exact ⟨r, hr, hc.leaf_lt (valid_of_decode hf) hp⟩
  · rcases hsafe with hnil | ⟨r, hr, hc⟩
    · rw [hnil] at hp
      exact absurd hp List.not_mem_nil
    · obtain rfl := hc.unique p hp q hq hleaf
      exact ⟨rfl, rfl⟩
  · rintro before after r rfl hr
    obtain ⟨hbefore, hafter⟩ := Machine.along_append.mp hpowered
    obtain ⟨r', hr', -, hle⟩ := Machine.visible_run after
      (Machine.safe_run before ⟨hboot, Or.inl rfl⟩ hbefore).1 hafter hr
    refine ⟨r', ?_, hle⟩
    rw [Machine.run_append]
    exact hr'

end

/-- A signer that is created and signs once. -/
def onceEvents : List (Event Nat) :=
  .create 0 :: Machine.calls 0 10 [] ++ .sign 0 (zeros _) :: Machine.calls 0 10 []

theorem one_signature_per_leaf_once :
    letI := constantHash
    let m : Machine Instance.winternitz.SecretKey Nat := (Machine.boot []).run "key" onceEvents
    ∃ p ∈ m.released, ∃ r, m.world.visible (decode Instance.winternitz.SecretKey) "key" = some r ∧
      SealedSignature.leaf p.2 < r.nextLeaf := by
  let _ := constantHash
  have hone : ((Machine.boot []).run "key" onceEvents :
      Machine Instance.winternitz.SecretKey Nat).released.length = 1 := by decide +kernel
  obtain ⟨p, hp⟩ := List.length_eq_one_iff.mp hone
  have hmem := List.mem_singleton_self p
  rw [← hp] at hmem
  exact ⟨p, hmem, (one_signature_per_leaf .winternitz "key" [] onceEvents (by decide)).2.1 p hmem⟩

end SolanaWinternitz
