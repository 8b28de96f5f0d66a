import SolanaWinternitz.Properties.CanonicalFile
import SolanaWinternitz.Properties.OneSignature

/-!
# The rollback guard

Two histories of one key are compared: the run that a snapshot of the key file is taken from, and a
run that starts with the snapshot restored.

* `released_visible` — whatever was returned is of a record that was visible at some time
* `history_unique` — a next leaf occurs with one record in a history
* `onward_run` — after a restore, every record is the snapshot or a later one
* `rollback_guard` — **the guard protects every signature below its minimum**
-/

namespace SolanaWinternitz

open Infra Infra.Os

section

variable [Keccak] {K : Type} [OneTime K] {Pid : Type} {path : String} {m m' : Machine K Pid}
  {pid : Pid} {message : Message} {sig : OneTime.Signature K}

namespace Machine

/-! ## The history of a run -/

variable [DecidableEq Pid]

/-- **What was returned is of a record that was visible** when it was returned. -/
theorem released_visible [LawfulOneTime K] (files : List (String × Bytes))
    (events : List (Event Pid)) (hrun : ∀ e ∈ events, e.isPowerLoss = false)
    {p : Message × OneTime.Signature K}
    (hp : p ∈ ((boot files).run path events : Machine K Pid).released) :
    ∃ before after r, events = before ++ after ∧
      ((boot files).run path before : Machine K Pid).world.visible (decode K) path = some r ∧
      r.Valid ∧ r.Signs p.1 p.2 := by
  induction events using List.reverseRecOn with
  | nil => exact absurd hp List.not_mem_nil
  | append_singleton events e ih =>
    have hbefore : ∀ e ∈ events, e.isPowerLoss = false := fun e' he' =>
      hrun e' (List.mem_append_left _ he')
    have hold : p ∈ ((boot files).run path events : Machine K Pid).released →
        ∃ before after r, events ++ [e] = before ++ after ∧
          ((boot files).run path before : Machine K Pid).world.visible (decode K) path = some r ∧
          r.Valid ∧ r.Signs p.1 p.2 := by
      intro hp
      obtain ⟨before, after, r, rfl, h⟩ := ih hbefore hp
      exact ⟨before, after ++ [e], r, List.append_assoc _ _ _, h⟩
    have hinv := inv_run events (inv_boot files : Inv path (fun _ => True) (fun _ => True)
      (boot files : Machine K Pid)) (along_of_forall _ fun e _ m => allowed_of_true m e)
    obtain ⟨pid, hmoved⟩ := step_moved hinv (allowed_of_true _ e)
      (hrun e (List.mem_append_right _ (List.mem_singleton_self e)))
    have hstep : ((boot files).run path (events ++ [e]) : Machine K Pid)
        = ((boot files).run path events).step path e := run_append _ _ _
    rw [hstep] at hp
    rcases hmoved.log with hlog | ⟨report, hlog, hreport⟩
    · rw [released, hlog] at hp
      exact hold hp
    · rw [released_of_log hlog] at hp
      rcases List.mem_append.mp hp with hnew | hp
      · rcases reported_cases hreport with
          hnone | ⟨message, retry, sig, f, r, rfl, hf, hr, hv, hs, -⟩
        · rw [hnone] at hnew
          exact absurd hnew List.not_mem_nil
        · rw [List.mem_singleton.mp hnew]
          refine ⟨events ++ [e], [], r, (List.append_nil _).symm, ?_, hv, hs⟩
          rw [hstep]
          exact (World.visible_of_content hf).trans hr
      · exact hold hp

/-- **A next leaf occurs with one record in a history.** -/
theorem history_unique [LawfulOneTime K] (files : List (String × Bytes)) {before after before'
    after' : List (Event Pid)} (heq : before ++ after = before' ++ after')
    (hrun : ∀ e ∈ before ++ after, e.isPowerLoss = false) {r r' : Record K}
    (hr : ((boot files).run path before : Machine K Pid).world.visible (decode K) path = some r)
    (hr' : ((boot files).run path before' : Machine K Pid).world.visible (decode K) path = some r')
    (hleaf : r.nextLeaf = r'.nextLeaf) : r = r' := by
  have honward : ∀ {start more : List (Event Pid)} {r r' : Record K},
      (∀ e ∈ start ++ more, e.isPowerLoss = false) →
      ((boot files).run path start : Machine K Pid).world.visible (decode K) path = some r →
      ((boot files).run path (start ++ more) : Machine K Pid).world.visible (decode K)
        path = some r' →
      r.Onward r' := by
    intro start more r r' hrun hr hr'
    obtain ⟨hstart, hmore⟩ := along_append.mp
      (along_powered path hrun (boot files : Machine K Pid))
    have hinv := inv_run start (inv_boot files : Inv path (fun _ => True) (fun _ => True)
      (boot files : Machine K Pid)) (along_of_forall _ fun e _ m => allowed_of_true m e)
    obtain ⟨r'', hr'', hlater⟩ := record_run more hinv hmore hr
    rw [run_append] at hr'
    cases hr'.symm.trans hr''
    exact hlater
  rcases List.append_eq_append_iff.mp heq with ⟨more, rfl, rfl⟩ | ⟨more, rfl, rfl⟩
  · refine ((honward ?_ hr hr').eq (UInt32.le_of_eq hleaf.symm)).symm
    exact fun e he => hrun e (List.append_assoc before more after' ▸ List.mem_append_left _ he)
  · refine (honward ?_ hr' hr).eq (UInt32.le_of_eq hleaf)
    exact fun e he => hrun e (List.mem_append_left _ he)

/-! ## After a restore -/

/-- Every file that can survive is the record or a later one, and so is what was returned. -/
structure Onward (path : String) (r : Record K) (m : Machine K Pid) : Prop where
  sound : m.world.Sound (decode K) r.Onward path
  released : ∀ p ∈ m.released, ∃ r', r.Onward r' ∧ r'.Valid ∧ r'.Signs p.1 p.2

omit [DecidableEq Pid] in
theorem Onward.moved [LawfulOneTime K] {r : Record K} (h : Onward path r m)
    (hm : Moved path (fun _ => True) (fun _ => True) pid m m') : Onward path r m' := by
  have hsound : m'.world.Sound (decode K) r.Onward path :=
    h.sound.evolves hm.turn.evolves fun _ _ hr hafter => hr.after hafter
  refine ⟨hsound, fun p hp => ?_⟩
  rcases hm.log with hlog | ⟨report, hlog, hreport⟩
  · rw [Machine.released, hlog] at hp
    exact h.released p hp
  · rw [released_of_log hlog] at hp
    rcases List.mem_append.mp hp with hnew | hp
    · rcases reported_cases hreport with
        hnone | ⟨message, retry, sig, f, r', rfl, hf, hr, hv, hs, -⟩
      · rw [hnone] at hnew
        exact absurd hnew List.not_mem_nil
      · obtain ⟨r'', hr'', honward⟩ := hsound.visible
        cases hr''.symm.trans ((World.visible_of_content hf).trans hr)
        rw [List.mem_singleton.mp hnew]
        exact ⟨r', honward, hv, hs⟩
    · exact h.released p hp

/-- **Every record after a restore is the snapshot or a later one**, power losses included. -/
theorem onward_run [LawfulOneTime K] {r : Record K} (events : List (Event Pid))
    (h : Inv path (fun _ => True) (fun _ => True) m ∧ Onward path r m) :
    Inv path (fun _ => True) (fun _ => True) (m.run path events) ∧
      Onward path r (m.run path events) := by
  refine run_rule (P := fun _ _ => True) (Q := fun m =>
    Inv path (fun _ => True) (fun _ => True) m ∧ Onward path r m) ?_ events h
    (along_of_forall m fun _ _ _ => trivial)
  rintro m e ⟨hinv, honward⟩ -
  cases he : e.isPowerLoss with
  | false =>
    obtain ⟨pid, hm⟩ := step_moved hinv (allowed_of_true m e) he
    exact ⟨hinv.moved hm, honward.moved hm⟩
  | true =>
    cases e with
    | powerLoss version left =>
      exact ⟨inv_powerLoss hinv version left, honward.sound.powerLoss version left,
        honward.released⟩
    | _ => cases he

end Machine

/--
**The rollback guard protects accepted leaves.** Take a run without a power loss, a snapshot of the
key file from it, and accepted signatures that it has released. Restore the snapshot. If `open`
succeeds on it and the guard lets the signer pass with a minimum above every accepted leaf, then in
every later run, power losses included, a signature at an accepted leaf is the accepted one, and no
signer that may still sign is about to spend an accepted leaf.
-/
theorem rollback_guard (k : Instance) {Pid : Type} [DecidableEq Pid] (path : String)
    (files : List (String × Bytes)) (before after : List (Event Pid))
    (hrun : ∀ e ∈ before ++ after, e.isPowerLoss = false) {snapshot : File}
    (hsnapshot : ((Machine.boot files).run path before : Machine k.SecretKey Pid).world.content path
      = some snapshot)
    {accepted : List (Message × OneTime.Signature k.SecretKey)}
    (haccepted : ∀ p ∈ accepted,
      p ∈ ((Machine.boot files).run path (before ++ after) : Machine k.SecretKey Pid).released)
    {files' : List (String × Bytes)}
    (hrestored : ((World.boot files' : World String Pid).content path).map File.bytes
      = some snapshot.bytes)
    {pid : Pid} {signer signer' : SigningKey k.SecretKey} {minimum : UInt32}
    (hopens : Opens path pid (World.boot files') signer)
    (hguard : signer.requireNextLeafAtLeast minimum = .ok signer')
    (hminimum : ∀ p ∈ accepted, SealedSignature.leaf p.2 < minimum) (later : List (Event Pid)) :
    let m : Machine k.SecretKey Pid := (Machine.boot files').run path later
    (∀ q ∈ m.released, ∀ p ∈ accepted, SealedSignature.leaf q.2 = SealedSignature.leaf p.2 →
      q.1 = p.1 ∧ SealedSignature.asBytes q.2 = SealedSignature.asBytes p.2) ∧
    ∀ pid signer, m.client pid = .live signer → signer.failed = false →
      ∀ p ∈ accepted, signer.nextLeaf ≠ SealedSignature.leaf p.2 := by
  -- The snapshot is a record, which the guard lets pass.
  have hboot : Machine.Inv path (fun _ => True) (fun _ => True)
      (Machine.boot files' : Machine k.SecretKey Pid) := Machine.inv_boot files'
  obtain ⟨f, hf, hbytes⟩ := Option.map_eq_some_iff.mp hrestored
  have hr : decode k.SecretKey snapshot.bytes = some signer.record :=
    ((run_openFile ⟨hboot.world, fun pid => hboot.client pid, f, hf, hbytes⟩ pid).1 signer hopens).1
  have hpast : minimum ≤ signer.record.nextLeaf := by
    unfold SigningKey.requireNextLeafAtLeast at hguard
    by_cases hlt : signer.nextLeaf < minimum
    · rw [if_pos hlt] at hguard
      cases hguard
    · exact UInt32.not_lt.mp hlt
  have hvisible : (World.boot files' : World String Pid).visible (decode k.SecretKey) path
      = some signer.record := (World.visible_of_content hf).trans (hbytes ▸ hr)
  obtain ⟨hinv, hsound, hreleased⟩ := Machine.onward_run later
    ⟨hboot, World.sound_boot hvisible (Or.inl rfl), fun p hp => absurd hp List.not_mem_nil⟩
  dsimp only
  constructor
  · intro q hq p hp hleaf
    obtain ⟨r, honward, hvalid, hsigns⟩ := hreleased q hq
    obtain ⟨before', after', r', hsplit, hr', hvalid', hsigns'⟩ :=
      Machine.released_visible files (before ++ after) hrun (haccepted p hp)
    -- The guard leaves no room for a record after the snapshot.
    have hsnap : r = signer.record := by
      refine honward.eq ?_
      have hlast : SealedSignature.leaf q.2 < signer.record.nextLeaf :=
        UInt32.lt_of_lt_of_le (hleaf ▸ hminimum p hp) hpast
      have hnat := UInt32.lt_iff_toNat_lt.mp hlast
      have hnext := hsigns.toNat_nextLeaf hvalid
      exact UInt32.le_iff_toNat_le.mpr (by omega)
    -- So the accepted signature is of the record that the snapshot was taken of.
    have hnext : r.nextLeaf = r'.nextLeaf := by
      have hq := hsigns.toNat_nextLeaf hvalid
      have hp := hsigns'.toNat_nextLeaf hvalid'
      rw [hleaf] at hq
      exact UInt32.toNat_inj.mp (hq.trans hp.symm)
    have hsame : r = r' := Machine.history_unique files hsplit hrun
      ((World.visible_of_content hsnapshot).trans (hsnap ▸ hr)) hr' hnext
    obtain ⟨hm, hsig⟩ := hsigns
    obtain ⟨hm', hsig'⟩ := hsigns'
    rw [← hsame] at hm' hsig'
    have hmessage : q.1 = p.1 := Option.some.inj (hm.symm.trans hm')
    rw [hmessage] at hsig
    exact ⟨hmessage, congrArg SealedSignature.asBytes (Option.some.inj (hsig.symm.trans hsig'))⟩
  · intro pid' signer1 hlive hfailed p hp he
    obtain ⟨r, hr1, honward⟩ := hsound.visible
    cases hr1.symm.trans ((hinv.owns hlive).current hfailed)
    have hlt := UInt32.lt_of_lt_of_le (he ▸ hminimum p hp) hpast
    exact UInt32.not_lt.mpr honward.le hlt

end

/-- The key file of a signer that has signed once is restored. -/
theorem rollback_guard_once :
    letI := constantHash
    let m : Machine Instance.winternitz.SecretKey Nat := (Machine.boot []).run "key" onceEvents
    ∃ files, ((World.boot files : World String Nat).visible
        (decode Instance.winternitz.SecretKey) "key").isSome ∧
      ∀ later : List (Event Nat), ∀ q ∈ ((Machine.boot files).run "key" later :
          Machine Instance.winternitz.SecretKey Nat).released, ∀ p ∈ m.released,
        SealedSignature.leaf q.2 = SealedSignature.leaf p.2 → q.1 = p.1 ∧
          SealedSignature.asBytes q.2 = SealedSignature.asBytes p.2 := by
  let _ := constantHash
  have hfile : (((Machine.boot []).run "key" onceEvents :
      Machine Instance.winternitz.SecretKey Nat).world.content "key").any (fun f =>
        (decode Instance.winternitz.SecretKey f.bytes).any (·.nextLeaf == 1)) = true := by
    decide +kernel
  obtain ⟨f, hf, hdecode⟩ := (Option.any_eq_true _ _).mp hfile
  obtain ⟨r, hr, hnext⟩ := (Option.any_eq_true _ _).mp hdecode
  have hcontent : (World.boot [("key", f.bytes)] : World String Nat).content "key"
      = some ⟨f.bytes, true⟩ := rfl
  have hboot : Machine.Inv "key" (fun _ => True) (fun _ => True)
      (Machine.boot [("key", f.bytes)] : Machine Instance.winternitz.SecretKey Nat) :=
    Machine.inv_boot _
  obtain ⟨hopened, hrefused⟩ := run_openFile (K := Instance.winternitz.SecretKey)
    ⟨hboot.world, fun pid => hboot.client pid, _, hcontent, rfl⟩ 0
  obtain ⟨signer, hopens⟩ : ∃ signer : SigningKey Instance.winternitz.SecretKey,
      Opens "key" 0 (World.boot [("key", f.bytes)]) signer := by
    by_contra hno
    have hnone := hrefused fun signer h => hno ⟨signer, h⟩
    rw [hr] at hnone
    cases hnone
  have hleaf : signer.nextLeaf = 1 := by
    have hrecord := (hopened signer hopens).1
    rw [hr] at hrecord
    exact (congrArg Record.nextLeaf (Option.some.inj hrecord)).symm.trans (beq_iff_eq.mp hnext)
  have hguard : signer.requireNextLeafAtLeast 1 = .ok signer := by
    unfold SigningKey.requireNextLeafAtLeast
    rw [hleaf]
    rfl
  refine ⟨[("key", f.bytes)], ?_, fun later => ?_⟩
  · rw [World.visible_of_content hcontent, hr]
    rfl
  · have hzero : (0 : UInt32) < 1 := by decide
    exact (rollback_guard .winternitz "key" [] onceEvents [] (by decide) hf (fun p hp => hp)
      (congrArg (Option.map File.bytes) hcontent) hopens hguard (fun p hp => hzero) later).1

end SolanaWinternitz
