import SolanaWinternitz.Properties.Ledger
import SolanaWinternitz.Properties.OneSignature

/-!
# From the signer to the chain

A key account is registered with the key of a persistent signer. What the signer returns is sent to
the program in any order, and any number of times.

* `end_to_end` — a signature is accepted iff it is the first one of its leaf
-/

namespace SolanaWinternitz.Program

open Infra Infra.Os

section

variable [Keccak] {k : Instance} {key : VerifyingKey}

/-! ## Any calls -/

/-- The result of a call is what it returns after the calls before it. -/
theorem executeAll_getElem? (id : Pubkey) : ∀ (cs : List Call) (bytes : Bytes) (j : Nat),
    (executeAll id bytes cs).1[j]?
      = cs[j]?.map fun c => (execute id (executeAll id bytes (cs.take j)).2 c).1
  | [], _, _ => rfl
  | _ :: _, _, 0 => rfl
  | c :: cs, bytes, j + 1 => executeAll_getElem? id cs (execute id bytes c).2 j

theorem executeAll_take_succ (id : Pubkey) {cs : List Call} {c : Call} {j : Nat}
    (h : cs[j]? = some c) (bytes : Bytes) :
    (executeAll id bytes (cs.take (j + 1))).2
      = (execute id (executeAll id bytes (cs.take j)).2 c).2 := by
  rw [List.take_add_one, h, executeAll_append]
  rfl

omit [Keccak] in
theorem tagOf_injective {k k' : Instance} (h : tagOf k = tagOf k') : k = k' := by
  cases k <;> cases k' <;> first | rfl | exact absurd h (by decide)

/-- A call that registers a key, on an uninitialised account. -/
theorem execute_registers (id : Pubkey) {bytes : KeyAccount} (h0 : bytes.get 0 = 0) {c : Call}
    (hc : c.Registers k key) : ∃ bytes' : KeyAccount, execute id bytes.toList c
      = (.ok (), bytes'.toList) ∧ Represents bytes' (.registered k key ∅) := by
  rcases refines_uninitialised id h0 c with ⟨e, a, bytes', hstep, he, hrep, hr⟩ | ⟨hstep, -⟩
  · cases hstep with
    | @create _ k' key' hc' =>
      obtain ⟨htag, hbytes⟩ := List.cons.inj (hc.2.2.symm.trans hc'.2.2)
      obtain rfl := tagOf_injective htag
      have hkey : key = key' := by
        obtain ⟨b⟩ := key
        obtain ⟨b'⟩ := key'
        exact congrArg VerifyingKey.mk (List.Vector.eq _ _ hbytes)
      exact ⟨bytes', hr, hkey ▸ hrep⟩
    | rejectCreate h => exact absurd rfl he
  · cases hstep with
    | rejectCreate h => exact absurd hc (h k key)

/-! ## Deliveries -/

/-- The instruction `2 ‖ message ‖ signature`. -/
def delivery (isSigner : Bool) (others : List AccountInfo)
    (p : Message × OneTime.Signature k.SecretKey) : Call :=
  { isSigner, isWritable := true, data := 2 :: (p.1.toList ++ SealedSignature.asBytes p.2), others }

variable (isSigner : Bool) (others : List AccountInfo)

/-- A signature that verifies is accepted, unless its leaf is marked. -/
theorem execute_delivery (id : Pubkey) {bytes : KeyAccount} {used : Finset (Fin 256)}
    (h : Represents bytes (.registered k key used)) {p : Message × OneTime.Signature k.SecretKey}
    (hp : (key.verify p.1 p.2).eval keccak256 = .ok ()) :
    ∃ leaf : Fin 256, (SealedSignature.leaf p.2).toNat = leaf ∧
      (leaf ∈ used → execute id bytes.toList (delivery isSigner others p)
        = (.error (.custom 2), bytes.toList)) ∧
      (leaf ∉ used → ∃ bytes' : KeyAccount, execute id bytes.toList (delivery isSigner others p)
          = (.ok (), bytes'.toList) ∧
        Represents bytes' (.registered k key (insert leaf used))) := by
  have hlt : (SealedSignature.leaf p.2).toNat < 256 :=
    (leaf_lt_of_verify hp).trans_le (leaves_le k)
  have hexec := execute_verify id h (c := delivery isSigner others p) rfl rfl
  rw [hp] at hexec
  refine ⟨⟨_, hlt⟩, rfl, fun hused => ?_, fun hused => ?_⟩
  · rw [hexec]
    exact if_pos ((h.2 _).mp hused)
  · refine ⟨mark bytes (SealedSignature.leaf p.2).toNat, ?_, represents_mark h ⟨_, hlt⟩⟩
    rw [hexec]
    exact if_neg (mt (h.2 ⟨_, hlt⟩).mpr hused)

/-- **After any deliveries the used leaves are those that occurred.** -/
theorem executeAll_deliveries (id : Pubkey) :
    ∀ (ps : List (Message × OneTime.Signature k.SecretKey))
    {bytes : KeyAccount} {used : Finset (Fin 256)}, Represents bytes (.registered k key used) →
    (∀ p ∈ ps, (key.verify p.1 p.2).eval keccak256 = .ok ()) →
    ∃ (final : KeyAccount) (used' : Finset (Fin 256)),
      (executeAll id bytes.toList (ps.map (delivery isSigner others))).2 = final.toList ∧
      Represents final (.registered k key used') ∧
      ∀ l : Fin 256, l ∈ used' ↔ l ∈ used ∨ ∃ p ∈ ps, (SealedSignature.leaf p.2).toNat = l
  | [], bytes, used, h, _ => ⟨bytes, used, rfl, h, fun l => by simp⟩
  | p :: ps, bytes, used, h, hps => by
    have hrest : ∀ q ∈ ps, (key.verify q.1 q.2).eval keccak256 = .ok () := fun q hq =>
      hps q (List.mem_cons_of_mem p hq)
    obtain ⟨leaf, hleaf, hold, hnew⟩ := execute_delivery isSigner others
      id h (hps p List.mem_cons_self)
    have hcons : ∀ l : Fin 256, (∃ q ∈ p :: ps, (SealedSignature.leaf q.2).toNat = l) ↔
        l = leaf ∨ ∃ q ∈ ps, (SealedSignature.leaf q.2).toNat = l := by
      intro l
      rw [List.exists_mem_cons_iff, hleaf, Fin.val_inj, eq_comm]
    by_cases hused : leaf ∈ used
    · obtain ⟨final, used', hfinal, hrep, hset⟩ := executeAll_deliveries id ps h hrest
      refine ⟨final, used', ?_, hrep, fun l => ?_⟩
      · rw [List.map_cons, executeAll, hold hused]
        exact hfinal
      · rw [hset, hcons]
        constructor
        · exact fun h => h.imp (fun h => h) Or.inr
        · rintro (h | rfl | h)
          · exact Or.inl h
          · exact Or.inl hused
          · exact Or.inr h
    · obtain ⟨bytes', hexec, hrep'⟩ := hnew hused
      obtain ⟨final, used', hfinal, hrep, hset⟩ := executeAll_deliveries id ps hrep' hrest
      refine ⟨final, used', ?_, hrep, fun l => ?_⟩
      · rw [List.map_cons, executeAll, hexec]
        exact hfinal
      · rw [hset, hcons, Finset.mem_insert, or_assoc, or_left_comm]

/-- What a signer of the path returns verifies under the key of every signer of the path. -/
theorem verify_released {Pid : Type} [DecidableEq Pid] {path : String}
    {files : List (String × Bytes)} {before after : List (Event Pid)}
    (hrun : ∀ e ∈ before ++ after, e.isPowerLoss = false) {pid : Pid}
    {signer : SigningKey k.SecretKey}
    (hlive : ((Machine.boot files).run path before : Machine k.SecretKey Pid).client pid
      = .live signer) {p : Message × OneTime.Signature k.SecretKey}
    (hp : p ∈ ((Machine.boot files).run path (before ++ after) :
      Machine k.SecretKey Pid).released) :
    (signer.verifyingKey.verify p.1 p.2).eval keccak256 = .ok () := by
  obtain ⟨hbefore, hafter⟩ := Machine.along_append.mp
    (Machine.along_powered path hrun (Machine.boot files : Machine k.SecretKey Pid))
  obtain ⟨hinv, hsafe⟩ := Machine.safe_run before ⟨Machine.inv_boot files, Or.inl rfl⟩ hbefore
  obtain ⟨r, hr, hkey⟩ := (hinv.owns hlive).key
  obtain ⟨r', hr', hkey', -⟩ := Machine.visible_run after hinv hafter hr
  rw [Machine.run_append] at hp
  rcases (Machine.safe_run after ⟨hinv, hsafe⟩ hafter).2 with hnil | ⟨r'', hr'', hc⟩
  · rw [hnil] at hp
    exact absurd hp List.not_mem_nil
  · cases hr'.symm.trans hr''
    obtain ⟨leaf, salt, -, hsig, -⟩ := hc.spent p hp
    obtain ⟨f, -, hf⟩ := Option.bind_eq_some_iff.mp hr'
    obtain ⟨secrets, parameter, hbuilt⟩ := (valid_of_decode hf).built
    have hverify := (LawfulOneTime.of_sign hbuilt hsig).1
    rw [hkey', hkey] at hverify
    exact hverify

/--
**From the signer to the chain.** A key account is registered with the key of a signer, whose path
goes through any run without a power loss. Any of the signatures that were returned are sent to the
program, in any order. Then each of them succeeds iff no earlier one had its leaf; every other one
fails with `Custom(2)` and leaves the account unchanged; and the bitmap is the set of the leaves
that occurred. Two messages never compete for one leaf.
-/
theorem end_to_end {Pid : Type} [DecidableEq Pid] (path : String)
    (files : List (String × Bytes)) (before after : List (Event Pid))
    (hrun : ∀ e ∈ before ++ after, e.isPowerLoss = false) {pid : Pid}
    {signer : SigningKey k.SecretKey}
    (hlive : ((Machine.boot files).run path before : Machine k.SecretKey Pid).client pid
      = .live signer) (id : Pubkey) {account : KeyAccount} (h0 : account.get 0 = 0) {c : Call}
    (hc : c.Registers k signer.verifyingKey) (isSigner : Bool) (others : List AccountInfo)
    (ps : List (Message × OneTime.Signature k.SecretKey))
    (hps : ∀ p ∈ ps, p ∈ ((Machine.boot files).run path (before ++ after) :
      Machine k.SecretKey Pid).released) :
    let state (j : Nat) := (executeAll id (execute id account.toList c).2
      ((ps.take j).map (delivery isSigner others))).2
    let results := (executeAll id (execute id account.toList c).2
      (ps.map (delivery isSigner others))).1
    (∀ j p, ps[j]? = some p →
      (results[j]? = some (.ok ()) ↔
        ∀ q ∈ ps.take j, SealedSignature.leaf q.2 ≠ SealedSignature.leaf p.2) ∧
      (results[j]? ≠ some (.ok ()) →
        results[j]? = some (.error (.custom 2)) ∧ state (j + 1) = state j)) ∧
    (∃ (final : KeyAccount) (used : Finset (Fin 256)), state ps.length = final.toList ∧
      Represents final (.registered k signer.verifyingKey used) ∧
      ∀ l : Fin 256, l ∈ used ↔ ∃ p ∈ ps, (SealedSignature.leaf p.2).toNat = l) ∧
    ∀ p ∈ ps, ∀ q ∈ ps, SealedSignature.leaf p.2 = SealedSignature.leaf q.2 → p.1 = q.1 := by
  obtain ⟨bytes, hexec, hrep⟩ := execute_registers id h0 hc
  have hverify := fun p hp => verify_released hrun hlive (hps p hp)
  rw [hexec]
  dsimp only
  refine ⟨fun j p hp => ?_, ?_, fun p hp q hq hleaf => ?_⟩
  · obtain ⟨final, used, hfinal, hfinalRep, hused⟩ := executeAll_deliveries
      isSigner others id (ps.take j) hrep
      fun q hq => hverify q (List.mem_of_mem_take hq)
    obtain ⟨leaf, hleaf, hold, hnew⟩ := execute_delivery isSigner others
      id hfinalRep (hverify p (List.mem_of_getElem? hp))
    have hcall : (ps.map (delivery isSigner others))[j]? = some (delivery isSigner others p) := by
      rw [List.getElem?_map, hp]
      rfl
    have hresult := executeAll_getElem? id (ps.map (delivery isSigner others)) bytes.toList j
    have hstate := executeAll_take_succ id hcall bytes.toList
    rw [hcall, ← List.map_take, hfinal, Option.map_some] at hresult
    rw [← List.map_take, ← List.map_take, hfinal] at hstate
    have hseen : leaf ∈ used ↔
        ∃ q ∈ ps.take j, SealedSignature.leaf q.2 = SealedSignature.leaf p.2 := by
      rw [hused]
      simp only [Finset.notMem_empty, false_or]
      exact exists_congr fun q => and_congr_right fun _ => by rw [← hleaf, UInt32.toNat_inj]
    rw [hresult, hstate, hfinal]
    by_cases hmem : leaf ∈ used
    · rw [hold hmem]
      obtain ⟨q, hq, hql⟩ := hseen.mp hmem
      refine ⟨⟨fun h => ?_, fun h => absurd hql (h q hq)⟩, fun _ => ⟨rfl, rfl⟩⟩
      cases h
    · obtain ⟨bytes', hok, -⟩ := hnew hmem
      rw [hok]
      exact ⟨⟨fun _ q hq hql => hmem (hseen.mpr ⟨q, hq, hql⟩), fun _ => rfl⟩,
        fun h => absurd rfl h⟩
  · rw [List.take_length]
    obtain ⟨final, used, hfinal, hfinalRep, hused⟩ := executeAll_deliveries
      isSigner others id ps hrep hverify
    exact ⟨final, used, hfinal, hfinalRep, fun l => by simpa using hused l⟩
  · have hunique := (one_signature_per_leaf k path files (before ++ after) hrun).2.2.1
    exact (hunique p (hps p hp) q (hps q hq) hleaf).1

end

/-- The signature of a signer is sent twice to the account that it registered. -/
theorem end_to_end_twice :
    letI := constantHash
    ∃ (key : VerifyingKey) (p : Message × OneTime.Signature Instance.winternitz.SecretKey),
      let state (j : Nat) := (executeAll (zeros 32) (execute (zeros 32) (zeros keyAccountLen).toList
        ⟨true, true, 0 :: key.bytes.toList, []⟩).2
        (([p, p].take j).map (delivery (k := .winternitz) false []))).2
      let results := (executeAll (zeros 32) (execute (zeros 32) (zeros keyAccountLen).toList
        ⟨true, true, 0 :: key.bytes.toList, []⟩).2
        ([p, p].map (delivery (k := .winternitz) false []))).1
      results[0]? = some (.ok ()) ∧ results[1]? = some (.error (.custom 2)) ∧
        state 2 = state 1 := by
  let _ := constantHash
  let m : Machine Instance.winternitz.SecretKey Nat := (Machine.boot []).run "key" onceEvents
  have hone : m.released.length = 1 := by decide +kernel
  have hlive : (m.client 0).signer.isSome = true := by decide +kernel
  obtain ⟨p, hp⟩ := List.length_eq_one_iff.mp hone
  obtain ⟨signer, hsigner⟩ := Option.isSome_iff_exists.mp hlive
  have hreleased : ∀ q ∈ [p, p], q ∈ m.released := by
    intro q hq
    rw [hp]
    simpa using hq
  obtain ⟨hsent, -, -⟩ := end_to_end (k := .winternitz) "key" [] onceEvents [] (by decide)
    (Client.eq_live_of_signer hsigner) (zeros 32)
    (show (zeros keyAccountLen).get 0 = 0 from rfl)
    (c := ⟨true, true, 0 :: signer.verifyingKey.bytes.toList, []⟩) ⟨rfl, rfl, rfl⟩ false [] [p, p]
    hreleased
  refine ⟨signer.verifyingKey, p, (hsent 0 p rfl).1.mpr fun q hq => absurd hq List.not_mem_nil, ?_⟩
  -- The leaf was marked by the first delivery.
  exact (hsent 1 p rfl).2 fun hok => (hsent 1 p rfl).1.mp hok p List.mem_cons_self rfl

end SolanaWinternitz.Program
