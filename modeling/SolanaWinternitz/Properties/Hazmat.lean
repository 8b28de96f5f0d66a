import SolanaWinternitz.Properties.SignVerify

/-!
# Raw signing, with any source of random bytes

* `run_sampleSalt` — an error of `sample_salt` is `SaltsExhausted` or the source's own, and a salt
  that it returns is accepted by `encode`
* `sign_verify` — signing and verification agree
-/

namespace SolanaWinternitz

open Infra Infra.Os

/-- The caller's source is asked once, and its answer is passed on. -/
theorem run_callerFill {σ : Type} (h : (c : Call String) → σ → Answer SigningError c × σ) (n : Nat)
    (s : σ) : (callerFill n).run.run h s = h (.fill n) s := by
  show Prog.run h (Prog.perform (Call.fill n) >>= fun r => Prog.ret (Except.mapError id r)) s = _
  rw [Prog.run_bind, Prog.run_perform, Prog.run_ret]
  refine Prod.ext ?_ rfl
  show Except.mapError id (h (.fill n) s).1 = _
  cases (h (.fill n) s).1 <;> rfl

variable [Keccak] {σ : Type} (h : (c : Call String) → σ → Answer SigningError c × σ)

/-- One round of `sample_salt`, run. -/
theorem run_sampleTrials_succ (parameter : Parameter) (leaf : UInt32) (message : Message)
    (trials : Nat) (s : σ) :
    (sampleTrials parameter leaf message callerFill (trials + 1)).run.run h s
      = match h (.fill saltLength) s with
        | (.ok salt, s') =>
          if ((encode salt parameter leaf message).eval keccak256).isSome then (.ok salt, s')
          else (sampleTrials parameter leaf message callerFill trials).run.run h s'
        | (.error e, s') => (.error e, s') := by
  rw [sampleTrials, Prog.run_bindExcept, run_callerFill]
  rcases h (.fill saltLength) s with ⟨r, s'⟩
  cases r with
  | error e => rfl
  | ok salt =>
    by_cases hx : ((encode salt parameter leaf message).eval keccak256).isSome = true
    · simp only [if_pos hx]
      rfl
    · simp only [if_neg hx]

theorem run_sampleTrials (parameter : Parameter) (leaf : UInt32) (message : Message) :
    ∀ (trials : Nat) (s : σ),
      match ((sampleTrials parameter leaf message callerFill trials).run.run h s).1 with
      | .ok salt => ((encode salt parameter leaf message).eval keccak256).isSome
      | .error e => e = .saltsExhausted ∨ ∃ s', (h (.fill saltLength) s').1 = .error e
  | 0, s => Or.inl rfl
  | trials + 1, s => by
    rw [run_sampleTrials_succ]
    have hask : ∀ r s', h (.fill saltLength) s = (r, s') → (h (.fill saltLength) s).1 = r :=
      fun r s' he => congrArg Prod.fst he
    rcases hfill : h (.fill saltLength) s with ⟨r, s'⟩
    cases r with
    | error e => exact Or.inr ⟨s, hask _ _ hfill⟩
    | ok salt =>
      by_cases hx : ((encode salt parameter leaf message).eval keccak256).isSome = true
      · simp only [if_pos hx]
        exact hx
      · simp only [if_neg hx]
        exact run_sampleTrials parameter leaf message trials s'

/-- **A salt from `sample_salt` is accepted**; an error is its own or the source's. -/
theorem run_sampleSalt (parameter : Parameter) (leaf : UInt32) (message : Message) (s : σ) :
    match ((sampleSalt parameter leaf message callerFill).run.run h s).1 with
    | .ok salt => ((encode salt parameter leaf message).eval keccak256).isSome
    | .error e => e = .saltsExhausted ∨ ∃ s', (h (.fill saltLength) s').1 = .error e :=
  run_sampleTrials h parameter leaf message maxTrials s

variable {K : Type} [OneTime K]

theorem run_signAt_of_ge {key : K} {leaf : UInt32} (message : Message) (s : σ)
    (hleaf : leaf ≥ OneTime.leaves K) :
    ((signAt key leaf message callerFill).run.run h s).1 = .error .invalidLeaf := by
  unfold signAt
  rw [if_pos hleaf]
  rfl

theorem run_signAt_of_lt {key : K} {leaf : UInt32} (message : Message) (s : σ)
    (hleaf : leaf < OneTime.leaves K) :
    ((signAt key leaf message callerFill).run.run h s).1
      = match ((sampleSalt ((OneTime.verifyingKey key).eval keccak256).parameter leaf message
            callerFill).run.run
          h s).1 with
        | .ok salt => okOrCorrupt ((OneTime.signAtWithSalt key leaf message salt).eval keccak256)
        | .error e => .error e := by
  unfold signAt
  rw [if_neg (UInt32.not_le.mpr hleaf)]
  show ((sampleSalt ((OneTime.verifyingKey key).eval keccak256).parameter leaf message callerFill
    >>= _).run.run
    h s).1 = _
  rw [Prog.run_bindExcept]
  rcases (sampleSalt ((OneTime.verifyingKey key).eval keccak256).parameter leaf message
    callerFill).run.run h s
    with ⟨r, s'⟩
  cases r <;> rfl

/-- What `sign_at` returns for a leaf of the instance. -/
theorem run_signAt [LawfulOneTime K] {secrets : Bytes} {parameter : Parameter} {key : K}
    (hkey : Builds secrets parameter key) {leaf : UInt32} (message : Message)
    (s : σ) (hleaf : leaf < OneTime.leaves K) :
    match ((signAt key leaf message callerFill).run.run h s).1 with
    | .ok sig => ∃ salt, (OneTime.signAtWithSalt key leaf message salt).eval keccak256 = some sig
    | .error e => e = .saltsExhausted ∨ ∃ s', (h (.fill saltLength) s').1 = .error e := by
  obtain ⟨-, -, hparameter⟩ := LawfulOneTime.of_builds hkey
  have hsalt := run_sampleSalt h parameter leaf message s
  rw [run_signAt_of_lt h message s hleaf, hparameter]
  cases hr : ((sampleSalt parameter leaf message callerFill).run.run h s).1 with
  | error e =>
    rw [hr] at hsalt
    exact hsalt
  | ok salt =>
    rw [hr] at hsalt
    obtain ⟨sig, hsig⟩ := Option.isSome_iff_exists.mp
      ((LawfulOneTime.sign_isSome hkey leaf message salt).mpr ⟨hleaf, hsalt⟩)
    show match okOrCorrupt ((OneTime.signAtWithSalt key leaf message salt).eval keccak256) with
      | .ok sig => ∃ salt, (OneTime.signAtWithSalt key leaf message salt).eval keccak256 = some sig
      | .error e => e = .saltsExhausted ∨ ∃ s', (h (.fill saltLength) s').1 = .error e
    rw [hsig]
    exact ⟨salt, hsig⟩

/--
**Signing and verification agree.** For a key built from secrets of the right length,
`sign_at_with_salt` succeeds iff the leaf exists and the salt is accepted, and what it returns
verifies and carries the salt and the leaf. `sign_at` rejects exactly the leaves that do not exist,
is never `Corrupt`, and what it returns verifies, with any source that does not itself fail with
these two errors.
-/
theorem sign_verify (k : Instance)
    (secrets : Block ((OneTime.leaves k.SecretKey).toNat * elementsLength))
    (parameter : Parameter) :
    ∃ key : k.SecretKey,
      (OneTime.fromSecrets secrets.toList parameter).eval keccak256 = .ok key ∧
      (∀ leaf message salt,
        (((OneTime.signAtWithSalt key leaf message salt).eval keccak256).isSome ↔
          leaf < OneTime.leaves k.SecretKey ∧
            ((encode salt parameter leaf message).eval keccak256).isSome) ∧
        ∀ sig, (OneTime.signAtWithSalt key leaf message salt).eval keccak256 = some sig →
          (((OneTime.verifyingKey key).eval keccak256).verify message sig).eval keccak256 = .ok () ∧
            SealedSignature.salt sig = salt ∧ SealedSignature.leaf sig = leaf) ∧
      ∀ (σ : Type) (source : (c : Call String) → σ → Answer SigningError c × σ) (s : σ)
        leaf message,
        (∀ s', (source (.fill saltLength) s').1 ≠ .error .invalidLeaf ∧
          (source (.fill saltLength) s').1 ≠ .error .corrupt) →
        let result := ((signAt key leaf message callerFill).run.run source s).1
        (result = .error .invalidLeaf ↔ leaf ≥ OneTime.leaves k.SecretKey) ∧
          result ≠ .error .corrupt ∧
          ∀ sig, result = .ok sig →
            (((OneTime.verifyingKey key).eval keccak256).verify message sig).eval keccak256
              = .ok () := by
  obtain ⟨key, hkey⟩ := LawfulOneTime.exists_builds (K := k.SecretKey) secrets.toList
    parameter (List.Vector.toList_length secrets)
  refine ⟨key, hkey,
    fun leaf message salt => ⟨LawfulOneTime.sign_isSome hkey leaf message salt, ?_⟩,
    ?_⟩
  · intro sig hsig
    obtain ⟨hverify, hleaf, hsalt⟩ := LawfulOneTime.of_sign hkey hsig
    exact ⟨hverify, hsalt, hleaf⟩
  · intro σ source s leaf message hsource
    dsimp only
    by_cases hleaf : leaf ≥ OneTime.leaves k.SecretKey
    · rw [run_signAt_of_ge source message s hleaf]
      refine ⟨⟨fun _ => hleaf, fun _ => rfl⟩, ?_, ?_⟩
      · intro he
        cases he
      · intro sig he
        cases he
    · have hresult := run_signAt source hkey message s (UInt32.not_le.mp hleaf)
      generalize ((signAt key leaf message callerFill).run.run source s).1 = result at hresult ⊢
      cases result with
      | ok sig =>
        obtain ⟨salt, hsig⟩ := hresult
        refine ⟨⟨fun he => ?_, fun he => absurd he hleaf⟩, ?_, ?_⟩
        · cases he
        · intro he
          cases he
        · intro sig' he
          cases he
          exact (LawfulOneTime.of_sign hkey hsig).1
      | error e =>
        have hne : e ≠ .invalidLeaf ∧ e ≠ .corrupt := by
          rcases hresult with rfl | ⟨s', he⟩
          · exact ⟨by simp, by simp⟩
          · exact ⟨fun h => (hsource s').1 (h ▸ he), fun h => (hsource s').2 (h ▸ he)⟩
        refine ⟨⟨fun he => ?_, fun he => absurd he hleaf⟩, ?_, ?_⟩
        · exact absurd (Except.error.inj he) hne.1
        · exact fun he => hne.2 (Except.error.inj he)
        · intro sig' he
          cases he

end SolanaWinternitz
