import SolanaWinternitz.Properties.TsCore
import SolanaWinternitz.Ts.SigningKey

/-!
# Steps of the TypeScript signer

* `invoke_apply`, `orThrow_apply` — one call, answered by the environment
* `attempt_eq` — **an attempt samples a salt, spends the leaf, writes the record and releases the
  signature**
* `close_apply` — `close` of an open signer
* `signWithRng_cases` — **a call throws at once, answers the last message again, or attempts**
-/

namespace SolanaWinternitz.Ts

open Infra Infra.Os Infra.Js

variable {K Pid X α : Type}

/-! ## Calls -/

theorem orThrow_apply {ε : Type} {x : Action K Pid X (Except ε α)} {p p' : Process K Pid X}
    {r : Except ε α} (f : ε → Thrown) (h : x p = (.ok r, p')) :
    orThrow f x p = (r.mapError f, p') := by
  unfold orThrow
  rw [bind_ok h]
  rfl

/-- The process after a call. -/
def Process.did (p : Process K Pid X) (c : Call String) (w : World String Pid) : Process K Pid X :=
  { p with world := w, calls := p.calls ++ [c] }

/-- The call that the outcomes decide about next. -/
theorem invoke_apply {c : Call String} {p : Process K Pid X} {r : Answer Thrown c}
    {w : World String Pid} (h : p.world.exec p.pid (p.outcomes p.calls.length) c = (r, w)) :
    (invoke c : Action K Pid X (Answer Thrown c)) p
      = (.ok r, p.did c w) := by
  unfold invoke
  rw [h]
  rfl

/-! ## Methods -/

/-- `close` between two calls. -/
theorem close_apply {p : Process K Pid X} (hsampling : p.self.sampling = false)
    (hopen : p.self.closed = false) : ∃ r p', close p = (r, p') ∧
      p'.self = { p.self with closed := true } ∧ p'.captured = p.captured := by
  refine ⟨(close p).1, (close p).2, rfl, ?_⟩
  unfold close assignSelf
  rw [look_bind, if_neg (Bool.eq_false_iff.mp hsampling), if_neg (Bool.eq_false_iff.mp hopen),
    assign_bind]
  exact ⟨rfl, rfl⟩

variable [Keccak] [OneTime K]

/-- The salt of an attempt, or why there is none. -/
def trySalt (fill : FillRandom (Process K Pid X)) (leaf : Int) (message : Bytes) :
    Action K Pid X (Except Thrown Bytes) :=
  Js.onThrow (do
      let key ← verifyingKey
      let salt ← sampleSalt (subarrayFrom key.toBytes elementLength) leaf message fill
      pure (.ok salt))
    fun e => pure (.error (rethrow .random e))

/-- The signer after an attempt. -/
def SigningKey.spent (self : SigningKey K) (value : Bytes) (sampled : Except Thrown Bytes) :
    SigningKey K :=
  { self with
    nextLeaf := self.nextLeaf + 1
    lastMessage := if sampled.isOk then some value else none
    lastSalt := sampled.toOption.getD (List.replicate saltLength 0) }

/-- The end of an attempt, once the record is written. -/
def released (self : SigningKey K) (leaf : Int) (value : Bytes) :
    Except Thrown Bytes → Action K Pid X (OneTime.Signature K)
  | .error failure => raise failure
  | .ok salt => ofExcept .crypto (OneTime.signAtWithSalt self.key (.integer leaf) value salt)

/-- Write the record of a signer, which is closed if that fails. -/
def writeOrClose (self : SigningKey K) : Action K Pid X Unit :=
  Js.onThrow self.write fun e => do
    close
    raise (rethrow .io e)

/-- **An attempt, after its salt was sampled.** -/
theorem attempt_eq {fill : FillRandom (Process K Pid X)} {value : Bytes} {p p' : Process K Pid X}
    {sampled : Except Thrown Bytes} (hsampling : p.self.sampling = false)
    (hsampled : trySalt fill p.self.nextLeaf value
      { p with self := { p.self with sampling := true } }
      = (.ok sampled, p'))
    (hself : p'.self = { p.self with sampling := true }) :
    attempt value fill p = (do
        writeOrClose (p.self.spent value sampled)
        released (p.self.spent value sampled) p.self.nextLeaf value sampled)
      { p' with self := p.self.spent value sampled } := by
  let stopped : Process K Pid X := { p' with self := { p'.self with sampling := false } }
  have hstop : Js.onExit (trySalt fill p.self.nextLeaf value)
      (assignSelf fun self => { self with sampling := false })
      { p with self := { p.self with sampling := true } } = (.ok sampled, stopped) :=
    onExit_ok hsampled rfl
  have hstopped : stopped.self = p.self := by
    show { p'.self with sampling := false } = p.self
    rw [hself]
    show { p.self with sampling := false } = p.self
    rw [← hsampling]
  let spent : Process K Pid X := { p' with self := { stopped.self with
    nextLeaf := p.self.nextLeaf + 1
    lastMessage := if sampled.isOk then some value else none
    lastSalt := sampled.toOption.getD (List.replicate saltLength 0) } }
  have hadvance : ∀ self : SigningKey K, self = p.self → { self with
      nextLeaf := p.self.nextLeaf + 1
      lastMessage := if sampled.isOk then some value else none
      lastSalt := sampled.toOption.getD (List.replicate saltLength 0) }
        = p.self.spent value sampled := by
    rintro self rfl
    rfl
  have hself' : spent.self = p.self.spent value sampled := hadvance stopped.self hstopped
  have hspent : spent = { p' with self := p.self.spent value sampled } := by
    rw [← hself']
  have hattempt : attempt value fill p = (do
      writeOrClose spent.self
      released spent.self p.self.nextLeaf value sampled) spent := by
    cases sampled with
    | error failure => exact bind_ok hstop
    | ok salt => exact bind_ok hstop
  rw [hattempt, hspent]

/-! ## Calls of `signWithRng` -/

/-- A closed signer signs no more. -/
theorem signWithRng_closed {p : Process K Pid X} (hclosed : p.self.closed = true) (message : Ref)
    (fill : FillRandom (Process K Pid X)) :
    signWithRng message fill p = (.error (.of .unusable "the signer is closed"), p) := by
  unfold signWithRng
  rw [look_bind, if_pos hclosed]
  rfl

/-- What an open signer does with a message of the right length. -/
theorem signWithRng_open {p : Process K Pid X} {message : Ref} {value : Message}
    (hopen : p.self.closed = false) (hsampling : p.self.sampling = false)
    (hvalue : p.buffers message = value.toList) (fill : FillRandom (Process K Pid X)) :
    signWithRng message fill p
      = (if p.self.lastMessage.any (equal value.toList) then
          ofExcept .crypto (OneTime.signAtWithSalt p.self.key (.integer (p.self.nextLeaf - 1))
            value.toList p.self.lastSalt)
        else if p.self.nextLeaf ≥ OneTime.leaves K then
          raise (.of .exhausted "leaves exhausted")
        else attempt value.toList fill) p := by
  unfold signWithRng
  rw [look_bind, if_neg (Bool.eq_false_iff.mp hopen), if_neg (Bool.eq_false_iff.mp hsampling),
    look_bind, hvalue, bytes_toList, ofExcept_ok_bind]

omit [Keccak] [OneTime K] in
/-- The signer remembers the message that it is asked for. -/
theorem remembers_iff {lastMessage : Option Bytes} {value : Bytes} :
    lastMessage.any (equal value) = true ↔ lastMessage = some value := by
  cases lastMessage with
  | none => simp
  | some message =>
    have hcomm : value = message ↔ message = value := eq_comm
    simpa [equal] using hcomm

/-- **A call throws at once, answers the last message again, or attempts**, whatever its callback
is. -/
theorem signWithRng_cases {p : Process K Pid X} (hsampling : p.self.sampling = false)
    (message : Ref) :
    (∃ e, ∀ fill : FillRandom (Process K Pid X), signWithRng message fill p = (.error e, p)) ∨
    p.self.closed = false ∧
      (p.self.lastMessage = some (p.buffers message) ∧
          (∀ fill : FillRandom (Process K Pid X), signWithRng message fill p
            = ((OneTime.signAtWithSalt p.self.key (.integer (p.self.nextLeaf - 1))
                (p.buffers message) p.self.lastSalt).mapError .crypto, p)) ∨
        (p.buffers message).length = messageLen ∧ p.self.nextLeaf < OneTime.leaves K ∧
          ∀ fill : FillRandom (Process K Pid X),
            signWithRng message fill p = attempt (p.buffers message) fill p) := by
  by_cases hclosed : p.self.closed = true
  · exact Or.inl ⟨_, signWithRng_closed hclosed message⟩
  · have hopen : p.self.closed = false := Bool.eq_false_iff.mpr hclosed
    by_cases hlen : (p.buffers message).length = messageLen
    · obtain ⟨value, hvalue⟩ : ∃ value : Message, p.buffers message = value.toList :=
        ⟨⟨_, hlen⟩, rfl⟩
      have hrun := signWithRng_open hopen hsampling hvalue
      rw [hvalue]
      by_cases hretry : p.self.lastMessage.any (equal value.toList) = true
      · refine Or.inr ⟨hopen, Or.inl ⟨remembers_iff.mp hretry, fun fill => ?_⟩⟩
        rw [hrun, if_pos hretry]
        rfl
      · by_cases hleaf : p.self.nextLeaf ≥ OneTime.leaves K
        · refine Or.inl ⟨.of .exhausted "leaves exhausted", fun fill => ?_⟩
          rw [hrun, if_neg hretry, if_pos hleaf]
          rfl
        · refine Or.inr ⟨hopen, Or.inr ⟨List.Vector.toList_length value, Int.not_le.mp hleaf,
            fun fill => ?_⟩⟩
          rw [hrun, if_neg hretry, if_neg hleaf]
    · obtain ⟨e, he⟩ : ∃ e, bytes (p.buffers message) messageLen "message" = .error e :=
        ⟨_, dif_neg hlen⟩
      refine Or.inl ⟨.crypto e, fun fill => ?_⟩
      unfold signWithRng
      rw [look_bind, if_neg hclosed, if_neg (Bool.eq_false_iff.mp hsampling), look_bind, he]
      rfl

end SolanaWinternitz.Ts
