import SolanaWinternitz.Properties.Attempt
import SolanaWinternitz.Properties.RawSigners

/-!
# A signer without a file

What a signer is for: it turns messages into signatures, one leaf a message, and answers the last
message again. There are no files here, no languages and no failures but those of the source.

* `Record.sign` — one message
* `Record.signAll` — one message after the other. **Where the messages are cut into sessions makes
  no difference** (`Record.signAll_append`)
-/

namespace SolanaWinternitz

open Infra Infra.Os

/-- Why a message is not signed. -/
inductive Refusal where
  | exhausted
  | saltsExhausted
  | source (failure : Failure)

/-- The error of the crate. -/
def Refusal.rust : Refusal → SigningError
  | exhausted => .exhausted
  | saltsExhausted => .saltsExhausted
  | source failure => failure.rust

/-- What the TypeScript package throws. -/
def Refusal.ts : Refusal → Ts.Thrown
  | exhausted => .of .exhausted "leaves exhausted"
  | saltsExhausted => .of .saltsExhausted "4096 salts missed the target sum; the leaf is spent"
  | source failure => Ts.rethrow .random failure.ts

/-- At most `trials` salts of the source, until one is accepted. -/
def firstAccepted {σ : Type} (source : SharedSource σ) (accepts : Salt → Bool) :
    Nat → σ → Except Refusal Salt × σ
  | 0, s => (.error .saltsExhausted, s)
  | trials + 1, s =>
    match source saltLength s with
    | (.error failure, s) => (.error (.source failure), s)
    | (.ok salt, s) => if accepts salt then (.ok salt, s) else firstAccepted source accepts trials s

theorem firstAccepted_accepts {σ : Type} {source : SharedSource σ} {accepts : Salt → Bool}
    {salt : Salt} : ∀ (trials : Nat) (s : σ),
      (firstAccepted source accepts trials s).1 = .ok salt → accepts salt = true
  | 0, s, h => by cases h
  | trials + 1, s, h => by
    rw [firstAccepted] at h
    rcases hr : source saltLength s with ⟨r, s'⟩
    rw [hr] at h
    cases r with
    | error failure => cases h
    | ok salt' =>
      dsimp only at h
      by_cases hx : accepts salt' = true
      · rw [if_pos hx] at h
        cases h
        exact hx
      · rw [if_neg hx] at h
        exact firstAccepted_accepts trials s' h

namespace Record

variable [Keccak] {K : Type} [OneTime K] {σ : Type} (source : SharedSource σ)

/-- The signer that has the record. -/
def signer (r : Record K) (path : String) (lock : Fd) : SigningKey K :=
  ⟨r.key, path, lock, r.nextLeaf, r.lastMessage, r.lastSalt, false⟩

/-- The bytes of a key file that holds the record. -/
def encoded (r : Record K) : Bytes := (r.signer "" 0).encoded

/-- A valid record is found again in its bytes. -/
theorem Valid.decode_encoded [LawfulOneTime K] {r : Record K} (h : r.Valid) :
    decode K r.encoded = some r := SigningKey.decode_encoded (r.signer "" 0) h

/-- The salts that sign a message at the next leaf. -/
def accepts (r : Record K) (message : Message) (salt : Salt) : Bool :=
  ((encode salt (parameterOf r.key) r.nextLeaf message).eval keccak256).isSome

/-- The leaf is spent, and a message is remembered if there is a salt for it. -/
def spend (r : Record K) (message : Message) (sampled : Except Refusal Salt) : Record K :=
  { r with
    nextLeaf := r.nextLeaf + 1
    lastMessage := if sampled.isOk then some message else none
    lastSalt := sampled.toOption.getD (zeros _) }

/-- The bytes of the signature of the last message. -/
def signature (r : Record K) (message : Message) : Bytes :=
  (((OneTime.signAtWithSalt r.key (r.nextLeaf - 1) message r.lastSalt).eval keccak256).map
    SealedSignature.asBytes).getD []

/-- Sign a message. -/
def sign (r : Record K) (message : Message) (s : σ) : Except Refusal Bytes × Record K × σ :=
  if r.lastMessage = some message then (.ok (r.signature message), r, s)
  else if r.nextLeaf ≥ OneTime.leaves K then (.error .exhausted, r, s)
  else
    let sampled := firstAccepted source (r.accepts message) maxTrials s
    let spent := r.spend message sampled.1
    (sampled.1.map fun _ => spent.signature message, spent, sampled.2)

/-- Sign one message after the other. -/
def signAll : List Message → Record K → σ → List (Except Refusal Bytes) × Record K × σ
  | [], r, s => ([], r, s)
  | message :: rest, r, s =>
    let first := r.sign source message s
    let others := signAll rest first.2.1 first.2.2
    (first.1 :: others.1, others.2)

theorem signAll_length (messages : List Message) (r : Record K) (s : σ) :
    (signAll source messages r s).1.length = messages.length := by
  induction messages generalizing r s with
  | nil => rfl
  | cons message rest ih =>
    rw [signAll]
    exact congrArg (· + 1) (ih _ _)

variable {source}

/-- Cutting the messages in two makes no difference. -/
theorem signAll_append (before after : List Message) (r : Record K) (s : σ) :
    signAll source (before ++ after) r s
      = ((signAll source before r s).1
          ++ (signAll source after (signAll source before r s).2.1
            (signAll source before r s).2.2).1,
        (signAll source after (signAll source before r s).2.1
          (signAll source before r s).2.2).2) := by
  induction before generalizing r s with
  | nil => rfl
  | cons message before ih =>
    rw [List.cons_append, signAll, signAll]
    dsimp only
    rw [ih]
    rfl

/-- The signature of the last message of a valid record. -/
theorem Signs.signature_eq {r : Record K} {message : Message} {sig : OneTime.Signature K}
    (h : r.Signs message sig) : r.signature message = SealedSignature.asBytes sig := by
  unfold signature
  rw [h.2]
  rfl

/-- A spent leaf leaves a valid record. -/
theorem Valid.spend_of_accepts {r : Record K} (h : r.Valid) (hlt : r.nextLeaf < OneTime.leaves K)
    {message : Message} {sampled : Except Refusal Salt}
    (hx : ∀ salt, sampled = .ok salt → r.accepts message salt = true) :
    (r.spend message sampled).Valid := by
  have hsigner : (r.signer "" 0).record.Valid := h
  have hadvance : ((r.signer "" 0).advance message (sampled.mapError Refusal.rust)).record.Valid :=
    ((r.signer "" 0).valid_advance hsigner hlt message fun salt hsalt =>
      hx salt (mapError_eq_ok hsalt)).1
  have hspend : ((r.signer "" 0).advance message (sampled.mapError Refusal.rust)).record
      = r.spend message sampled := by
    unfold SigningKey.advance SigningKey.record Record.spend
    cases sampled <;> rfl
  exact hspend ▸ hadvance

theorem Valid.spend {r : Record K} (h : r.Valid) (hlt : r.nextLeaf < OneTime.leaves K)
    (message : Message) (s : σ) :
    (r.spend message (firstAccepted source (r.accepts message) maxTrials s).1).Valid :=
  h.spend_of_accepts hlt fun _ hsalt => firstAccepted_accepts maxTrials s hsalt

/-- **A record stays valid.** -/
theorem Valid.sign {r : Record K} (h : r.Valid) (message : Message) (s : σ) :
    (r.sign source message s).2.1.Valid := by
  unfold Record.sign
  split
  · exact h
  · split
    · exact h
    · next hleaf => exact h.spend (UInt32.not_le.mp hleaf) message s

theorem Valid.signAll (messages : List Message) : ∀ {r : Record K}, r.Valid → ∀ s : σ,
    (Record.signAll source messages r s).2.1.Valid := by
  induction messages with
  | nil => exact fun h _ => h
  | cons message rest ih => exact fun {r} h s => ih (h.sign message s) (r.sign source message s).2.2

end Record

end SolanaWinternitz
