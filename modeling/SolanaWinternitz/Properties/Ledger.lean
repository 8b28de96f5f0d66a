import SolanaWinternitz.Program
import SolanaWinternitz.Properties.SignVerify

/-!
# The on-chain program keeps a set of used leaves

The purpose of the program: an account is uninitialised, or it has an instance, a key and a set of
used leaves. `Ledger.Step` says what a call does to it.

* `call_refines` — one call of the program is one step of the ledger, and a call that is rejected
  leaves every byte of the account unchanged
* `calls_refine` — so is a run, from any account whose first byte is zero
* `Ledger.Run.used` — a leaf is accepted at most once
-/

namespace SolanaWinternitz.Program

open Infra

/-! ## The ledger -/

/-- The tag of the instruction that registers an instance. -/
def tagOf : Instance → UInt8
  | .winternitz => 0
  | .xmss => 1

/-- What a key account stands for. -/
inductive Ledger where
  | uninitialised
  | registered (k : Instance) (key : VerifyingKey) (used : Finset (Fin 256))

/-- One call of the program on the account, with its flags and its data. -/
structure Call where
  isSigner : Bool
  isWritable : Bool
  data : Bytes
  /-- Further accounts of the instruction. -/
  others : List AccountInfo

/-- What a call did. -/
inductive Effect where
  | created (k : Instance) (key : VerifyingKey)
  | accepted (leaf : Fin 256)
  | rejected

/-- The leaves that were accepted, in order. -/
def acceptedLeaves : List Effect → List (Fin 256)
  | [] => []
  | .accepted leaf :: es => leaf :: acceptedLeaves es
  | _ :: es => acceptedLeaves es

def Ledger.used : Ledger → Finset (Fin 256)
  | .uninitialised => ∅
  | .registered _ _ used => used

/-- The key stays, and no leaf is forgotten. -/
def Ledger.Extends : Ledger → Ledger → Prop
  | .uninitialised, _ => True
  | .registered _ _ _, .uninitialised => False
  | .registered k key used, .registered k' key' used' => k' = k ∧ key' = key ∧ used ⊆ used'

/-- Every used leaf is a leaf of the instance. -/
def Ledger.InRange : Ledger → Prop
  | .uninitialised => True
  | .registered k _ used => ∀ leaf ∈ used, leaf.val < (OneTime.leaves k.SecretKey).toNat

theorem Ledger.Extends.refl : ∀ a : Ledger, a.Extends a
  | .uninitialised => trivial
  | .registered _ _ _ => ⟨rfl, rfl, Finset.Subset.refl _⟩

theorem Ledger.Extends.trans {a b d : Ledger} (hab : a.Extends b) (hbd : b.Extends d) :
    a.Extends d := by
  cases a with
  | uninitialised => trivial
  | registered k key used =>
    cases b with
    | uninitialised => exact hab.elim
    | registered k' key' used' =>
      cases d with
      | uninitialised => exact hbd.elim
      | registered k'' key'' used'' =>
        exact ⟨hbd.1.trans hab.1, hbd.2.1.trans hab.2.1, hab.2.2.trans hbd.2.2⟩

/-- The call asks to register a key, and may. -/
def Call.Registers (c : Call) (k : Instance) (key : VerifyingKey) : Prop :=
  c.isWritable ∧ c.isSigner ∧ c.data = tagOf k :: key.bytes.toList

section Step

variable [Keccak]

/-- The call carries a signature at a leaf that the key accepts. -/
def Call.Verifies (c : Call) (k : Instance) (key : VerifyingKey) (leaf : Fin 256) : Prop :=
  c.isWritable ∧ ∃ (digest : Message) (sig : OneTime.Signature k.SecretKey),
    c.data = 2 :: (digest.toList ++ SealedSignature.asBytes sig) ∧
    (key.verify digest sig).eval keccak256 = .ok () ∧ (SealedSignature.leaf sig).toNat = leaf

/-- What a call may do to the ledger. -/
inductive Ledger.Step : Ledger → Call → Effect → Ledger → Prop where
  | create {c : Call} {k : Instance} {key : VerifyingKey} (h : c.Registers k key) :
    Step .uninitialised c (.created k key) (.registered k key ∅)
  | verify {c : Call} {k : Instance} {key : VerifyingKey} {used : Finset (Fin 256)} {leaf : Fin 256}
      (h : c.Verifies k key leaf) (hleaf : leaf ∉ used) :
    Step (.registered k key used) c (.accepted leaf) (.registered k key (insert leaf used))
  | rejectCreate {c : Call} (h : ∀ k key, ¬ c.Registers k key) :
    Step .uninitialised c .rejected .uninitialised
  | rejectVerify {c : Call} {k : Instance} {key : VerifyingKey} {used : Finset (Fin 256)}
      (h : ∀ leaf, c.Verifies k key leaf → leaf ∈ used) :
    Step (.registered k key used) c .rejected (.registered k key used)

/-- A run of the ledger. -/
inductive Ledger.Run : Ledger → List Call → List Effect → Ledger → Prop where
  | nil (a : Ledger) : Run a [] [] a
  | cons {a b d : Ledger} {c : Call} {e : Effect} {cs : List Call} {es : List Effect}
      (hstep : Step a c e b) (hrun : Run b cs es d) : Run a (c :: cs) (e :: es) d

end Step

/-! ## Bytes of an account -/

/-- Bit `leaf` of the bitmap. -/
def marked (bytes : KeyAccount) (leaf : Nat) : Bool :=
  (bytes.toList.getD (keyEnd + leaf / 8) 0).toNat.testBit (leaf % 8)

/-- The account stands for the ledger. -/
def Represents (bytes : KeyAccount) : Ledger → Prop
  | .uninitialised => tagByte bytes = 0
  | .registered k key used =>
    bytes.toList.take keyEnd = (tagOf k + 1) :: key.bytes.toList ∧
      ∀ leaf : Fin 256, leaf ∈ used ↔ marked bytes leaf = true

theorem copyInto_singleton {n : Nat} (b : Block n) {i : Nat} (hi : i < n) (v : UInt8) :
    (copyInto b i [v]).toList = b.toList.set i v := by
  rw [copyInto_toList (by simpa using hi), List.set_eq_take_append_cons_drop,
    if_pos (by simpa using hi)]
  rfl

/-- The bit that `verify` tests and sets. -/
theorem mask_toNat {i : Nat} (hi : i < 8) : ((1 : UInt8) <<< UInt8.ofNat i).toNat = 2 ^ i := by
  have hall : ∀ i < 8, ((1 : UInt8) <<< UInt8.ofNat i).toNat = 2 ^ i := by decide
  exact hall i hi

theorem and_mask_ne_zero (u : UInt8) {i : Nat} (hi : i < 8) :
    u &&& ((1 : UInt8) <<< UInt8.ofNat i) ≠ 0 ↔ u.toNat.testBit i = true := by
  rw [Ne, ← UInt8.toNat_inj, UInt8.toNat_and, mask_toNat hi, Nat.and_two_pow]
  cases u.toNat.testBit i <;> simp

theorem testBit_or_mask (u : UInt8) {i j : Nat} (hi : i < 8) :
    (u ||| ((1 : UInt8) <<< UInt8.ofNat i)).toNat.testBit j
      = (u.toNat.testBit j || decide (i = j)) := by
  rw [UInt8.toNat_or, mask_toNat hi, Nat.testBit_or, Nat.testBit_two_pow]

/-- The account after leaf `leaf` is marked. -/
def mark (bytes : KeyAccount) (leaf : Nat) : KeyAccount :=
  copyInto bytes (keyEnd + leaf / 8)
    [bytes.toList.getD (keyEnd + leaf / 8) 0 ||| 1 <<< UInt8.ofNat (leaf % 8)]

theorem marked_mark (bytes : KeyAccount) {leaf : Nat} (hleaf : leaf < 256) (l : Nat) :
    marked (mark bytes leaf) l = (marked bytes l || decide (leaf = l)) := by
  have hi : keyEnd + leaf / 8 < keyAccountLen := by show 42 + leaf / 8 < 74; omega
  have hlen : keyEnd + leaf / 8 < bytes.toList.length := by simpa using hi
  unfold marked mark
  rw [copyInto_singleton _ hi]
  by_cases hl : leaf / 8 = l / 8
  · rw [← hl, List.getD_eq_getElem?_getD, List.getElem?_set_self hlen, Option.getD_some,
      testBit_or_mask _ (by omega)]
    congr 1
    exact decide_eq_decide.mpr (by omega)
  · rw [List.getD_eq_getElem?_getD, List.getElem?_set_ne (by omega), ← List.getD_eq_getElem?_getD]
    have hne : leaf ≠ l := by omega
    simp [hne]

theorem take_mark (bytes : KeyAccount) {leaf : Nat} (hleaf : leaf < 256) :
    (mark bytes leaf).toList.take keyEnd = bytes.toList.take keyEnd := by
  unfold mark
  rw [copyInto_singleton _ (by show 42 + leaf / 8 < 74; omega), List.take_set_of_le (by omega)]

/-- Marking a leaf adds it to the set. -/
theorem represents_mark {bytes : KeyAccount} {k : Instance} {key : VerifyingKey}
    {used : Finset (Fin 256)} (h : Represents bytes (.registered k key used)) (leaf : Fin 256) :
    Represents (mark bytes leaf) (.registered k key (insert leaf used)) := by
  refine ⟨(take_mark bytes leaf.isLt).trans h.1, fun l => ?_⟩
  rw [Finset.mem_insert, h.2 l, marked_mark bytes leaf.isLt, Bool.or_eq_true, decide_eq_true_iff,
    Fin.ext_iff]
  exact ⟨fun h => h.elim (fun h => Or.inr h.symm) Or.inl,
    fun h => h.elim Or.inr fun h => Or.inl h.symm⟩

/-- The account after a key is registered. -/
def register (bytes : KeyAccount) (tag : UInt8) (key : VerifyingKey) : KeyAccount :=
  copyInto (copyInto (copyInto bytes 0 [tag + 1]) 1 key.bytes.toList) keyEnd (List.replicate 32 0)

theorem register_toList (bytes : KeyAccount) (tag : UInt8) (key : VerifyingKey) :
    (register bytes tag key).toList = (tag + 1) :: (key.bytes.toList ++ List.replicate 32 0) := by
  have hlen : bytes.toList.length = 74 := List.Vector.toList_length bytes
  have hsplit : bytes.toList = [] ++ (bytes.toList.take 1
      ++ ((bytes.toList.drop 1).take 41 ++ bytes.toList.drop 42)) := by
    rw [List.nil_append, show 42 = 1 + 41 from rfl, ← List.drop_drop, List.take_append_drop,
      List.take_append_drop]
  have h1 : (copyInto bytes 0 [tag + 1]).toList
      = [] ++ ([tag + 1] ++ ((bytes.toList.drop 1).take 41 ++ bytes.toList.drop 42)) :=
    copyInto_append (bytes.toList.take 1) hsplit rfl (by simp [hlen])
  have h2 : (copyInto (copyInto bytes 0 [tag + 1]) 1 key.bytes.toList).toList
      = [tag + 1] ++ (key.bytes.toList ++ bytes.toList.drop 42) :=
    copyInto_append ((bytes.toList.drop 1).take 41) h1 rfl (by simp [hlen]; rfl)
  have h3 : (register bytes tag key).toList
      = ([tag + 1] ++ key.bytes.toList) ++ (List.replicate 32 0 ++ []) :=
    copyInto_append (bytes.toList.drop 42) (by rw [h2, List.append_nil, List.append_assoc])
      (by simp; rfl) (by simp [hlen])
  rw [h3, List.append_nil, List.append_assoc]
  rfl

theorem represents_register (bytes : KeyAccount) (k : Instance) (key : VerifyingKey) :
    Represents (register bytes (tagOf k) key) (.registered k key ∅) := by
  constructor
  · rw [register_toList]
    show (tagOf k + 1) :: (key.bytes.toList ++ _).take 41 = _
    rw [List.take_left' (by simp; rfl)]
  · intro leaf
    have hlen : ((tagOf k + 1) :: key.bytes.toList).length = keyEnd := by simp; rfl
    unfold marked
    rw [register_toList, ← List.cons_append, List.getD_eq_getElem?_getD,
      List.getElem?_append_right (by omega), hlen, Nat.add_sub_cancel_left]
    have hzero : ((List.replicate 32 (0 : UInt8))[leaf.val / 8]?).getD 0 = 0 := by
      rw [List.getElem?_replicate]
      split <;> rfl
    rw [hzero]
    simp

/-- The first byte of an account that stands for a registered key. -/
theorem get_zero_of_represents {bytes : KeyAccount} {k : Instance} {key : VerifyingKey}
    {used : Finset (Fin 256)} (h : Represents bytes (.registered k key used)) :
    bytes.get 0 = tagOf k + 1 := by
  have h0 := getElem?_toList bytes 0
  have ht : (bytes.toList.take keyEnd)[0]? = some (tagOf k + 1) := by rw [h.1]; rfl
  rw [List.getElem?_take_of_lt (by decide)] at ht
  exact Option.some.inj (h0.symm.trans ht)

/-- The stored key of an account that stands for a registered key. -/
theorem slice_of_represents {bytes : KeyAccount} {k : Instance} {key : VerifyingKey}
    {used : Finset (Fin 256)} (h : Represents bytes (.registered k key used)) :
    slice bytes.toList 1 publicKeyLen = key.bytes := by
  have hlen : bytes.toList.length = 74 := List.Vector.toList_length bytes
  refine List.Vector.eq _ _ ?_
  rw [slice_toList (by rw [hlen]; decide)]
  have hdrop : (bytes.toList.take keyEnd).drop 1 = key.bytes.toList := by rw [h.1]; rfl
  rw [← hdrop, List.drop_take]
  rfl

/-! ## Runs of the instructions -/

theorem run_bind {α β : Type} (p : Instruction α) (f : α → Instruction β) (bytes : KeyAccount) :
    (p >>= f).run.run bytes = match p.run.run bytes with
      | (.ok a, bytes') => (f a).run.run bytes'
      | (.error e, bytes') => (.error e, bytes') := by
  show StateT.run (ExceptT.run p >>= ExceptT.bindCont f) bytes = _
  rw [StateT.run_bind]
  show (let r := p.run.run bytes; StateT.run (ExceptT.bindCont f r.1) r.2) = _
  rcases p.run.run bytes with ⟨r, bytes'⟩
  cases r <;> rfl

theorem run_orError {ε α : Type} (e : ProgramError) (r : Except ε α) (bytes : KeyAccount) :
    (orError e r).run.run bytes = match r with
      | .ok a => (.ok a, bytes)
      | .error _ => (.error e, bytes) := by
  cases r <;> rfl

theorem run_get (bytes : KeyAccount) :
    (get : Instruction KeyAccount).run.run bytes = (.ok bytes, bytes) := rfl

theorem run_create (isSigner : Bool) (tag : UInt8) (data : Bytes) (bytes : KeyAccount) :
    (create isSigner tag data).run.run bytes =
      if isSigner = false then (.error .missingRequiredSignature, bytes)
      else match VerifyingKey.fromSlice data with
        | .error _ => (.error .invalidInstructionData, bytes)
        | .ok key =>
          if bytes.get 0 ≠ 0 then (.error .accountAlreadyInitialized, bytes)
          else (.ok (), register bytes tag key) := by
  unfold create
  cases isSigner with
  | false => rfl
  | true =>
    show (orError _ (VerifyingKey.fromSlice data) >>= _).run.run bytes = _
    rw [run_bind, run_orError]
    cases VerifyingKey.fromSlice data with
    | error e => rfl
    | ok key =>
      by_cases h : bytes.get 0 ≠ 0
      · show (ite _ _ _ : Instruction Unit).run.run bytes = _
        rw [if_pos h]
        simp only [if_pos h]
        rfl
      · show (ite _ _ _ : Instruction Unit).run.run bytes = _
        rw [if_neg h]
        simp only [if_neg h]
        rfl

theorem run_create_of_ne (isSigner : Bool) (tag : UInt8) (data : Bytes) {bytes : KeyAccount}
    (h : bytes.get 0 ≠ 0) :
    ∃ err, (create isSigner tag data).run.run bytes = (.error err, bytes) := by
  rw [run_create]
  split
  · exact ⟨_, rfl⟩
  · split
    · exact ⟨_, rfl⟩
    · exact ⟨_, rfl⟩

theorem run_markUsed (leaf : Nat) (result : Except Error Unit) (bytes : KeyAccount) :
    (markUsed leaf result).run.run bytes =
      match result with
      | .error _ => (.error (.custom 1), bytes)
      | .ok () =>
        if marked bytes leaf = true then (.error (.custom 2), bytes)
        else (.ok (), mark bytes leaf) := by
  unfold markUsed
  rw [run_bind, run_orError]
  cases result with
  | error e => rfl
  | ok u =>
    show (ite (bytes.toList.getD (keyEnd + leaf / 8) 0 &&& 1 <<< UInt8.ofNat (leaf % 8) ≠ 0) _ _
      : Instruction Unit).run.run bytes = _
    have hmask := and_mask_ne_zero (bytes.toList.getD (keyEnd + leaf / 8) 0)
      (Nat.mod_lt leaf (by decide : 0 < 8))
    by_cases h : marked bytes leaf = true
    · rw [if_pos (hmask.mpr h)]
      simp only [if_pos h]
      rfl
    · rw [if_neg (mt hmask.mp h)]
      simp only [if_neg h]
      rfl

/-- The decoder of the signatures of an instance. -/
def signatureFromSlice : (k : Instance) → Bytes → Except Error (OneTime.Signature k.SecretKey)
  | .winternitz => Winternitz.Signature.fromSlice
  | .xmss => Xmss.Signature.fromSlice

theorem signatureFromSlice_eq_ok {k : Instance} {bs : Bytes} {sig : OneTime.Signature k.SecretKey} :
    signatureFromSlice k bs = .ok sig ↔ bs = SealedSignature.asBytes sig := by
  cases k with
  | winternitz => exact Winternitz.Signature.fromSlice_eq_ok
  | xmss => exact Xmss.Signature.fromSlice_eq_ok

theorem tagOf_ne (k : Instance) : tagOf k + 1 ≠ 0 := by
  cases k <;> decide

theorem leaves_le (k : Instance) : (OneTime.leaves k.SecretKey).toNat ≤ 256 := by
  cases k <;> decide

section Verify

variable [Keccak]

theorem run_verify {bytes : KeyAccount} {k : Instance} {key : VerifyingKey}
    {used : Finset (Fin 256)} (h : Represents bytes (.registered k key used)) (data : Bytes) :
    (verify data).run.run bytes =
      if data.length < messageLen then (.error .invalidInstructionData, bytes)
      else match signatureFromSlice k (data.drop messageLen) with
        | .error _ => (.error .invalidInstructionData, bytes)
        | .ok sig => (markUsed (SealedSignature.leaf sig).toNat
            ((key.verify (fit messageLen data) sig).eval keccak256)).run.run bytes := by
  have hget := get_zero_of_represents h
  have hslice := slice_of_represents h
  unfold verify
  by_cases hlen : data.length < messageLen
  · rw [if_pos hlen, if_pos hlen]
    rfl
  · rw [if_neg hlen, if_neg hlen]
    show (get >>= _ : Instruction Unit).run.run bytes = _
    rw [run_bind, run_get]
    simp only []
    rw [run_bind, run_orError, hslice, VerifyingKey.fromSlice_eq_ok.mpr rfl]
    show (ite (bytes.get 0 = 0) _ (ite (bytes.get 0 = 1) _ (ite (bytes.get 0 = 2) _ _))
      : Instruction Unit).run.run bytes = _
    rw [hget]
    cases k with
    | winternitz =>
      rw [if_neg (by decide), if_pos (by decide), run_bind, run_orError]
      cases hsig : Winternitz.Signature.fromSlice (data.drop messageLen) with
      | error e =>
        have hdec : signatureFromSlice .winternitz (data.drop messageLen) = .error e := hsig
        rw [hdec]
      | ok sig =>
        have hdec : signatureFromSlice .winternitz (data.drop messageLen) = .ok sig := hsig
        rw [hdec]
        rfl
    | xmss =>
      rw [if_neg (by decide), if_neg (by decide), if_pos (by decide), run_bind, run_orError]
      cases hsig : Xmss.Signature.fromSlice (data.drop messageLen) with
      | error e =>
        have hdec : signatureFromSlice .xmss (data.drop messageLen) = .error e := hsig
        rw [hdec]
      | ok sig =>
        have hdec : signatureFromSlice .xmss (data.drop messageLen) = .ok sig := hsig
        rw [hdec]
        rfl

theorem run_verify_of_zero (data : Bytes) {bytes : KeyAccount} (h : bytes.get 0 = 0) :
    ∃ err, (let r := (verify data).run.run bytes; (r.1, r.2.toList))
      = (.error err, bytes.toList) := by
  unfold verify
  by_cases hlen : data.length < messageLen
  · rw [if_pos hlen]
    exact ⟨_, rfl⟩
  · rw [if_neg hlen]
    show ∃ err, (let r := (get >>= _ : Instruction Unit).run.run bytes; (r.1, r.2.toList)) = _
    rw [run_bind, run_get]
    simp only []
    rw [run_bind, run_orError, VerifyingKey.fromSlice_eq_ok.mpr rfl]
    show ∃ err, (let r := (ite (bytes.get 0 = 0) _ _ : Instruction Unit).run.run bytes
      (r.1, r.2.toList)) = _
    rw [if_pos h]
    exact ⟨_, rfl⟩

/-- An accepted signature names a leaf of its instance. -/
theorem leaf_lt_of_verify {k : Instance} {key : VerifyingKey} {digest : Message}
    {sig : OneTime.Signature k.SecretKey} (h : (key.verify digest sig).eval keccak256 = .ok ()) :
    (SealedSignature.leaf sig).toNat < (OneTime.leaves k.SecretKey).toNat := by
  cases k with
  | winternitz => exact Nat.zero_lt_one
  | xmss => exact Xmss.leaf_lt_of_verify h

/-! ## One call -/

/-- The result of a call on an account of the program, and the account data after it. -/
def execute (id : Pubkey) (bytes : Bytes) (c : Call) : Except ProgramError Unit × Bytes :=
  let r := processInstruction id (⟨id, c.isSigner, c.isWritable, bytes⟩ :: c.others) c.data
  (r.1, (r.2.head?.map AccountInfo.data).getD [])

theorem execute_toList (id : Pubkey) (bytes : KeyAccount) (c : Call) :
    execute id bytes.toList c =
      if c.isWritable = true then
        match c.data with
        | [] => (.error .invalidInstructionData, bytes.toList)
        | tag :: data =>
          let r := (dispatch c.isSigner tag data).run.run bytes
          (r.1, r.2.toList)
      else (.error .invalidAccountData, bytes.toList) := by
  have hlen : bytes.toList.length = keyAccountLen := List.Vector.toList_length bytes
  unfold execute processInstruction
  by_cases hw : c.isWritable = true
  · rw [if_pos hw]
    simp only [ne_eq, not_true, if_false, hw, hlen, and_self, dite_true]
    cases c.data with
    | nil => rfl
    | cons tag data =>
      rw [mk_toList bytes hlen]
      rfl
  · rw [if_neg hw]
    simp only [ne_eq, not_true, if_false, hw]
    rfl

/-- What a call may return: it takes a step of the ledger, or it is rejected and writes nothing. -/
def Refines (bytes : KeyAccount) (a : Ledger) (c : Call) (r : Except ProgramError Unit × Bytes) :
    Prop :=
  (∃ e a' bytes', a.Step c e a' ∧ e ≠ .rejected ∧ Represents bytes' a' ∧
      r = (.ok (), bytes'.toList)) ∨
    (a.Step c .rejected a ∧ ∃ err, r = (.error err, bytes.toList))

/-- A call that carries a digest and a signature, on a registered account. -/
theorem execute_verify (id : Pubkey) {bytes : KeyAccount} {k : Instance} {key : VerifyingKey}
    {used : Finset (Fin 256)} (h : Represents bytes (.registered k key used)) {c : Call}
    (hw : c.isWritable = true) {digest : Message} {sig : OneTime.Signature k.SecretKey}
    (hdata : c.data = 2 :: (digest.toList ++ SealedSignature.asBytes sig)) :
    execute id bytes.toList c =
      match (key.verify digest sig).eval keccak256 with
      | .error _ => (.error (.custom 1), bytes.toList)
      | .ok () =>
        if marked bytes (SealedSignature.leaf sig).toNat = true then
          (.error (.custom 2), bytes.toList)
        else (.ok (), (mark bytes (SealedSignature.leaf sig).toNat).toList) := by
  have hlen : ¬ (digest.toList ++ SealedSignature.asBytes sig).length < messageLen := by simp
  have hdrop : (digest.toList ++ SealedSignature.asBytes sig).drop messageLen
      = SealedSignature.asBytes sig := List.drop_left' (by simp)
  rw [execute_toList, if_pos hw, hdata]
  show (let r := (verify (digest.toList ++ SealedSignature.asBytes sig)).run.run bytes
    (r.1, r.2.toList)) = _
  rw [run_verify h, if_neg hlen, hdrop, signatureFromSlice_eq_ok.mpr rfl]
  simp only [fit_append, run_markUsed]
  cases (key.verify digest sig).eval keccak256 with
  | error e => rfl
  | ok u =>
    by_cases hm : marked bytes (SealedSignature.leaf sig).toNat = true
    · simp only [if_pos hm]
    · simp only [if_neg hm]

/-- Data that carries no digest and signature of the instance. -/
theorem execute_verify_malformed (id : Pubkey) {bytes : KeyAccount} {k : Instance}
    {key : VerifyingKey} {used : Finset (Fin 256)}
    (h : Represents bytes (.registered k key used)) {c : Call} (hw : c.isWritable = true)
    {data : Bytes} (hdata : c.data = 2 :: data)
    (hno : ∀ (digest : Message) (sig : OneTime.Signature k.SecretKey),
      data ≠ digest.toList ++ SealedSignature.asBytes sig) :
    ∃ err, execute id bytes.toList c = (.error err, bytes.toList) := by
  rw [execute_toList, if_pos hw, hdata]
  show ∃ err, (let r := (verify data).run.run bytes; (r.1, r.2.toList)) = _
  rw [run_verify h]
  by_cases hlen : data.length < messageLen
  · rw [if_pos hlen]
    exact ⟨_, rfl⟩
  · rw [if_neg hlen]
    cases hsig : signatureFromSlice k (data.drop messageLen) with
    | error e => exact ⟨_, rfl⟩
    | ok sig =>
      refine absurd ?_ (hno (fit messageLen data) sig)
      rw [← signatureFromSlice_eq_ok.mp hsig, fit_toList (by omega), List.take_append_drop]

/-- A call that is neither a verify nor an accepted create. -/
theorem execute_other (id : Pubkey) {bytes : KeyAccount} {c : Call} (hw : c.isWritable = true)
    {tag : UInt8} {data : Bytes} (hdata : c.data = tag :: data) (htag : tag ≠ 2)
    (hcreate : tag = 0 ∨ tag = 1 →
      ∃ err, (create c.isSigner tag data).run.run bytes = (.error err, bytes)) :
    ∃ err, execute id bytes.toList c = (.error err, bytes.toList) := by
  rw [execute_toList, if_pos hw, hdata]
  show ∃ err, (let r := (dispatch c.isSigner tag data).run.run bytes; (r.1, r.2.toList)) = _
  unfold dispatch
  by_cases h : tag = 0 ∨ tag = 1
  · obtain ⟨err, he⟩ := hcreate h
    rw [if_pos h, he]
    exact ⟨err, rfl⟩
  · rw [if_neg h, if_neg htag]
    exact ⟨_, rfl⟩

/-- **One call is one step of the ledger**, on a registered account. -/
theorem refines_registered (id : Pubkey) {bytes : KeyAccount} {k : Instance} {key : VerifyingKey}
    {used : Finset (Fin 256)} (h : Represents bytes (.registered k key used)) (c : Call) :
    Refines bytes (.registered k key used) c (execute id bytes.toList c) := by
  by_cases hv : c.isWritable = true ∧ ∃ (digest : Message) (sig : OneTime.Signature k.SecretKey),
      c.data = 2 :: (digest.toList ++ SealedSignature.asBytes sig)
  · obtain ⟨hw, digest, sig, hdata⟩ := hv
    have hunique : ∀ leaf, c.Verifies k key leaf →
        (key.verify digest sig).eval keccak256 = .ok () ∧
          (SealedSignature.leaf sig).toNat = leaf := by
      rintro leaf ⟨-, digest', sig', hdata', hverify, hleaf⟩
      obtain ⟨hd, hs⟩ := toList_append_inj (List.cons.inj (hdata.symm.trans hdata')).2
      obtain rfl : sig = sig' := Except.ok.inj
        ((signatureFromSlice_eq_ok.mpr rfl).symm.trans (signatureFromSlice_eq_ok.mpr hs))
      exact ⟨hd ▸ hverify, hleaf⟩
    rw [execute_verify id h hw hdata]
    cases hr : (key.verify digest sig).eval keccak256 with
    | error e =>
      refine Or.inr ⟨.rejectVerify fun leaf hl => ?_, _, rfl⟩
      have hok := (hunique leaf hl).1
      rw [hr] at hok
      cases hok
    | ok u =>
      have hlt : (SealedSignature.leaf sig).toNat < 256 :=
        lt_of_lt_of_le (leaf_lt_of_verify hr) (leaves_le k)
      have hmem := h.2 ⟨(SealedSignature.leaf sig).toNat, hlt⟩
      by_cases hm : marked bytes (SealedSignature.leaf sig).toNat = true
      · simp only [if_pos hm]
        refine Or.inr ⟨.rejectVerify fun leaf hl => ?_, _, rfl⟩
        obtain rfl : ⟨_, hlt⟩ = leaf := Fin.ext (hunique leaf hl).2
        exact hmem.mpr hm
      · simp only [if_neg hm]
        exact Or.inl ⟨_, _, _, .verify ⟨hw, digest, sig, hdata, hr, rfl⟩ (mt hmem.mp hm), by simp,
          represents_mark h ⟨_, hlt⟩, rfl⟩
  · have hno : ∀ leaf, ¬ c.Verifies k key leaf := fun leaf hl =>
      hv ⟨hl.1, hl.2.choose, hl.2.choose_spec.choose, hl.2.choose_spec.choose_spec.1⟩
    refine Or.inr ⟨.rejectVerify fun leaf hl => absurd hl (hno leaf), ?_⟩
    by_cases hw : c.isWritable = true
    · cases hdata : c.data with
      | nil =>
        rw [execute_toList, if_pos hw, hdata]
        exact ⟨_, rfl⟩
      | cons tag data =>
        by_cases htag : tag = 2
        · subst htag
          exact execute_verify_malformed id h hw hdata fun digest sig hd =>
            hv ⟨hw, digest, sig, by rw [hdata, hd]⟩
        · exact execute_other id hw hdata htag fun _ =>
            run_create_of_ne c.isSigner tag data
              (by rw [get_zero_of_represents h]; exact tagOf_ne k)
    · rw [execute_toList, if_neg hw]
      exact ⟨_, rfl⟩

/-- **One call is one step of the ledger**, on an uninitialised account. -/
theorem refines_uninitialised (id : Pubkey) {bytes : KeyAccount} (h : bytes.get 0 = 0) (c : Call) :
    Refines bytes .uninitialised c (execute id bytes.toList c) := by
  by_cases hr : ∃ k key, c.Registers k key
  · obtain ⟨k, key, hw, hs, hdata⟩ := hr
    refine Or.inl ⟨_, _, register bytes (tagOf k) key, .create ⟨hw, hs, hdata⟩, by simp,
      represents_register bytes k key, ?_⟩
    rw [execute_toList, if_pos hw, hdata]
    have htag : tagOf k = 0 ∨ tagOf k = 1 := by cases k <;> decide
    show (let r := (dispatch c.isSigner (tagOf k) key.bytes.toList).run.run bytes
      (r.1, r.2.toList)) = _
    unfold dispatch
    rw [if_pos htag, run_create, hs, VerifyingKey.fromSlice_eq_ok.mpr rfl]
    simp [h]
  · refine Or.inr ⟨.rejectCreate fun k key hk => hr ⟨k, key, hk⟩, ?_⟩
    by_cases hw : c.isWritable = true
    · cases hdata : c.data with
      | nil =>
        rw [execute_toList, if_pos hw, hdata]
        exact ⟨_, rfl⟩
      | cons tag data =>
        by_cases htag : tag = 2
        · subst htag
          rw [execute_toList, if_pos hw, hdata]
          exact run_verify_of_zero data h
        · refine execute_other id hw hdata htag fun hcreate => ?_
          rw [run_create]
          split
          · exact ⟨_, rfl⟩
          · next hs =>
            cases hkey : VerifyingKey.fromSlice data with
            | error e => exact ⟨_, rfl⟩
            | ok key =>
              refine absurd ?_ hr
              have hbytes := VerifyingKey.fromSlice_eq_ok.mp hkey
              rcases hcreate with rfl | rfl
              · exact ⟨.winternitz, key, hw, eq_true_of_ne_false hs, by rw [hdata, hbytes]; rfl⟩
              · exact ⟨.xmss, key, hw, eq_true_of_ne_false hs, by rw [hdata, hbytes]; rfl⟩
    · rw [execute_toList, if_neg hw]
      exact ⟨_, rfl⟩

/-! ## Runs -/

/-- Calls one after the other: their results, and the account data after them. -/
def executeAll (id : Pubkey) (bytes : Bytes) :
    List Call → List (Except ProgramError Unit) × Bytes
  | [] => ([], bytes)
  | c :: cs =>
    let r := execute id bytes c
    let rs := executeAll id r.2 cs
    (r.1 :: rs.1, rs.2)

/-- **One call is one step of the ledger.** -/
theorem call_refines (id : Pubkey) {bytes : KeyAccount} {a : Ledger} (h : Represents bytes a)
    (c : Call) : Refines bytes a c (execute id bytes.toList c) := by
  cases a with
  | uninitialised => exact refines_uninitialised id h c
  | registered k key used => exact refines_registered id h c

/-- Whether a call succeeded. -/
def Effect.succeeds : Effect → Bool
  | .rejected => false
  | _ => true

/-- **A run of calls is a run of the ledger.** -/
theorem calls_refine (id : Pubkey) : ∀ (cs : List Call) {bytes : KeyAccount} {a : Ledger},
    Represents bytes a →
    ∃ es a' bytes', Ledger.Run a cs es a' ∧ Represents bytes' a' ∧
      (executeAll id bytes.toList cs).2 = bytes'.toList ∧
      (executeAll id bytes.toList cs).1.map Except.isOk = es.map Effect.succeeds
  | [], bytes, a, h => ⟨[], a, bytes, .nil a, h, rfl, rfl⟩
  | c :: cs, bytes, a, h => by
    rcases call_refines id h c with ⟨e, b, bytes', hstep, he, hb, hr⟩ | ⟨hstep, err, hr⟩
    · obtain ⟨es, a', final, hrun, ha', hfinal, hok⟩ := calls_refine id cs hb
      refine ⟨e :: es, a', final, .cons hstep hrun, ha', ?_, ?_⟩
      · rw [executeAll, hr]
        exact hfinal
      · rw [executeAll, hr, List.map_cons, List.map_cons, hok]
        cases e with
        | rejected => exact absurd rfl he
        | created k key => rfl
        | accepted leaf => rfl
    · obtain ⟨es, a', final, hrun, ha', hfinal, hok⟩ := calls_refine id cs h
      refine ⟨.rejected :: es, a', final, .cons hstep hrun, ha', ?_, ?_⟩
      · rw [executeAll, hr]
        exact hfinal
      · rw [executeAll, hr, List.map_cons, List.map_cons, hok]
        rfl

theorem executeAll_append (id : Pubkey) : ∀ (cs ds : List Call) (bytes : Bytes),
    (executeAll id bytes (cs ++ ds)).2 = (executeAll id (executeAll id bytes cs).2 ds).2
  | [], _, _ => rfl
  | _ :: cs, ds, _ => executeAll_append id cs ds _

/-! ### What a run of the ledger keeps -/

/-- What one step does to the used leaves. -/
theorem Ledger.Step.used {a b : Ledger} {c : Call} {e : Effect} (h : a.Step c e b) :
    a.Extends b ∧ (a.InRange → b.InRange) ∧
      match e with
      | .accepted leaf => leaf ∉ a.used ∧ b.used = insert leaf a.used
      | _ => b.used = a.used := by
  cases h with
  | create h => exact ⟨trivial, fun _ leaf hl => by simp at hl, rfl⟩
  | verify h hleaf =>
    refine ⟨⟨rfl, rfl, Finset.subset_insert _ _⟩, fun hr leaf hl => ?_, hleaf, rfl⟩
    rcases Finset.mem_insert.mp hl with rfl | hl
    · obtain ⟨-, _, sig, -, hverify, hsig⟩ := h
      exact hsig ▸ leaf_lt_of_verify hverify
    · exact hr leaf hl
  | rejectCreate h => exact ⟨trivial, id, rfl⟩
  | rejectVerify h => exact ⟨.refl _, id, rfl⟩

/-- **A leaf is accepted at most once**, and the used leaves are the accepted ones. -/
theorem Ledger.Run.used {a b : Ledger} {cs : List Call} {es : List Effect} (h : a.Run cs es b) :
    a.Extends b ∧ (a.InRange → b.InRange) ∧ b.used = a.used ∪ (acceptedLeaves es).toFinset ∧
      (acceptedLeaves es).Nodup ∧ ∀ leaf ∈ acceptedLeaves es, leaf ∉ a.used := by
  induction h with
  | nil a => exact ⟨.refl a, id, by simp [acceptedLeaves], List.nodup_nil, by simp [acceptedLeaves]⟩
  | @cons a b d c e cs es hstep hrun ih =>
    obtain ⟨hext, hrange, hused, hnodup, hnew⟩ := ih
    obtain ⟨hext', hrange', he⟩ := hstep.used
    refine ⟨hext'.trans hext, fun hr => hrange (hrange' hr), ?_⟩
    cases e with
    | accepted leaf =>
      obtain ⟨hleaf, hb⟩ := he
      rw [hb] at hused hnew
      refine ⟨?_, ?_, ?_⟩
      · rw [hused, acceptedLeaves, List.toFinset_cons, Finset.insert_union, Finset.union_insert]
      · exact List.nodup_cons.mpr ⟨fun hmem => hnew leaf hmem (Finset.mem_insert_self _ _), hnodup⟩
      · intro l hl
        rcases List.mem_cons.mp hl with rfl | hl
        · exact hleaf
        · exact fun hmem => hnew l hl (Finset.mem_insert_of_mem hmem)
    | created k key =>
      rw [he] at hused hnew
      exact ⟨hused, hnodup, hnew⟩
    | rejected =>
      rw [he] at hused hnew
      exact ⟨hused, hnodup, hnew⟩

/--
**The program refines a used-leaf set.** From any account data whose first byte is zero, after any
calls: the account stands for a ledger that these calls lead to; the calls that succeed are those
that take a step of it; the used leaves are the accepted ones, none of them twice and all of them
leaves of the instance; and every further call takes a step or leaves all bytes unchanged, and keeps
the instance, the key and the used leaves.
-/
theorem program_refines_ledger (id : Pubkey) (bytes : KeyAccount) (h0 : bytes.get 0 = 0)
    (cs : List Call) :
    ∃ es a final, (executeAll id bytes.toList cs).2 = final.toList ∧
      Ledger.Run .uninitialised cs es a ∧ Represents final a ∧
      (executeAll id bytes.toList cs).1.map Except.isOk = es.map Effect.succeeds ∧
      a.used = (acceptedLeaves es).toFinset ∧ (acceptedLeaves es).Nodup ∧ a.InRange ∧
      (∀ c, Refines final a c (execute id final.toList c)) ∧
      ∀ ds, ∃ a' final', (executeAll id bytes.toList (cs ++ ds)).2 = final'.toList ∧
        Represents final' a' ∧ a.Extends a' := by
  obtain ⟨es, a, final, hrun, ha, hfinal, hok⟩ := calls_refine id cs
    (show Represents bytes .uninitialised from h0)
  obtain ⟨-, hrange, hused, hnodup, -⟩ := hrun.used
  refine ⟨es, a, final, hfinal, hrun, ha, hok, ?_, hnodup, hrange trivial, call_refines id ha, ?_⟩
  · rw [hused]
    exact Finset.empty_union _
  · intro ds
    obtain ⟨es', a', final', hrun', ha', hfinal', -⟩ := calls_refine id ds ha
    refine ⟨a', final', ?_, ha', hrun'.used.1⟩
    rw [executeAll_append, hfinal, hfinal']

end Verify

/-- The first byte is zero, the others are not. -/
def dirtyAccount : KeyAccount := copyInto (List.Vector.replicate _ 0xab) 0 [0]

/-- A key that accepts every signature under a constant hash. -/
def constantKey : VerifyingKey :=
  letI := constantHash
  .new (fit elementLength (keccak256 []).toList) (zeros _)

/-- Register a key, send a signature twice, and register the key again. -/
def fourCalls : List Call :=
  let signature := List.replicate (messageLen + Winternitz.signatureLen) 0
  [⟨true, true, 0 :: constantKey.bytes.toList, []⟩, ⟨false, true, 2 :: signature, []⟩,
    ⟨false, true, 2 :: signature, []⟩, ⟨true, true, 0 :: constantKey.bytes.toList, []⟩]

theorem program_refines_ledger_fourCalls :
    letI := constantHash
    (executeAll (zeros 32) dirtyAccount.toList fourCalls).1 = [.ok (), .ok (), .error (.custom 2),
      .error .accountAlreadyInitialized] ∧
    ∃ es a final, (executeAll (zeros 32) dirtyAccount.toList fourCalls).2 = final.toList ∧
      Ledger.Run .uninitialised fourCalls es a ∧ Represents final a ∧
      es.map Effect.succeeds = [true, true, false, false] ∧
      a.used = (acceptedLeaves es).toFinset := by
  let _ := constantHash
  have hresults : (executeAll (zeros 32) dirtyAccount.toList fourCalls).1 = [.ok (), .ok (),
      .error (.custom 2), .error .accountAlreadyInitialized] := by decide +kernel
  obtain ⟨es, a, final, hfinal, hrun, ha, hok, hused, -⟩ :=
    program_refines_ledger (zeros 32) dirtyAccount (by decide +kernel) fourCalls
  rw [hresults] at hok
  exact ⟨hresults, es, a, final, hfinal, hrun, ha, hok.symm, hused⟩

end SolanaWinternitz.Program
