import SolanaWinternitz.Properties.SignVerify
import SolanaWinternitz.Signer

/-!
# The record in a key file

`decode` is what `open` makes of the bytes of a file, and `SigningKey.encoded` is what
`write_record` writes.

* `Record.Valid` — the invariant of a record: the last leaf it spent accepts the recorded salt
* `valid_of_decode` — every file that `open` accepts holds a valid record
* `decode_encoded` — **what a signer with a valid record writes is read back**
-/

namespace SolanaWinternitz

open Infra Infra.Os

theorem u32_toNat_pred {u : UInt32} (h : u ≠ 0) : (u - 1).toNat = u.toNat - 1 := by
  have h0 : u.toNat ≠ 0 := fun h0 => h (UInt32.toNat_inj.mp h0)
  rw [UInt32.toNat_sub_of_le _ _ (UInt32.le_iff_toNat_le.mpr (by show 1 ≤ _; omega))]
  rfl

theorem u32_toNat_succ {u v : UInt32} (h : u < v) : (u + 1).toNat = u.toNat + 1 := by
  have hlt := UInt32.lt_iff_toNat_lt.mp h
  have hbound := v.toNat_lt
  rw [UInt32.toNat_add]
  show (u.toNat + 1) % 2 ^ 32 = _
  omega

/-- What a key file records. -/
structure Record (K : Type) where
  key : K
  nextLeaf : UInt32
  lastMessage : Option Message
  lastSalt : Salt

section

variable [Keccak] {K : Type} [OneTime K]

/-- The parameter of a key. -/
def parameterOf (key : K) : Parameter := ((OneTime.verifyingKey key).eval keccak256).parameter

structure Record.Valid (r : Record K) : Prop where
  built : ∃ secrets parameter, Builds secrets parameter r.key
  nextLeaf_le : r.nextLeaf ≤ OneTime.leaves K
  spent : ∀ m, r.lastMessage = some m → r.nextLeaf ≠ 0 ∧
    ((encode r.lastSalt (parameterOf r.key) (r.nextLeaf - 1) m).eval keccak256).isSome
  empty : r.lastMessage = none → r.lastSalt = zeros _

def SigningKey.record (self : SigningKey K) : Record K :=
  ⟨self.key, self.nextLeaf, self.lastMessage, self.lastSalt⟩

/-- The bytes of a key file. -/
def SigningKey.encoded (self : SigningKey K) : Bytes :=
  self.header.toList ++ OneTime.secrets self.key

/-- The record that `open` finds in the bytes of a file. -/
def decode (K : Type) [OneTime K] (bytes : Bytes) : Option (Record K) :=
  if bytes.length ≠ Layout.secrets + SigningKey.secretsLen K then none
  else
    let header : Header := slice bytes 0 Layout.secrets
    if header.rejected (OneTime.height K) (OneTime.leaves K) then none
    else
      match (OneTime.fromSecrets (slice bytes Layout.secrets (SigningKey.secretsLen K)).toList
        header.parameter).eval keccak256 with
      | .error _ => none
      | .ok key => some ⟨key, header.nextLeaf, header.lastMessage, header.lastSalt⟩

end

/-! ## Fields of the header -/

namespace Header

variable {header : Header} {v ht fl : UInt8} {p : Parameter} {next : UInt32} {message : Message}
  {salt : Salt}

/-- The header is the concatenation of these fields. -/
def Holds (header : Header) (v ht : UInt8) (p : Parameter) (next : UInt32) (fl : UInt8)
    (message : Message) (salt : Salt) : Prop :=
  header.toList = [v, ht] ++ (p.toList ++ ((u32Be next).toList ++
    ([fl] ++ (message.toList ++ salt.toList))))

theorem Holds.parameter (h : header.Holds v ht p next fl message salt) : header.parameter = p := by
  unfold Header.parameter
  rw [h]
  exact slice_append rfl p _

theorem Holds.nextLeaf (h : header.Holds v ht p next fl message salt) : header.nextLeaf = next := by
  have hpre : ([v, ht] ++ p.toList).length = Layout.nextLeaf := by
    rw [List.length_append, List.Vector.toList_length]
    rfl
  unfold Header.nextLeaf
  rw [h, ← List.append_assoc, slice_append hpre, u32OfBe_u32Be]

/-- The header up to the message flag. -/
theorem Holds.split (h : header.Holds v ht p next fl message salt) :
    ∃ pre : Bytes, pre.length = Layout.message ∧ pre[0]? = some v ∧ pre[1]? = some ht ∧
      pre[Layout.hasMessage]? = some fl ∧
      header.toList = pre ++ (message.toList ++ salt.toList) := by
  have hlen : ([v, ht] ++ (p.toList ++ (u32Be next).toList)).length = Layout.hasMessage := by
    rw [List.length_append, List.length_append, List.Vector.toList_length,
      List.Vector.toList_length]
    rfl
  refine ⟨[v, ht] ++ (p.toList ++ (u32Be next).toList) ++ [fl], ?_, rfl, rfl, ?_, by rw [h]; simp⟩
  · rw [List.length_append, hlen]
    rfl
  · rw [List.getElem?_append_right (Nat.le_of_eq hlen), hlen]
    rfl

theorem get_of_split {pre post : Bytes} {i : Nat} {b : UInt8} (hi : i < Layout.secrets)
    (h : header.toList = pre ++ post) (hb : pre[i]? = some b) : header.get ⟨i, hi⟩ = b := by
  obtain ⟨hlt, -⟩ := List.getElem?_eq_some_iff.mp hb
  have hget := getElem?_toList header ⟨i, hi⟩
  rw [h, List.getElem?_append_left hlt, hb] at hget
  exact (Option.some.inj hget).symm

theorem Holds.version (h : header.Holds v ht p next fl message salt) :
    header.get ⟨0, by decide⟩ = v := by
  obtain ⟨pre, -, hv, -, -, hs⟩ := h.split
  exact get_of_split _ hs hv

theorem Holds.height (h : header.Holds v ht p next fl message salt) :
    header.get ⟨1, by decide⟩ = ht := by
  obtain ⟨pre, -, -, hh, -, hs⟩ := h.split
  exact get_of_split _ hs hh

theorem Holds.flag (h : header.Holds v ht p next fl message salt) : header.flag = fl := by
  obtain ⟨pre, -, -, -, hf, hs⟩ := h.split
  exact get_of_split _ hs hf

theorem Holds.lastMessage (h : header.Holds v ht p next fl message salt) :
    header.lastMessage = if fl = 1 then some message else none := by
  obtain ⟨pre, hlen, -, -, -, hs⟩ := h.split
  unfold Header.lastMessage
  rw [h.flag, hs, slice_append hlen]

theorem Holds.lastSalt (h : header.Holds v ht p next fl message salt) : header.lastSalt = salt := by
  obtain ⟨pre, hlen, -, -, -, hs⟩ := h.split
  unfold Header.lastSalt
  rw [hs, ← List.append_assoc]
  exact slice_append_last (by rw [List.length_append, hlen, List.Vector.toList_length]) salt

theorem Holds.drop (h : header.Holds v ht p next fl message salt) :
    header.toList.drop Layout.message = message.toList ++ salt.toList := by
  obtain ⟨pre, hlen, -, -, -, hs⟩ := h.split
  rw [hs, List.drop_left' hlen]

/-- A header without a message has a salt of zeros. -/
theorem lastSalt_of_zeros (h : (header.toList.drop Layout.message).any (· != 0) = false) :
    header.lastSalt = zeros _ := by
  have hall : ∀ b ∈ header.lastSalt.toList, b = 0 := by
    intro b hb
    unfold Header.lastSalt at hb
    rw [slice_toList (by simp)] at hb
    have hdrop : b ∈ header.toList.drop Layout.message := by
      rw [show Layout.salt = Layout.message + messageLen from rfl, ← List.drop_drop] at hb
      exact List.mem_of_mem_drop (List.mem_of_mem_take hb)
    simpa using List.any_eq_false.mp h b hdrop
  refine List.Vector.eq _ _ ?_
  rw [zeros_toList]
  exact List.eq_replicate_iff.mpr ⟨List.Vector.toList_length _, hall⟩

end Header

variable [Keccak] {K : Type} [OneTime K]

theorem Header.rejected_eq_false {header : Header} {height : UInt8} {leaves : UInt32} :
    header.rejected height leaves = false ↔
      header.get ⟨0, by decide⟩ = Layout.version ∧ header.get ⟨1, by decide⟩ = height ∧
      header.flag ≤ 1 ∧ header.nextLeaf ≤ leaves ∧
      (∀ m, header.lastMessage = some m → header.nextLeaf ≠ 0 ∧
        ((encode header.lastSalt header.parameter (header.nextLeaf - 1) m).eval keccak256).isSome) ∧
      (header.lastMessage = none → (header.toList.drop Layout.message).any (· != 0) = false) := by
  unfold Header.rejected
  cases hm : header.lastMessage with
  | none => simp [and_assoc]
  | some m => simp [and_assoc, Option.isSome_iff_ne_none]

/-! ## Reading a file -/

/-- **Every file that `open` accepts holds a valid record.** -/
theorem valid_of_decode {bytes : Bytes} {r : Record K} (h : decode K bytes = some r)
    [LawfulOneTime K] : r.Valid := by
  unfold decode at h
  split at h
  · cases h
  · dsimp only at h
    split at h
    · cases h
    · next hrej =>
      cases hkey : (OneTime.fromSecrets (K := K)
        (slice bytes Layout.secrets (SigningKey.secretsLen K)).toList
        (Header.parameter (slice bytes 0 Layout.secrets))).eval keccak256 with
      | error e =>
        rw [hkey] at h
        cases h
      | ok key =>
        rw [hkey] at h
        cases h
        obtain ⟨-, -, -, hle, hspent, hempty⟩ :=
          Header.rejected_eq_false.mp (Bool.eq_false_iff.mpr hrej)
        obtain ⟨-, -, hparameter⟩ := LawfulOneTime.of_builds hkey
        refine ⟨⟨_, _, hkey⟩, hle, fun m hm => ?_, fun hm => Header.lastSalt_of_zeros (hempty hm)⟩
        show _ ∧ ((encode _ (parameterOf key) _ m).eval keccak256).isSome = true
        unfold parameterOf
        rw [hparameter]
        exact hspent m hm

namespace SigningKey

/-- The header that a signer writes. -/
theorem holds_header (self : SigningKey K) : self.header.Holds Layout.version (OneTime.height K)
    (parameterOf self.key) self.nextLeaf (if self.lastMessage.isSome then 1 else 0)
    (self.lastMessage.getD (zeros _))
    (if self.lastMessage.isSome then self.lastSalt else zeros _) := by
  let v : Header := copyInto (zeros _) 0 [Layout.version]
  let ht := copyInto v 1 [OneTime.height K]
  let p := copyInto ht Layout.parameter (parameterOf self.key).toList
  let next := copyInto p Layout.nextLeaf (u32Be self.nextLeaf).toList
  have h1 : v.toList = [] ++ ([Layout.version] ++ ([0] ++ (List.replicate parameterLen 0 ++
      (List.replicate 4 0 ++ ([0] ++ (List.replicate messageLen 0 ++
        List.replicate saltLength 0)))))) := copyInto_append [0] rfl rfl rfl
  have h2 : ht.toList = [Layout.version] ++ ([OneTime.height K] ++ (List.replicate parameterLen 0 ++
      (List.replicate 4 0 ++ ([0] ++ (List.replicate messageLen 0 ++
        List.replicate saltLength 0))))) := copyInto_append [0] h1 rfl rfl
  have h3 : p.toList = [Layout.version, OneTime.height K] ++ ((parameterOf self.key).toList ++
      (List.replicate 4 0 ++ ([0] ++ (List.replicate messageLen 0 ++
        List.replicate saltLength 0)))) :=
    copyInto_append (List.replicate parameterLen 0) h2 rfl (by simp)
  have h4 : next.toList = ([Layout.version, OneTime.height K] ++ (parameterOf self.key).toList) ++
      ((u32Be self.nextLeaf).toList ++ ([0] ++ (List.replicate messageLen 0 ++
        List.replicate saltLength 0))) :=
    copyInto_append (List.replicate 4 0) (by rw [h3, List.append_assoc])
      (by rw [List.length_append, List.Vector.toList_length]; rfl) (by simp)
  have hlen : ([Layout.version, OneTime.height K] ++ ((parameterOf self.key).toList ++
      (u32Be self.nextLeaf).toList)).length = Layout.hasMessage := by
    simp only [List.length_append, List.Vector.toList_length]
    rfl
  unfold Header.Holds header
  cases self.lastMessage with
  | none =>
    show next.toList = _
    rw [h4, List.append_assoc]
    rfl
  | some message =>
    have h5 : (copyInto next Layout.hasMessage [1]).toList
        = ([Layout.version, OneTime.height K] ++ ((parameterOf self.key).toList ++
          (u32Be self.nextLeaf).toList)) ++ ([1] ++ (List.replicate messageLen 0 ++
            List.replicate saltLength 0)) :=
      copyInto_append [0] (by rw [h4]; simp only [List.append_assoc]) hlen rfl
    have h6 : (copyInto (copyInto next Layout.hasMessage [1]) Layout.message message.toList).toList
        = ([Layout.version, OneTime.height K] ++ ((parameterOf self.key).toList ++
          (u32Be self.nextLeaf).toList) ++ [1])
            ++ (message.toList ++ List.replicate saltLength 0) :=
      copyInto_append (List.replicate messageLen 0) (by rw [h5]; simp only [List.append_assoc])
        (by rw [List.length_append, hlen]; rfl) (by simp)
    have h7 : (copyInto (copyInto (copyInto next Layout.hasMessage [1]) Layout.message
        message.toList) Layout.salt self.lastSalt.toList).toList
        = ([Layout.version, OneTime.height K] ++ ((parameterOf self.key).toList ++
          (u32Be self.nextLeaf).toList) ++ [1] ++ message.toList) ++ (self.lastSalt.toList ++ []) :=
      copyInto_append (List.replicate saltLength 0) (by rw [h6]; simp only [List.append_assoc,
        List.append_nil])
        (by rw [List.length_append, List.length_append, hlen, List.Vector.toList_length]; rfl)
        (by simp)
    refine h7.trans ?_
    simp only [List.append_assoc, List.append_nil]
    rfl

theorem header_lastMessage (self : SigningKey K) :
    self.header.lastMessage = self.lastMessage := by
  rw [self.holds_header.lastMessage]
  cases self.lastMessage <;> rfl

/-- A header that records no message is closed by zeros. -/
theorem header_drop (self : SigningKey K) (h : self.lastMessage = none) :
    (self.header.toList.drop Layout.message).any (· != 0) = false := by
  rw [self.holds_header.drop, h]
  rfl

theorem header_lastSalt (self : SigningKey K) (h : self.record.Valid) :
    self.header.lastSalt = self.lastSalt := by
  rw [self.holds_header.lastSalt]
  cases hm : self.lastMessage with
  | none => exact (h.empty hm).symm
  | some m => rfl

/-- `open` does not reject the header of a valid record. -/
theorem header_accepted (self : SigningKey K) (h : self.record.Valid) :
    self.header.rejected (OneTime.height K) (OneTime.leaves K) = false := by
  have hf := self.holds_header
  refine Header.rejected_eq_false.mpr ⟨hf.version, hf.height, ?_, ?_, ?_, ?_⟩
  · rw [hf.flag]
    cases self.lastMessage with
    | none => exact (by decide : (0 : UInt8) ≤ 1)
    | some m => exact (by decide : (1 : UInt8) ≤ 1)
  · rw [hf.nextLeaf]
    exact h.nextLeaf_le
  · intro m hm
    rw [header_lastMessage] at hm
    rw [hf.nextLeaf, hf.parameter, self.header_lastSalt h]
    exact h.spent m hm
  · intro hm
    rw [header_lastMessage] at hm
    exact self.header_drop hm

theorem encoded_length [LawfulOneTime K] (self : SigningKey K) (h : self.record.Valid) :
    self.encoded.length = Layout.secrets + secretsLen K := by
  obtain ⟨secrets, parameter, hkey⟩ := h.built
  obtain ⟨hlen, hsecrets, -⟩ := LawfulOneTime.of_builds hkey
  have hs : OneTime.secrets self.key = secrets := hsecrets
  rw [encoded, List.length_append, List.Vector.toList_length, hs, hlen]
  rfl

/-- **What a signer with a valid record writes is read back.** -/
theorem decode_encoded [LawfulOneTime K] (self : SigningKey K) (h : self.record.Valid) :
    decode K self.encoded = some self.record := by
  obtain ⟨secrets, parameter, hkey⟩ := h.built
  obtain ⟨hlen, hsecrets, hparameter⟩ := LawfulOneTime.of_builds hkey
  have hslice : (slice self.encoded 0 Layout.secrets : Header) = self.header :=
    slice_zero_append self.header _
  have hs : OneTime.secrets self.key = secrets := hsecrets
  have hrest : (slice self.encoded Layout.secrets (secretsLen K)).toList = secrets := by
    rw [slice_toList (by rw [self.encoded_length h]), encoded, hs,
      List.drop_left' (List.Vector.toList_length _),
        List.take_of_length_le (i := secretsLen K) (Nat.le_of_eq hlen)]
  have hp : parameterOf self.key = parameter := hparameter
  unfold decode
  rw [if_neg (fun hne => hne (self.encoded_length h))]
  dsimp only
  rw [hslice, if_neg (Bool.eq_false_iff.mp (self.header_accepted h)), hrest,
    self.holds_header.parameter, hp]
  rw [show (OneTime.fromSecrets secrets parameter).eval keccak256 = .ok self.key from hkey,
    self.holds_header.nextLeaf, self.header_lastMessage, self.header_lastSalt h]
  rfl

end SigningKey

/-! ## Attempts -/

/-- A later record of the same key. -/
def Record.After (r r' : Record K) : Prop := r'.key = r.key ∧ r.nextLeaf < r'.nextLeaf

/-- A signature of the recorded message, at the leaf that was spent last. -/
def Record.Signs (r : Record K) (message : Message) (sig : OneTime.Signature K) : Prop :=
  r.lastMessage = some message ∧
    (OneTime.signAtWithSalt r.key (r.nextLeaf - 1) message r.lastSalt).eval keccak256 = some sig

/-- The recorded salt signs the recorded message. -/
theorem Record.Valid.exists_signs [LawfulOneTime K] {r : Record K} (h : r.Valid)
    {message : Message} (hm : r.lastMessage = some message) : ∃ sig, r.Signs message sig := by
  obtain ⟨secrets, parameter, hkey⟩ := h.built
  obtain ⟨-, -, hparameter⟩ := LawfulOneTime.of_builds hkey
  obtain ⟨hne, hx⟩ := h.spent message hm
  have hlt : r.nextLeaf - 1 < OneTime.leaves K := by
    have hle := UInt32.le_iff_toNat_le.mp h.nextLeaf_le
    have hpos : r.nextLeaf.toNat ≠ 0 := fun h0 => hne (UInt32.toNat_inj.mp h0)
    rw [UInt32.lt_iff_toNat_lt, u32_toNat_pred hne]
    omega
  have hp : parameterOf r.key = parameter := hparameter
  obtain ⟨sig, hsig⟩ := Option.isSome_iff_exists.mp
    ((LawfulOneTime.sign_isSome hkey (r.nextLeaf - 1) message r.lastSalt).mpr ⟨hlt, hp ▸ hx⟩)
  exact ⟨sig, hm, hsig⟩

/-- A signer that has failed signs no more. -/
theorem SigningKey.signWithRng_failed (self : SigningKey K) (h : self.failed = true)
    (message : Message) (fill : FillSource) :
    self.signWithRng message fill = pure (.error .unusable, self) := by
  unfold SigningKey.signWithRng
  rw [if_pos h]

/-- **A retry makes no call** and returns the recorded signature. -/
theorem SigningKey.signWithRng_retry (self : SigningKey K) (hfailed : self.failed = false)
    {message : Message} {sig : OneTime.Signature K} (h : self.record.Signs message sig)
    (fill : FillSource) : self.signWithRng message fill = pure (.ok sig, self) := by
  have hm : self.lastMessage = some message := h.1
  have hsig : (OneTime.signAtWithSalt self.key (self.nextLeaf - 1) message
    self.lastSalt).eval keccak256 = some sig := h.2
  unfold SigningKey.signWithRng
  rw [if_neg (Bool.eq_false_iff.mp hfailed), if_pos hm, hsig]
  rfl

/-- The record of an attempt: the leaf is spent. -/
theorem SigningKey.valid_advance (self : SigningKey K) (h : self.record.Valid)
    (hlt : self.nextLeaf < OneTime.leaves K)
    (message : Message) {sampled : Except SigningError Salt}
    (hsalt : ∀ salt, sampled = .ok salt → ((encode salt (parameterOf self.key) self.nextLeaf
      message).eval keccak256).isSome) :
    (self.advance message sampled).record.Valid ∧
      self.record.After (self.advance message sampled).record := by
  have hnat := UInt32.lt_iff_toNat_lt.mp hlt
  have hnext := u32_toNat_succ hlt
  refine ⟨⟨h.built, UInt32.le_iff_toNat_le.mpr (hnext.le.trans hnat), fun m hm => ?_,
    fun hm => ?_⟩, rfl, UInt32.lt_iff_toNat_lt.mpr ?_⟩
  · cases sampled with
    | error e => cases hm
    | ok salt =>
      obtain rfl : message = m := Option.some.inj hm
      refine ⟨fun h0 => ?_, ?_⟩
      · have h0' := congrArg UInt32.toNat h0
        change (self.nextLeaf + 1).toNat = 0 at h0'
        omega
      · show ((encode salt (parameterOf self.key) (self.nextLeaf + 1 - 1) message).eval
          keccak256).isSome = true
        rw [UInt32.add_sub_cancel]
        exact hsalt salt rfl
  · cases sampled with
    | error e => rfl
    | ok salt => cases hm
  · show self.nextLeaf.toNat < (self.nextLeaf + 1).toNat
    omega

end SolanaWinternitz
