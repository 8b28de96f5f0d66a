import SolanaWinternitz.Properties.CanonicalFile
import SolanaWinternitz.Properties.RawSigners
import SolanaWinternitz.Ts.SigningKey

/-!
# One key file for both languages

* `Corresponds` — a record and the signer of the TypeScript package that stands for it
* `Corresponds.header` — both languages write the same header
* `ofRecord_of_some`, `ofRecord_of_none` — both accept the same files, and find the same record in
  them
-/

namespace SolanaWinternitz

open Infra Infra.Os Infra.Js

variable [Keccak] {K K' : Type} [OneTime K] [Ts.OneTime K']

/-- The signer of the TypeScript package that stands for a record. -/
structure Corresponds (r : Record K) (ts : Ts.SigningKey K') : Prop where
  key : ∃ secrets parameter, Twins secrets parameter r.key ts.key
  nextLeaf : ts.nextLeaf = r.nextLeaf.toNat
  lastMessage : ts.lastMessage = r.lastMessage.map List.Vector.toList
  lastSalt : ts.lastSalt = r.lastSalt.toList

/-! ## Writing -/

omit [Keccak] in
/-- A store into a typed array is a copy into a slice. -/
theorem setBytes_toList {n : Nat} (b : Block n) {off : Nat} {src : Bytes}
    (h : off + src.length ≤ n) : setBytes b.toList off src = (copyInto b off src).toList :=
  (copyInto_toList h).symm

variable [SameOneTime K K']

/-- The verifying key and the parameter that the header takes from it. -/
theorem Corresponds.verifyingKey {r : Record K} {ts : Ts.SigningKey K'} (h : Corresponds r ts) :
    ∃ key : Ts.VerifyingKey, Ts.OneTime.verifyingKey ts.key = .ok key ∧
      subarrayFrom key.toBytes Ts.elementLength = (parameterOf r.key).toList := by
  obtain ⟨secrets, parameter, htwins⟩ := h.key
  refine ⟨_, SameOneTime.verifyingKey htwins, ?_⟩
  exact subarrayFrom_natCast _ (List.Vector.toList_length _)

omit [Keccak] in
theorem writeUInt32BE_eq (header : Header) (n : UInt32) :
    Ts.writeUInt32BE header.toList n.toNat Layout.nextLeaf
      = .ok (copyInto header Layout.nextLeaf (u32Be n).toList).toList := by
  have hlt := n.toNat_lt
  rw [Ts.writeUInt32BE, if_pos (by omega), Ts.u32be_natCast,
    setBytes_toList header (by rw [List.Vector.toList_length]; decide)]

omit [Keccak] in
/-- A field of the header, at the offset that both languages use for it. -/
theorem setBytes_header {header : Header} {off' k : Nat} (off : Nat) (b : Block k)
    (hoff : off' = off)
    (hk : off + k ≤ Layout.secrets) :
    setBytes header.toList off' b.toList = (copyInto header off b.toList).toList := by
  rw [hoff]
  exact setBytes_toList header (by rwa [List.Vector.toList_length])

/-- **Both languages write the same header.** -/
theorem Corresponds.header {signer : SigningKey K} {ts : Ts.SigningKey K'}
    (h : Corresponds signer.record ts) : ts.header = .ok signer.header.toList := by
  obtain ⟨key, hkey, hparameter⟩ := h.verifyingKey
  have hheight : Ts.uint8Array [(Ts.OneTime.height K' : Int)] = [OneTime.height K] := by
    rw [SameOneTime.height (K := K)]
    simp [Ts.uint8Array]
  have hzeros : List.replicate Ts.Layout.secrets 0 = (zeros Layout.secrets : Header).toList := rfl
  have hversion : Ts.uint8Array [Ts.Layout.version] = [Layout.version] := rfl
  have hflag : Ts.uint8Array [1] = [1] := rfl
  have hok : (Except.ok key : Except Ts.CryptoError Ts.VerifyingKey).mapError Ts.Cause.crypto
      = .ok key := rfl
  unfold Ts.SigningKey.header SigningKey.header
  rw [hkey]
  dsimp only
  rw [hzeros, hversion, hheight, hok, ok_bind, hparameter, h.nextLeaf, h.lastMessage, h.lastSalt,
    setBytes_toList _ (show 0 + 1 ≤ Layout.secrets by decide),
    setBytes_toList _ (show 1 + 1 ≤ Layout.secrets by decide),
    setBytes_header Layout.parameter _ rfl (by decide),
    show Ts.Layout.nextLeaf = Layout.nextLeaf from rfl, writeUInt32BE_eq, ok_bind]
  cases hm : signer.lastMessage with
  | none =>
    rw [show signer.record.lastMessage = none from hm]
    rfl
  | some message =>
    rw [show signer.record.lastMessage = some message from hm, Option.map_some]
    dsimp only
    rw [hflag, setBytes_toList _ (show Layout.hasMessage + 1 ≤ Layout.secrets by decide),
      setBytes_header Layout.message _ rfl (by decide),
      setBytes_header Layout.salt _ rfl (by decide)]
    rfl

/-- Both languages write the same bytes. -/
theorem Corresponds.encoded {signer : SigningKey K} {ts : Ts.SigningKey K'}
    (h : Corresponds signer.record ts) :
    ts.header.map (· ++ Ts.OneTime.secrets ts.key) = .ok signer.encoded := by
  obtain ⟨secrets, parameter, htwins⟩ := h.key
  rw [h.header, SameOneTime.secrets htwins]
  rfl

/-! ## Reading -/

section

variable {b : Bytes} {header : Header} (hlen : Layout.secrets ≤ b.length)
  (hheader : slice b 0 Layout.secrets = header)

include hlen hheader

omit [Keccak] in
theorem subarray_header (off k : Nat) {start stop : Int} (hstart : start = off)
    (hstop : stop = (off + k : Nat)) (hk : off + k ≤ Layout.secrets) :
    subarray b start stop = (slice header.toList off k).toList := by
  rw [Ts.subarray_slice hstart hstop (hk.trans hlen), ← hheader, slice_slice hk
    (by rwa [Nat.zero_add]), Nat.zero_add]

omit [Keccak] in
theorem byteAt_header {i : Nat} (hi : i < Layout.secrets) :
    byteAt b i = (header.get ⟨i, hi⟩).toNat := by
  have hget := getElem?_toList header ⟨i, hi⟩
  rw [← hheader, slice_toList (by rwa [Nat.zero_add]), List.drop_zero,
    List.getElem?_take_of_lt hi] at hget
  rw [byteAt_natCast, hget, hheader]
  rfl

omit [Keccak] in
theorem readUInt32BE_header :
    Ts.readUInt32BE b Ts.Layout.nextLeaf = header.nextLeaf.toNat := by
  unfold Ts.readUInt32BE Header.nextLeaf
  rw [← hheader, slice_slice (by decide) (by rwa [Nat.zero_add]), Nat.zero_add]

end

/-- The retry state of a header, as both languages check it. -/
theorem retry_eq {header : Header} (m : Message) :
    ((header.nextLeaf.toNat : Int) == 0 || (Ts.encode header.lastSalt.toList header.parameter.toList
      (header.nextLeaf.toNat - 1) m.toList).isNone) = false ↔
    header.nextLeaf ≠ 0 ∧
      ((encode header.lastSalt header.parameter (header.nextLeaf - 1) m).eval
        keccak256).isSome := by
  by_cases hzero : header.nextLeaf = 0
  · simp [hzero]
  · have hne : ((header.nextLeaf.toNat : Int) == 0) = false := by
      rw [beq_eq_false_iff_ne]
      intro h
      exact hzero (UInt32.toNat_inj.mp (by simpa using h))
    have hpos : header.nextLeaf.toNat ≠ 0 := fun h => hzero (UInt32.toNat_inj.mp h)
    have hpred : (header.nextLeaf.toNat : Int) - 1 = ((header.nextLeaf - 1).toNat : Nat) := by
      rw [u32_toNat_pred hzero]
      omega
    rw [hne, Bool.false_or, hpred, Ts.encode_eq, Option.isNone_map]
    simp [hzero, Option.isSome_iff_ne_none]

omit [Keccak] in
theorem u8_toNat_eq {x y : UInt8} : (x.toNat : Int) = y.toNat ↔ x = y := by
  rw [Nat.cast_inj, UInt8.toNat_inj]

/-- **Both languages reject the same headers.** -/
theorem rejected_eq_false_iff {b : Bytes} {header : Header}
    (hheader : slice b 0 Layout.secrets = header) : Ts.SigningKey.rejected K' b = false ↔
    b.length = Layout.secrets + SigningKey.secretsLen K ∧
      header.rejected (OneTime.height K) (OneTime.leaves K) = false := by
  have htotal : Ts.Layout.secrets + Ts.OneTime.leaves K' * Ts.elementsLength
      = Layout.secrets + SigningKey.secretsLen K := by
    rw [SameOneTime.leaves (K := K)]
    rfl
  unfold Ts.SigningKey.rejected
  rw [htotal]
  by_cases hlen : b.length = Layout.secrets + SigningKey.secretsLen K
  · have hle : Layout.secrets ≤ b.length := hlen ▸ Nat.le_add_right _ _
    have hversion : byteAt b 0 = (header.get ⟨0, by decide⟩).toNat :=
      byteAt_header hle hheader (i := 0) (by decide)
    have hheight : byteAt b 1 = (header.get ⟨1, by decide⟩).toNat :=
      byteAt_header hle hheader (i := 1) (by decide)
    have hflag : byteAt b Ts.Layout.hasMessage = header.flag.toNat :=
      byteAt_header hle hheader (i := Layout.hasMessage) (by decide)
    have hnext := readUInt32BE_header hle hheader
    have hparameter : subarray b Ts.Layout.parameter Ts.Layout.nextLeaf = header.parameter.toList :=
      subarray_header hle hheader Layout.parameter parameterLen rfl rfl (by decide)
    have hmessage : subarray b Ts.Layout.message Ts.Layout.salt
        = (slice header.toList Layout.message messageLen).toList :=
      subarray_header hle hheader Layout.message messageLen rfl rfl (by decide)
    have hsalt : subarray b Ts.Layout.salt Ts.Layout.secrets = header.lastSalt.toList :=
      subarray_header hle hheader Layout.salt saltLength rfl rfl (by decide)
    have hrest : subarray b Ts.Layout.message Ts.Layout.secrets
        = header.toList.drop Layout.message := by
      refine (subarray_header hle hheader Layout.message (messageLen + saltLength) rfl rfl
        (by decide)).trans ?_
      rw [slice_toList (by rw [List.Vector.toList_length]; decide), List.take_of_length_le]
      rw [List.length_drop, List.Vector.toList_length]
      decide
    dsimp only
    rw [hversion, hheight, hflag, hnext, hparameter, hmessage, hsalt, hrest,
      SameOneTime.height (K := K), SameOneTime.leaves (K := K), Header.rejected_eq_false]
    simp only [Bool.or_eq_false_iff, and_assoc]
    refine and_congr (by simp) (and_congr ?_ (and_congr ?_ (and_congr ?_ (and_congr ?_ ?_))))
    · rw [bne_eq_false_iff_eq]
      exact u8_toNat_eq (y := Layout.version)
    · rw [bne_eq_false_iff_eq]
      exact u8_toNat_eq
    · rw [decide_eq_false_iff_not, UInt8.le_iff_toNat_le]
      show ¬ ((header.flag.toNat : Int) > 1) ↔ header.flag.toNat ≤ 1
      omega
    · rw [decide_eq_false_iff_not, UInt32.le_iff_toNat_le]
      omega
    · have hone : (header.flag.toNat : Int) = 1 ↔ header.flag = 1 := u8_toNat_eq (y := 1)
      unfold Header.lastMessage
      by_cases hset : header.flag = 1
      · rw [if_pos (hone.mpr hset), if_pos hset, retry_eq]
        simp
      · rw [if_neg (mt hone.mp hset), if_neg hset]
        simp
  · simp [hlen]

omit [Ts.OneTime K'] [SameOneTime K K'] in
/-- What `open` has checked when it finds a record. -/
theorem of_decode {b : Bytes} {r : Record K} (h : decode K b = some r) :
    b.length = Layout.secrets + SigningKey.secretsLen K ∧
      Header.rejected (slice b 0 Layout.secrets) (OneTime.height K) (OneTime.leaves K) = false ∧
      ∃ key, (OneTime.fromSecrets (slice b Layout.secrets (SigningKey.secretsLen K)).toList
          (Header.parameter (slice b 0 Layout.secrets))).eval keccak256 = .ok key ∧
        r = ⟨key, Header.nextLeaf (slice b 0 Layout.secrets),
          Header.lastMessage (slice b 0 Layout.secrets),
          Header.lastSalt (slice b 0 Layout.secrets)⟩ := by
  unfold decode at h
  split at h
  · cases h
  · next hlen =>
    dsimp only at h
    split at h
    · cases h
    · next hrej =>
      cases hkey : (OneTime.fromSecrets (K := K)
        (slice b Layout.secrets (SigningKey.secretsLen K)).toList
        (Header.parameter (slice b 0 Layout.secrets))).eval keccak256 with
      | error e =>
        rw [hkey] at h
        cases h
      | ok key =>
        rw [hkey] at h
        cases h
        exact ⟨not_not.mp hlen, Bool.eq_false_iff.mpr hrej, key, rfl, rfl⟩

/-- `open` of the TypeScript package fails on a file in which the crate finds no record. -/
theorem ofRecord_of_none [LawfulOneTime K] {b : Bytes} (h : decode K b = none) (path : String)
    (lock : Fd) : Ts.SigningKey.ofRecord (K := K') path lock b
      = .error (.of .corrupt "the key file is not a record of this instance") := by
  unfold Ts.SigningKey.ofRecord
  rw [if_pos]
  by_contra hrej
  obtain ⟨hlen, hrej⟩ := (rejected_eq_false_iff (K := K) rfl).mp (Bool.eq_false_iff.mpr hrej)
  have hsecrets : (slice b Layout.secrets (SigningKey.secretsLen K)).toList.length
      = (OneTime.leaves K).toNat * elementsLength := List.Vector.toList_length _
  obtain ⟨key, hkey⟩ := LawfulOneTime.exists_builds (K := K) _
    (Header.parameter (slice b 0 Layout.secrets)) hsecrets
  have hbuilt : (OneTime.fromSecrets (slice b Layout.secrets (SigningKey.secretsLen K)).toList
    (Header.parameter (slice b 0 Layout.secrets))).eval keccak256 = .ok key := hkey
  unfold decode at h
  rw [if_neg (not_not.mpr hlen)] at h
  dsimp only at h
  rw [if_neg (Bool.eq_false_iff.mp hrej), hbuilt] at h
  cases h

/-- **Both languages find the same record in a file.** -/
theorem ofRecord_of_some {b : Bytes} {r : Record K} (h : decode K b = some r) (path : String)
    (lock : Fd) : ∃ ts : Ts.SigningKey K', Ts.SigningKey.ofRecord path lock b = .ok ts ∧
      Corresponds r ts ∧ ts.path = path ∧ ts.lock = lock ∧ ts.closed = false ∧
      ts.sampling = false := by
  obtain ⟨hlen, hrej, key, hkey, rfl⟩ := of_decode h
  have hle : Layout.secrets ≤ b.length := hlen ▸ Nat.le_add_right _ _
  obtain ⟨key', htwins⟩ : ∃ key' : K',
      Twins (slice b Layout.secrets (SigningKey.secretsLen K)).toList
    (Header.parameter (slice b 0 Layout.secrets)) key key' := SameOneTime.exists_twin hkey
  have hsecrets : subarrayFrom b Ts.Layout.secrets
      = (slice b Layout.secrets (SigningKey.secretsLen K)).toList := subarrayFrom_natCast b hlen
  have hparameter : subarray b Ts.Layout.parameter Ts.Layout.nextLeaf
      = (Header.parameter (slice b 0 Layout.secrets)).toList :=
    subarray_header hle rfl Layout.parameter parameterLen rfl rfl (by decide)
  have hmessage : subarray b Ts.Layout.message Ts.Layout.salt
      = (slice (slice b 0 Layout.secrets).toList Layout.message messageLen).toList :=
    subarray_header hle rfl Layout.message messageLen rfl rfl (by decide)
  have hflag : byteAt b Ts.Layout.hasMessage = (Header.flag (slice b 0 Layout.secrets)).toNat :=
    byteAt_header hle rfl (i := Layout.hasMessage) (by decide)
  have hone : byteAt b Ts.Layout.hasMessage = 1 ↔
      Header.flag (slice b 0 Layout.secrets) = 1 := by
    rw [hflag]
    exact u8_toNat_eq (y := 1)
  unfold Ts.SigningKey.ofRecord
  rw [if_neg (Bool.eq_false_iff.mp ((rejected_eq_false_iff rfl).mpr ⟨hlen, hrej⟩))]
  dsimp only
  rw [hsecrets, hparameter, htwins.ts]
  refine ⟨_, rfl, ⟨⟨_, _, htwins⟩, readUInt32BE_header hle rfl, ?_, ?_⟩, rfl, rfl, rfl, rfl⟩
  · show (if _ then _ else _) = (Header.lastMessage _).map _
    unfold Header.lastMessage
    by_cases hset : Header.flag (slice b 0 Layout.secrets) = 1
    · rw [if_pos (hone.mpr hset), if_pos hset, hmessage]
      rfl
    · rw [if_neg (mt hone.mp hset), if_neg hset]
      rfl
  · exact subarray_header hle rfl Layout.salt saltLength rfl rfl (by decide)

end SolanaWinternitz
