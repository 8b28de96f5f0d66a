import SolanaWinternitz.Properties.Machine

/-!
# The key-file format is canonical

* `Header.holds_self` — a header is the concatenation of its fields
* `encoded_of_decode` — **a signer with the record that was read writes the bytes that were read**
* `run_openFile` — `open` with no failing call returns the record in the file
* `key_file_canonical` — `open` accepts exactly what `write_record` writes, and no two states write
  the same bytes
-/

namespace SolanaWinternitz

open Infra Infra.Os

/-! ## Encoding after decoding -/

theorem drop_eq_get_cons {n : Nat} (b : Block n) (i : Fin n) :
    b.toList.drop i = b.get i :: b.toList.drop (i + 1) := by
  have hi : i.val < b.toList.length := by simp
  rw [List.drop_eq_getElem_cons hi, List.Vector.get_eq_get_toList]
  rfl

/-- A header is the concatenation of its fields. -/
theorem Header.holds_self (header : Header) :
    header.Holds (header.get ⟨0, by decide⟩) (header.get ⟨1, by decide⟩) header.parameter
      header.nextLeaf header.flag (slice header.toList Layout.message messageLen)
      header.lastSalt := by
  have hlen : header.toList.length = Layout.secrets := List.Vector.toList_length header
  have hversion := drop_eq_get_cons header ⟨0, by decide⟩
  have hheight := drop_eq_get_cons header ⟨1, by decide⟩
  have hflag := drop_eq_get_cons header ⟨Layout.hasMessage, by decide⟩
  have hparameter := slice_append_drop header.toList Layout.parameter parameterLen
    (by rw [hlen]; decide)
  have hnext := slice_append_drop header.toList Layout.nextLeaf 4 (by rw [hlen]; decide)
  have hmessage := slice_append_drop header.toList Layout.message messageLen
    (by rw [hlen]; decide)
  have hsalt := slice_append_drop header.toList Layout.salt saltLength
    (Nat.le_of_eq hlen.symm)
  have hend : header.toList.drop (Layout.salt + saltLength) = [] :=
    List.drop_eq_nil_of_le (Nat.le_of_eq hlen)
  have hnext' : (u32Be header.nextLeaf).toList ++ header.toList.drop Layout.hasMessage
      = header.toList.drop Layout.nextLeaf := by
    rw [← hnext]
    unfold nextLeaf
    rw [u32Be_u32OfBe]
  unfold Holds
  calc header.toList
      = header.get ⟨0, by decide⟩ :: header.get ⟨1, by decide⟩ :: header.toList.drop 2 := by
        rw [← hheight]
        exact hversion
    _ = header.get ⟨0, by decide⟩ :: header.get ⟨1, by decide⟩ :: (header.parameter.toList
          ++ ((u32Be header.nextLeaf).toList ++ header.toList.drop Layout.hasMessage)) := by
        rw [hnext', ← hparameter]
        rfl
    _ = _ := by
        rw [show header.toList.drop Layout.hasMessage = _ from hflag]
        rw [show header.toList.drop (Layout.hasMessage + 1) = _ from hmessage.symm]
        rw [show header.toList.drop (Layout.message + messageLen) = _ from hsalt.symm, hend,
          List.append_nil]
        rfl

/-- The fields determine the header. -/
theorem Header.eq_of_holds {header header' : Header} {v ht fl : UInt8} {p : Parameter}
    {next : UInt32} {message : Message} {salt : Salt} (h : header.Holds v ht p next fl message salt)
    (h' : header'.Holds v ht p next fl message salt) : header = header' :=
  List.Vector.eq _ _ (Eq.trans h (Eq.symm h'))

/-- The message field of a header without a message is closed by zeros. -/
theorem Header.message_of_zeros {header : Header}
    (h : (header.toList.drop Layout.message).any (· != 0) = false) :
    (slice header.toList Layout.message messageLen : Message) = zeros _ := by
  have hall : ∀ b ∈ (slice header.toList Layout.message messageLen).toList, b = 0 := by
    intro b hb
    rw [slice_toList (by simp)] at hb
    simpa using List.any_eq_false.mp h b (List.mem_of_mem_take hb)
  refine List.Vector.eq _ _ ?_
  rw [zeros_toList]
  exact List.eq_replicate_iff.mpr ⟨List.Vector.toList_length _, hall⟩

variable [Keccak] {K : Type} [OneTime K]

/-- A header that `open` accepts is the header of the record that it gives. -/
theorem SigningKey.header_of_accepted {header : Header} (signer : SigningKey K)
    (hrej : header.rejected (OneTime.height K) (OneTime.leaves K) = false)
    (hparameter : parameterOf signer.key = header.parameter)
    (hnext : signer.nextLeaf = header.nextLeaf) (hmessage : signer.lastMessage = header.lastMessage)
    (hsalt : signer.lastSalt = header.lastSalt) : signer.header = header := by
  obtain ⟨hversion, hheight, hflag, -, -, hempty⟩ := Header.rejected_eq_false.mp hrej
  have hself := header.holds_self
  rw [hversion, hheight] at hself
  refine Header.eq_of_holds signer.holds_header ?_
  rw [hparameter, hnext, hmessage, hsalt]
  cases hm : header.lastMessage with
  | none =>
    -- The flag is 0, and the message and the salt are zeros.
    have hzero : header.flag = 0 := by
      have hne : header.flag ≠ 1 := by
        intro hone
        unfold Header.lastMessage at hm
        rw [if_pos hone] at hm
        cases hm
      have hle := UInt8.le_iff_toNat_le.mp hflag
      refine UInt8.toNat_inj.mp ?_
      have hne' : header.flag.toNat ≠ 1 := fun h => hne (UInt8.toNat_inj.mp h)
      change header.flag.toNat ≤ 1 at hle
      show header.flag.toNat = 0
      omega
    rw [hzero, Header.message_of_zeros (hempty hm), Header.lastSalt_of_zeros (hempty hm)] at hself
    exact hself
  | some m =>
    have hone : header.flag = 1 ∧ slice header.toList Layout.message messageLen = m := by
      unfold Header.lastMessage at hm
      split at hm
      · next hone => exact ⟨hone, Option.some.inj hm⟩
      · cases hm
    rw [hone.1, hone.2] at hself
    exact hself

/-- **A signer with the record that was read writes the bytes that were read.** -/
theorem SigningKey.encoded_of_decode [LawfulOneTime K] {bytes : Bytes} {signer : SigningKey K}
    (h : decode K bytes = some signer.record) : signer.encoded = bytes := by
  unfold decode at h
  split at h
  · cases h
  · next hlen =>
    dsimp only at h
    split at h
    · cases h
    · next hrej =>
      cases hkey : (OneTime.fromSecrets (K := K) (slice bytes Layout.secrets (secretsLen K)).toList
        (Header.parameter (slice bytes 0 Layout.secrets))).eval keccak256 with
      | error e =>
        rw [hkey] at h
        cases h
      | ok key =>
        rw [hkey] at h
        obtain ⟨hlenS, hsecrets, hparameter⟩ := LawfulOneTime.of_builds hkey
        have hrecord := Option.some.inj h
        have hk : key = signer.key := congrArg Record.key hrecord
        subst hk
        have hheader : signer.header = slice bytes 0 Layout.secrets :=
          signer.header_of_accepted (Bool.eq_false_iff.mpr hrej) hparameter
            (congrArg Record.nextLeaf hrecord).symm (congrArg Record.lastMessage hrecord).symm
            (congrArg Record.lastSalt hrecord).symm
        have hle := not_not.mp hlen
        unfold encoded
        rw [hheader, hsecrets, slice_toList (by omega), slice_toList (by omega), List.drop_zero,
          List.take_of_length_le (i := secretsLen K) (by rw [List.length_drop]; omega),
          List.take_append_drop]

/-- **`open` accepts exactly what a valid record is written as**, and finds that record. -/
theorem decode_eq_some_iff [LawfulOneTime K] {bytes : Bytes} {signer : SigningKey K} :
    decode K bytes = some signer.record ↔ signer.record.Valid ∧ signer.encoded = bytes := by
  constructor
  · intro h
    exact ⟨valid_of_decode h, SigningKey.encoded_of_decode h⟩
  · rintro ⟨hvalid, rfl⟩
    exact signer.decode_encoded hvalid

/-! ## Running the programs -/

variable {Pid : Type} {path : String} {pid : Pid} {w : World String Pid}

/-- An environment in which every call is carried out. -/
def carriedOut (pid : Pid) (c : Call String) (w : World String Pid) :
    Answer SigningError c × World String Pid :=
  w.exec pid (.ok []) c

/-- **`write_record` writes the encoding** to an empty file. -/
theorem run_writeRecord (signer : SigningKey K) (fd : Fd) (h : (w.file fd).bytes = []) :
    ∃ w', (signer.writeRecord fd).run.run (carriedOut pid) w = (.ok (), w') ∧
      (w'.file fd).bytes = signer.encoded := by
  refine ⟨_, rfl, ?_⟩
  simp [World.setFile_file_self, carriedOut, World.exec, h, SigningKey.encoded]

/-- A file with these bytes is behind the path, and no signer holds its lock. -/
structure Stored (path : String) (bytes : Bytes) (w : World String Pid) : Prop where
  world : Machine.WorldOk path w
  free : ∀ pid, ¬ Machine.Holds path w pid
  content : ∃ f, w.content path = some f ∧ f.bytes = bytes

/-- `open` returns the signer. -/
def Opens (path : String) (pid : Pid) (w : World String Pid) (signer : SigningKey K) : Prop :=
  ((SigningKey.openFile K path).run.run (carriedOut pid) w).1 = .ok signer

omit [Keccak] in
/-- A lock that is free is obtained. -/
theorem run_tryLock {fd : Fd} (h : w.locks fd = none) :
    carriedOut pid (.tryLock fd) w = (.ok (), w.lock fd pid) := by
  simp only [carriedOut, World.exec, h]

/-- `open` gets the lock, and goes on with the same file behind the path. -/
theorem run_lock {bytes : Bytes} (h : Stored path bytes w) (pid : Pid) :
    ∃ w' fd, ((SigningKey.openFile K path).run.run (carriedOut pid) w).1
        = ((SigningKey.openLocked K path fd).run.run (carriedOut pid) w').1 ∧
      w'.content path = w.content path := by
  rw [Machine.openFile_eq]
  -- The lock file is opened, and created if there is none.
  cases hopen : carriedOut pid (.openSidecar (sibling path ".lock")) w with
  | mk r w1 =>
    obtain ⟨hw1, -, hok⟩ := World.exec_openSidecar hopen
    obtain ⟨fd, rfl⟩ := hok rfl
    have hcontent : w1.content path = w.content path := by
      rcases hw1 with rfl | rfl
      · rfl
      · exact World.content_touch_of_ne h.world.ok (sibling_ne (by decide)).symm
    have hlocks : w1.locks = w.locks := by
      rcases hw1 with rfl | rfl
      · rfl
      · exact World.locks_touch w _
    have hunlocked : w1.locks fd = none := by
      rw [hlocks]
      cases hl : w.locks fd with
      | none => rfl
      | some q => exact absurd ⟨fd, h.world.locks fd q hl, hl⟩ (h.free q)
    -- Then it is locked, which no file notices.
    refine ⟨w1.lock fd pid, fd, ?_, hcontent⟩
    show ((Machine.opened K path true (carriedOut pid (.openSidecar _) w).1).run _
      (carriedOut pid (.openSidecar _) w).2).1 = _
    rw [hopen]
    show ((Machine.locked K path true fd (carriedOut pid (.tryLock fd) w1).1).run _
      (carriedOut pid (.tryLock fd) w1).2).1 = _
    rw [run_tryLock hunlocked]
    rfl

/-- **`open` returns the visible record**, and fails only if there is none. -/
theorem run_openFile {bytes : Bytes} (h : Stored path bytes w) (pid : Pid) :
    (∀ signer : SigningKey K, Opens path pid w signer →
      decode K bytes = some signer.record ∧ signer.path = path ∧ signer.failed = false) ∧
    ((∀ signer : SigningKey K, ¬ Opens path pid w signer) → decode K bytes = none) := by
  obtain ⟨f, hf, rfl⟩ := h.content
  obtain ⟨w', fd, hrun, hcontent⟩ := run_lock (K := K) h pid
  have hvisible : w'.visible (decode K) path = decode K f.bytes :=
    World.visible_of_content (hcontent.trans hf)
  -- The logic for an environment that may fail covers the one that never does.
  have hlogic := Prog.Always.run (p := (SigningKey.openLocked K path fd).run) (s := (w', true))
    (h := fun c (s : World String Pid × Bool) =>
      ((carriedOut pid c s.1).1, ((carriedOut pid c s.1).2, s.2)))
    (fun c s => ⟨.ok [], trivial, rfl, (Bool.and_true _).symm⟩)
    (always_openLocked (A := fun _ => True) (G := fun _ _ => True) (fun _ _ => trivial) true fd)
  rw [Prog.run_prod] at hlogic
  obtain ⟨-, hresult⟩ := hlogic
  unfold Opens
  rw [hrun]
  cases hr : ((SigningKey.openLocked K path fd).run.run (carriedOut pid) w').1 with
  | ok signer =>
    rw [hr] at hresult
    obtain ⟨hv, hpath, hfailed⟩ := hresult
    rw [hvisible] at hv
    constructor
    · intro signer' he
      cases he
      exact ⟨hv, hpath, hfailed⟩
    · intro hnone
      exact absurd rfl (hnone signer)
  | error e =>
    rw [hr] at hresult
    constructor
    · intro signer he
      cases he
    · intro _
      rw [← hvisible]
      exact hresult rfl

/-- A file is accepted iff a valid record is written so. -/
theorem exists_opens_iff [LawfulOneTime K] {bytes : Bytes} (h : Stored path bytes w) (pid : Pid) :
    (∃ signer : SigningKey K, Opens path pid w signer) ↔
      ∃ s : SigningKey K, s.record.Valid ∧ s.encoded = bytes := by
  obtain ⟨hopen, hnone⟩ := run_openFile (K := K) h pid
  constructor
  · rintro ⟨signer, hs⟩
    exact ⟨signer, decode_eq_some_iff.mp (hopen signer hs).1⟩
  · rintro ⟨s, hs⟩
    by_contra hno
    have hdecode := decode_eq_some_iff.mpr hs
    rw [hnone fun signer hs => hno ⟨signer, hs⟩] at hdecode
    cases hdecode

/--
**The key-file format is canonical.** `write_record` writes the encoding of its signer. `open`
accepts a file iff it is the encoding of a valid state; that state is unique, it is the one that
`open` returns, and it is encoded as that file. A file of one instance is not accepted as the other,
and two files that differ anywhere give different states.
-/
theorem key_file_canonical (k : Instance) :
    (∀ (Pid : Type) (pid : Pid) (w : World String Pid) (s : SigningKey k.SecretKey) (fd : Fd),
      (w.file fd).bytes = [] →
      ∃ w', (s.writeRecord fd).run.run (carriedOut pid) w = (.ok (), w') ∧
        (w'.file fd).bytes = s.encoded) ∧
    ∀ (Pid : Type) (pid : Pid) (path : String) (w : World String Pid) (b : Bytes),
      Stored path b w →
      ((∃ signer : SigningKey k.SecretKey, Opens path pid w signer) ↔
        ∃ s : SigningKey k.SecretKey, s.record.Valid ∧ s.encoded = b) ∧
      (∀ signer : SigningKey k.SecretKey, Opens path pid w signer →
        signer.record.Valid ∧ signer.failed = false ∧ signer.encoded = b ∧
        (∀ s : SigningKey k.SecretKey, s.record.Valid → s.encoded = b → s.record = signer.record) ∧
        (∀ k' : Instance, k' ≠ k → ∀ other : SigningKey k'.SecretKey, ¬ Opens path pid w other) ∧
        ∀ (w' : World String Pid) (b' : Bytes) (signer' : SigningKey k.SecretKey),
          Stored path b' w' → b' ≠ b → Opens path pid w' signer' →
          signer'.record ≠ signer.record) := by
  refine ⟨fun Pid pid w s fd hfd => run_writeRecord s fd hfd, ?_⟩
  intro Pid pid path w b hstored
  refine ⟨exists_opens_iff hstored pid, ?_⟩
  intro signer hopens
  obtain ⟨hdecode, -, hfailed⟩ := (run_openFile hstored pid).1 signer hopens
  obtain ⟨hvalid, hencoded⟩ := decode_eq_some_iff.mp hdecode
  refine ⟨hvalid, hfailed, hencoded, ?_, ?_, ?_⟩
  · intro s hs he
    have hs' := decode_eq_some_iff.mpr ⟨hs, he⟩
    exact Option.some.inj (hs'.symm.trans hdecode)
  · intro k' hne other hother
    -- The instances have files of different lengths.
    obtain ⟨hdecode', -, -⟩ := (run_openFile hstored pid).1 other hother
    obtain ⟨hvalid', hencoded'⟩ := decode_eq_some_iff.mp hdecode'
    have hlen := signer.encoded_length hvalid
    have hlen' := other.encoded_length hvalid'
    rw [hencoded] at hlen
    rw [hencoded', hlen] at hlen'
    cases k with
    | winternitz =>
      cases k' with
      | winternitz => exact hne rfl
      | xmss => exact absurd hlen' (by decide)
    | xmss =>
      cases k' with
      | winternitz => exact absurd hlen' (by decide)
      | xmss => exact hne rfl
  · intro w' b' signer' hstored' hne hopens' he
    obtain ⟨hdecode', -, -⟩ := (run_openFile hstored' pid).1 signer' hopens'
    obtain ⟨-, hencoded'⟩ := decode_eq_some_iff.mp hdecode'
    rw [he] at hdecode'
    obtain ⟨-, hencoded''⟩ := decode_eq_some_iff.mp hdecode'
    exact hne (hencoded''.symm.trans hencoded)

end SolanaWinternitz
