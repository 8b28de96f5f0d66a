import SolanaWinternitz.Properties.Hazmat
import SolanaWinternitz.Infra.Related
import SolanaWinternitz.Properties.TsCore

/-!
# The two raw signers agree

The same secrets and parameter give keys that make the same signatures in both languages. `Twins`
relates the two keys, and `SameOneTime` says what the two key types of an instance have in common.

* `Ts.Xmss.agree_buildNodes` — the two node arrays hold the same nodes
* `raw_signers_agree` — the same verifying key and the same signatures
* `generate_agree` — `generate` asks for the same bytes and builds the same key
* `raw_signers_interchangeable` — **the keys of both languages, given or generated, work alike**
-/

namespace SolanaWinternitz

open Infra Infra.Os Infra.Js

/-! ## The node arrays -/

namespace Ts.Xmss

open SolanaWinternitz.Xmss (level level_succ level_add_lt leaves_shift_succ)

variable {nodes : Nodes} {nodes' : SolanaWinternitz.Xmss.Nodes}

/-- The two arrays agree on the first `n` slots, which both have written. -/
def Agree (n : Nat) (nodes : Nodes) (nodes' : SolanaWinternitz.Xmss.Nodes) : Prop :=
  ∀ j < n, nodes j = (nodes'.get j).toList

/-- Both write the next slot. -/
theorem Agree.succ {n : Nat} {value : Bytes} {value' : Element} (h : Agree n nodes nodes')
    (hn : n < 2 * leaves - 1) (hvalue : value = value'.toList) :
    Agree (n + 1) (Function.update nodes n value) (nodes'.set n value') := by
  intro j hj
  rcases Nat.lt_succ_iff_lt_or_eq.mp hj with hj | rfl
  · rw [Function.update_of_ne (by omega), SolanaWinternitz.Xmss.Nodes.get_set_ne (by omega)]
    exact h j hj
  · rw [Function.update_self, SolanaWinternitz.Xmss.Nodes.get_set_self hn]
    exact hvalue

theorem levelOffset_eq {l : Nat} (hl : l ≤ height) : levelOffset l = level l := by
  have hall : ∀ l ≤ 8, levelOffset (l : Nat) = level l := by decide
  exact hall l hl

variable [Keccak]

theorem agree_leaves {secrets : Bytes} (parameter : Parameter)
    (h : secrets.length = leaves * elementsLength) : ∀ m ≤ leaves,
      Agree m ((List.range m).foldl (SecretKey.leafStep secrets parameter.toList) fun _ => [])
        ((List.range m).foldl (fun nodes leaf =>
          (SolanaWinternitz.Xmss.SecretKey.leafStep secrets parameter nodes leaf).eval keccak256)
          fun _ => zeros elementLength) := by
  intro m
  induction m with
  | zero => exact fun _ j hj => absurd hj (Nat.not_lt_zero j)
  | succ m ih =>
    intro hm
    have hleaf : (UInt32.ofNat m).toNat = m := by
      rw [UInt32.toNat_ofNat', Nat.mod_eq_of_lt]
      exact lt_trans (show m < 256 from hm) (by decide)
    have hinside : ((UInt32.ofNat m).toNat + 1) * elementsLength ≤ secrets.length := by
      rw [h, hleaf]
      exact Nat.mul_le_mul_right _ hm
    rw [List.range_succ, List.foldl_append, List.foldl_append]
    simp only [List.foldl_cons, List.foldl_nil]
    rw [SolanaWinternitz.Xmss.eval_leafStep, Nat.zero_add]
    refine Agree.succ (ih (by omega)) (lt_of_lt_of_le hm (by decide)) ?_
    have hends := endsOf_eq parameter hinside
    have hhash := leafHash_eq parameter (UInt32.ofNat m)
      (Signing.chainEnds secrets parameter (UInt32.ofNat m))
    rw [hleaf] at hends hhash
    rw [hends, hhash]
    rfl

/-- One round of the inner loop: both children are below the level that is written. -/
theorem agree_nodeStep (parameter : Parameter) {l m : Nat} (hl : l < height)
    (hm : m < leaves >>> (l + 1)) (h : Agree (level (l + 1) + m) nodes nodes') :
    Agree (level (l + 1) + m + 1) (SecretKey.nodeStep parameter.toList (l + 1) nodes m)
      ((SolanaWinternitz.Xmss.SecretKey.nodeStep parameter (l + 1) nodes' m).eval keccak256) := by
  have hlevel := levelOffset_eq (l := l) (le_of_lt hl)
  have hlevel' := levelOffset_eq (l := l + 1) hl
  have hpred : ((l + 1 : Nat) : Int) - 1 = l := by
    push_cast
    ring
  have hchild : level l + 2 * m + 1 < level (l + 1) + m := by
    have hhalf : leaves >>> l = 2 * (leaves >>> (l + 1)) := leaves_shift_succ hl
    have hbase : level (l + 1) = level l + leaves >>> l := level_succ hl
    omega
  have hslot : level (l + 1) + m < 2 * leaves - 1 := level_add_lt hl hm
  have hindex : (UInt32.ofNat m).toNat = m := by
    rw [UInt32.toNat_ofNat', Nat.mod_eq_of_lt]
    exact lt_of_le_of_lt (Nat.le_add_left _ _) (lt_trans hslot (by decide))
  have hleft := h (level l + 2 * m) (by omega)
  have hright := h (level l + 2 * m + 1) hchild
  have hnode := node_eq parameter (l + 1) (UInt32.ofNat m)
  push_cast at hleft hright
  rw [hindex] at hnode
  rw [SolanaWinternitz.Xmss.eval_nodeStep, Nat.add_sub_cancel]
  unfold SecretKey.nodeStep
  dsimp only
  rw [hpred, hlevel, hlevel', hleft, hright, hnode]
  exact h.succ hslot rfl

theorem agree_nodes (parameter : Parameter) {l : Nat} (hl : l < height)
    (h : Agree (level (l + 1)) nodes nodes') : ∀ m ≤ leaves >>> (l + 1),
      Agree (level (l + 1) + m)
        ((List.range m).foldl (SecretKey.nodeStep parameter.toList (l + 1)) nodes)
        ((List.range m).foldl (fun nodes i =>
          (SolanaWinternitz.Xmss.SecretKey.nodeStep parameter (l + 1) nodes i).eval keccak256)
          nodes') := by
  intro m
  induction m with
  | zero => exact fun _ => h
  | succ m ih =>
    intro hm
    rw [List.range_succ, List.foldl_append, List.foldl_append]
    exact agree_nodeStep parameter hl hm (ih (by omega))

/-- **The two arrays hold the same nodes.** -/
theorem agree_buildNodes {secrets : Bytes} (parameter : Parameter)
    (h : secrets.length = leaves * elementsLength) :
    Agree (2 * leaves - 1) (SecretKey.buildNodes secrets parameter.toList)
      ((SolanaWinternitz.Xmss.SecretKey.buildNodes secrets parameter).eval keccak256) := by
  have hlevels : ∀ top ≤ height, ∀ nodes nodes',
      Agree leaves nodes nodes' →
      Agree (level top + leaves >>> top)
        ((List.range' 1 top).foldl (SecretKey.levelStep parameter.toList) nodes)
        ((List.range' 1 top).foldl (fun nodes l =>
          (SolanaWinternitz.Xmss.SecretKey.levelStep parameter nodes l).eval keccak256)
            nodes') := by
    intro top
    induction top with
    | zero => exact fun _ nodes nodes' hagree => hagree
    | succ top ih =>
      intro htop nodes nodes' hagree
      have hcount : (shiftRight leaves ((1 + 1 * top : Nat) : Int)).toNat
          = leaves >>> (top + 1) := by
        have hall : ∀ top < 8, (shiftRight leaves ((1 + 1 * top : Nat) : Int)).toNat
            = leaves >>> (top + 1) := by decide
        exact hall top htop
      have hlower := ih (by omega) nodes nodes' hagree
      rw [← level_succ htop] at hlower
      rw [List.range'_concat, List.foldl_append, List.foldl_append]
      simp only [List.foldl_cons, List.foldl_nil]
      unfold SecretKey.levelStep SolanaWinternitz.Xmss.SecretKey.levelStep
      rw [hcount, Oracle.eval_foldlM, Nat.one_mul, Nat.add_comm 1 top]
      exact agree_nodes parameter htop hlower _ (le_refl _)
  unfold SecretKey.buildNodes SolanaWinternitz.Xmss.SecretKey.buildNodes
    SolanaWinternitz.Xmss.SecretKey.fillNodes
  rw [Oracle.eval_bind, Oracle.eval_foldlM, Oracle.eval_foldlM]
  exact hlevels height (le_refl _) _ _ (agree_leaves parameter h leaves (le_refl _))

end Ts.Xmss

/-! ## Twins -/

section

variable [Keccak] {K K' : Type} [OneTime K] [Ts.OneTime K']

/-- The keys that the two languages build from the same secrets and parameter. -/
structure Twins (secrets : Bytes) (parameter : Parameter) (key : K) (key' : K') : Prop where
  rust : Builds secrets parameter key
  ts : Ts.OneTime.fromSecrets secrets parameter.toList = .ok key'

end

/-- What the key types of an instance have in common. -/
class SameOneTime [Keccak] (K K' : Type) [OneTime K] [Ts.OneTime K'] : Prop where
  leaves : Ts.OneTime.leaves K' = (OneTime.leaves K).toNat
  height : Ts.OneTime.height K' = (OneTime.height K).toNat
  exists_twin {secrets : Bytes} {parameter : Parameter} {key : K}
    (h : Builds secrets parameter key) : ∃ key' : K', Twins secrets parameter key key'
  secrets {secrets : Bytes} {parameter : Parameter} {key : K} {key' : K'}
    (h : Twins secrets parameter key key') : Ts.OneTime.secrets key' = OneTime.secrets key
  verifyingKey {secrets : Bytes} {parameter : Parameter} {key : K} {key' : K'}
    (h : Twins secrets parameter key key') :
    Ts.OneTime.verifyingKey key' = .ok ⟨((OneTime.verifyingKey key).eval keccak256).bytes⟩
  sign {secrets : Bytes} {parameter : Parameter} {key : K} {key' : K'}
    (h : Twins secrets parameter key key') (leaf : UInt32) (message : Message) (salt : Salt) :
    (Ts.OneTime.signAtWithSalt key' (.integer leaf.toNat) message.toList
        salt.toList).toOption.map Ts.OneTime.toBytes
      = ((OneTime.signAtWithSalt key leaf message salt).eval keccak256).map
          SealedSignature.asBytes

/-! ## The one-leaf instance -/

theorem Ts.VerifyingKey.fromBytes_new (node : Element) (parameter : Parameter) :
    Ts.VerifyingKey.fromBytes (Ts.concat [node.toList, parameter.toList])
      = .ok ⟨(SolanaWinternitz.VerifyingKey.new node parameter).bytes⟩ := by
  have hbytes : Ts.concat [node.toList, parameter.toList]
      = (SolanaWinternitz.VerifyingKey.new node parameter).bytes.toList := by
    rw [Ts.concat_eq, VerifyingKey.new_toList]
    simp
  rw [hbytes, Ts.VerifyingKey.fromBytes_toList]

namespace Ts.Winternitz

theorem fromSecrets_eq (secrets : Block (leaves * elementsLength)) (parameter : Parameter) :
    SecretKey.fromSecrets secrets.toList parameter.toList = .ok ⟨secrets, parameter⟩ := by
  rw [SecretKey.fromSecrets, bytes_toList, ok_bind, bytes_toList, ok_bind]
  rfl

theorem leaf_inside (secrets : Block (leaves * elementsLength)) :
    ((0 : UInt32).toNat + 1) * elementsLength ≤ secrets.toList.length :=
  Nat.le_of_eq (List.Vector.toList_length secrets).symm

variable [Keccak]

theorem verifyingKey_eq (secrets : Block (leaves * elementsLength)) (parameter : Parameter) :
    (SecretKey.mk secrets parameter).verifyingKey
      = .ok ⟨(((SolanaWinternitz.Winternitz.SecretKey.mk secrets parameter).verifyingKey).eval
          keccak256).bytes⟩ := by
  have hends := endsOf_eq parameter (leaf_inside secrets)
  have hhash := leafHash_eq parameter 0 (Signing.chainEnds secrets.toList parameter 0)
  have hzero : ((UInt32.toNat 0 : Nat) : Int) = 0 := rfl
  rw [hzero] at hends hhash
  unfold SecretKey.verifyingKey
  dsimp only
  rw [hends, hhash, SolanaWinternitz.Winternitz.SecretKey.eval_verifyingKey]
  exact VerifyingKey.fromBytes_new _ parameter

theorem signAtWithSalt_eq (secrets : Block (leaves * elementsLength)) (parameter : Parameter)
    (leaf : UInt32) (message : Message) (salt : Salt) :
    ((SecretKey.mk secrets parameter).signAtWithSalt (.integer leaf.toNat) message.toList
        salt.toList).toOption.map Signature.toBytes
      = (((SolanaWinternitz.Winternitz.SecretKey.mk secrets parameter).signAtWithSalt leaf message
          salt).eval keccak256).map fun sig => sig.bytes.toList := by
  have hsign := signLeaf_eq parameter (leaf_inside secrets) message salt
  have hzero : ((UInt32.toNat 0 : Nat) : Int) = 0 := rfl
  rw [hzero] at hsign
  rw [SolanaWinternitz.Winternitz.SecretKey.eval_signAtWithSalt]
  unfold SecretKey.signAtWithSalt
  by_cases hleaf : leaf = 0
  · subst hleaf
    rw [if_neg (by decide), if_neg (by decide), bytes_toList, ok_bind, bytes_toList, ok_bind, hsign]
    cases (SolanaWinternitz.encode salt parameter 0 message).eval keccak256 with
    | none => rfl
    | some x =>
      dsimp only
      rw [ok_bind, Option.map_some, Option.map_some,
        ← SolanaWinternitz.Winternitz.signatureOf_toList, Signature.fromBytes, bytes_toList]
      rfl
  · have hne : Number.integer leaf.toNat ≠ .integer 0 := by
      intro h
      exact hleaf (UInt32.toNat_inj.mp (Int.ofNat_inj.mp (Number.integer.inj h)))
    rw [if_pos hne, if_pos hleaf]
    rfl

end Ts.Winternitz

theorem Winternitz.of_twins [Keccak] {secrets : Bytes} {parameter : Parameter}
    {key : Winternitz.SecretKey} {key' : Ts.Winternitz.SecretKey}
    (h : Twins secrets parameter key key') :
    ∃ s : Block (leaves * elementsLength), key = ⟨s, parameter⟩ ∧ key' = ⟨s, parameter⟩ := by
  obtain ⟨s, rfl, rfl⟩ := SecretKey.of_fromSecrets (builds_iff.mp h.rust)
  have hts := h.ts
  change Ts.Winternitz.SecretKey.fromSecrets _ _ = _ at hts
  rw [Ts.Winternitz.fromSecrets_eq] at hts
  exact ⟨s, rfl, (Except.ok.inj hts).symm⟩

instance [Keccak] : SameOneTime Winternitz.SecretKey Ts.Winternitz.SecretKey where
  leaves := rfl
  height := rfl
  exists_twin {secrets parameter key} h := by
    obtain ⟨s, rfl, rfl⟩ := Winternitz.SecretKey.of_fromSecrets (Winternitz.builds_iff.mp h)
    exact ⟨_, h, Ts.Winternitz.fromSecrets_eq s parameter⟩
  secrets h := by
    obtain ⟨s, rfl, rfl⟩ := Winternitz.of_twins h
    rfl
  verifyingKey {_ parameter _ _} h := by
    obtain ⟨s, rfl, rfl⟩ := Winternitz.of_twins h
    exact Ts.Winternitz.verifyingKey_eq s parameter
  sign {_ parameter _ _} h leaf message salt := by
    obtain ⟨s, rfl, rfl⟩ := Winternitz.of_twins h
    exact Ts.Winternitz.signAtWithSalt_eq s parameter leaf message salt

/-! ## The 256-leaf instance -/

namespace Ts.Xmss

open SolanaWinternitz.Xmss (level_add_lt siblingIndex_lt xor_one_eq)

variable [Keccak]

/-- The secret key that `fromSecrets` builds. -/
def builtKey (secrets : Block (leaves * elementsLength)) (parameter : Parameter) : SecretKey :=
  ⟨secrets, parameter, SecretKey.buildNodes secrets.toList parameter.toList⟩

theorem fromSecrets_eq (secrets : Block (leaves * elementsLength)) (parameter : Parameter) :
    SecretKey.fromSecrets secrets.toList parameter.toList = .ok (builtKey secrets parameter) := by
  rw [SecretKey.fromSecrets, bytes_toList, ok_bind, bytes_toList, ok_bind]
  rfl

/-- The two built keys hold the same nodes. -/
theorem builtKey_nodes (secrets : Block (leaves * elementsLength)) (parameter : Parameter) {i : Nat}
    (hi : i < 2 * leaves - 1) :
    (builtKey secrets parameter).nodes i
      = ((SolanaWinternitz.Xmss.builtKey secrets parameter).nodes.get i).toList := by
  rw [SolanaWinternitz.Xmss.builtKey_nodes]
  exact agree_buildNodes parameter (List.Vector.toList_length secrets) i hi

theorem verifyingKey_eq (secrets : Block (leaves * elementsLength)) (parameter : Parameter) :
    (builtKey secrets parameter).verifyingKey
      = .ok ⟨(SolanaWinternitz.Xmss.builtKey secrets parameter).verifyingKey.bytes⟩ := by
  have hroot := builtKey_nodes secrets parameter (i := SolanaWinternitz.Xmss.level height)
    (by decide)
  unfold SecretKey.verifyingKey SolanaWinternitz.Xmss.SecretKey.verifyingKey
  rw [levelOffset_eq (le_refl height), hroot, SolanaWinternitz.Xmss.builtKey_parameter]
  exact VerifyingKey.fromBytes_new _ parameter

/-- The path in both languages: the siblings of the ancestors of the leaf. -/
theorem path_eq (secrets : Block (leaves * elementsLength)) (parameter : Parameter) {leaf : UInt32}
    (hleaf : leaf.toNat < leaves) :
    ((builtKey secrets parameter).path leaf.toNat).flatten
      = ((SolanaWinternitz.Xmss.builtKey secrets parameter).path leaf).toList := by
  have hleaf256 : leaf.toNat < 256 := hleaf
  unfold SecretKey.path SolanaWinternitz.Xmss.SecretKey.path
  rw [map_range, flatten_toList, flattenList_eq]
  congr 2
  funext l
  have hl : l.val < 8 := l.isLt
  have hsibling : bitXor (shiftRight leaf.toNat l) 1 = ((leaf.toNat >>> l.val) ^^^ 1 : Nat) := by
    have hlt : leaf.toNat / 2 ^ l.val < 2 ^ 31 :=
      lt_of_le_of_lt (Nat.div_le_self _ _) (lt_trans hleaf256 (by decide))
    have hxor := bitXor_natCast hlt (show 1 < 2 ^ 31 by decide)
    rw [shiftRight_natCast (lt_trans hleaf256 (by decide)) (by omega), Nat.shiftRight_eq_div_pow]
    exact hxor
  have hinside : SolanaWinternitz.Xmss.level l + ((leaf.toNat >>> l.val) ^^^ 1)
      < 2 * leaves - 1 := by
    refine level_add_lt (le_of_lt hl) ?_
    rw [xor_one_eq, Nat.shiftRight_eq_div_pow]
    exact siblingIndex_lt hleaf hl
  have hnode := builtKey_nodes secrets parameter hinside
  push_cast at hnode
  rw [levelOffset_eq (le_of_lt hl), hsibling]
  exact hnode

theorem signAtWithSalt_eq (secrets : Block (leaves * elementsLength)) (parameter : Parameter)
    (leaf : UInt32) (message : Message) (salt : Salt) :
    ((builtKey secrets parameter).signAtWithSalt (.integer leaf.toNat) message.toList
        salt.toList).toOption.map Signature.toBytes
      = (((SolanaWinternitz.Xmss.builtKey secrets parameter).signAtWithSalt leaf message salt).eval
          keccak256).map fun sig => sig.bytes.toList := by
  have hleaves : ((leaf.toNat : Int) < 0 ∨ (leaf.toNat : Int) ≥ leaves)
      ↔ leaf ≥ UInt32.ofNat leaves := by
    have hnat : leaf ≥ UInt32.ofNat leaves ↔ leaves ≤ leaf.toNat := UInt32.le_iff_toNat_le
    rw [hnat]
    omega
  rw [SolanaWinternitz.Xmss.SecretKey.eval_signAtWithSalt, SolanaWinternitz.Xmss.builtKey_parameter,
    SolanaWinternitz.Xmss.builtKey_secrets]
  unfold SecretKey.signAtWithSalt
  dsimp only
  by_cases hleaf : leaf ≥ UInt32.ofNat leaves
  · rw [if_pos hleaf, if_pos (hleaves.mpr hleaf)]
    rfl
  · have hlt : leaf.toNat < leaves := SolanaWinternitz.Xmss.lt_leaves hleaf
    have hinside : (leaf.toNat + 1) * elementsLength ≤ secrets.toList.length := by
      rw [List.Vector.toList_length]
      exact Nat.mul_le_mul_right _ hlt
    have hsign := signLeaf_eq parameter hinside message salt
    rw [if_neg hleaf, if_neg (mt hleaves.mp hleaf), bytes_toList, ok_bind, bytes_toList, ok_bind]
    have hkey : (builtKey secrets parameter).secrets = secrets ∧
      (builtKey secrets parameter).parameter = parameter := ⟨rfl, rfl⟩
    rw [hkey.1, hkey.2, hsign]
    cases (SolanaWinternitz.encode salt parameter leaf message).eval keccak256 with
    | none => rfl
    | some x =>
      dsimp only
      rw [ok_bind, Option.map_some, Option.map_some, concat_eq, List.flatten_cons,
        List.flatten_cons,
        path_eq secrets parameter hlt, u32be_natCast, List.append_assoc,
        ← SolanaWinternitz.Xmss.signatureOf_toList, Signature.fromBytes, bytes_toList]
      rfl

end Ts.Xmss

theorem Xmss.of_twins [Keccak] {secrets : Bytes} {parameter : Parameter}
    {key : Xmss.SecretKey} {key' : Ts.Xmss.SecretKey} (h : Twins secrets parameter key key') :
    ∃ s : Block (leaves * elementsLength),
      key = builtKey s parameter ∧ key' = Ts.Xmss.builtKey s parameter := by
  obtain ⟨s, rfl, rfl⟩ := SecretKey.of_fromSecrets h.rust
  have hts := h.ts
  change Ts.Xmss.SecretKey.fromSecrets _ _ = _ at hts
  rw [Ts.Xmss.fromSecrets_eq] at hts
  exact ⟨s, rfl, (Except.ok.inj hts).symm⟩

instance [Keccak] : SameOneTime Xmss.SecretKey Ts.Xmss.SecretKey where
  leaves := rfl
  height := rfl
  exists_twin {secrets parameter key} h := by
    obtain ⟨s, rfl, rfl⟩ := Xmss.SecretKey.of_fromSecrets h
    exact ⟨_, h, Ts.Xmss.fromSecrets_eq s parameter⟩
  secrets h := by
    obtain ⟨s, rfl, rfl⟩ := Xmss.of_twins h
    show s.toList = (Xmss.builtKey s _).secrets.toList
    rw [Xmss.builtKey_secrets]
  verifyingKey {_ parameter _ _} h := by
    obtain ⟨s, rfl, rfl⟩ := Xmss.of_twins h
    rw [Xmss.eval_verifyingKey]
    exact Ts.Xmss.verifyingKey_eq s parameter
  sign {_ parameter _ _} h leaf message salt := by
    obtain ⟨s, rfl, rfl⟩ := Xmss.of_twins h
    exact Ts.Xmss.signAtWithSalt_eq s parameter leaf message salt

instance [Keccak] : (k : Instance) → SameOneTime k.SecretKey (Ts.SecretKey k)
  | .winternitz => inferInstanceAs (SameOneTime Winternitz.SecretKey Ts.Winternitz.SecretKey)
  | .xmss => inferInstanceAs (SameOneTime Xmss.SecretKey Ts.Xmss.SecretKey)

/-! ## Random sources -/

/-- How a failure of a source is seen in each language. -/
structure Failure where
  rust : SigningError
  ts : Ts.Thrown

/-- A source of random bytes with a state: it fills a buffer of `n` bytes or fails. -/
abbrev SharedSource (σ : Type) := (n : Nat) → σ → Except Failure (Block n) × σ

namespace SharedSource

variable {σ : Type}

/-- The source as the Rust code sees it; the other calls are answered by `other`. -/
def handler (source : SharedSource σ) (other : (c : Call String) → σ → Answer SigningError c × σ) :
    (c : Call String) → σ → Answer SigningError c × σ
  | .fill n, s => ((source n s).1.mapError Failure.rust, (source n s).2)
  | c, s => other c s

/-- The source as the TypeScript code sees it. -/
def fill (source : SharedSource σ) : Ts.FillRandom σ := fun n s =>
  ((source n s).1.mapError Failure.ts, (source n s).2)

/-- The two languages pass on the same failure of the source. -/
def Fails (source : SharedSource σ) (e : SigningError) (e' : Ts.Thrown) : Prop :=
  ∃ n s f, (source n s).1 = .error f ∧ e = f.rust ∧ e' = f.ts

theorem sameRun_fill (source : SharedSource σ)
    (other : (c : Call String) → σ → Answer SigningError c × σ) (n : Nat) (s : σ) :
    SameRun source.Fails Eq Eq
      ((callerFill n).run.run (source.handler other) s) (source.fill n s) := by
  rw [run_callerFill]
  show SameRun _ _ _ ((source n s).1.mapError Failure.rust, (source n s).2)
    ((source n s).1.mapError Failure.ts, (source n s).2)
  cases h : (source n s).1 with
  | ok b => exact .ok rfl rfl
  | error f => exact .error ⟨n, s, f, h, rfl, rfl⟩ rfl

end SharedSource

/-- The same reason not to sign: there is no such leaf, 4096 salts missed, or the source failed. -/
inductive SameRefusal {σ : Type} (source : SharedSource σ) : SigningError → Ts.Thrown → Prop
  | invalidLeaf (text : String) : SameRefusal source .invalidLeaf (.of .invalidLeaf text)
  | saltsExhausted (text : String) : SameRefusal source .saltsExhausted (.of .saltsExhausted text)
  | source {e : SigningError} {e' : Ts.Thrown} (h : source.Fails e e') :
      SameRefusal source e (Ts.rethrow .random e')

variable [Keccak] {σ : Type} (source : SharedSource σ)
  (other : (c : Call String) → σ → Answer SigningError c × σ)

/-- The same salt, and it is accepted. -/
def SameSalt (parameter : Parameter) (leaf : UInt32) (message : Message) (salt : Salt)
    (salt' : Bytes) : Prop :=
  salt' = salt.toList ∧ ((encode salt parameter leaf message).eval keccak256).isSome

/-- The loop of `sample_salt` in both languages. -/
theorem sameRun_sampleTrials (parameter : Parameter) (leaf : UInt32) (message : Message) :
    ∀ (trials : Nat) (s : σ),
      SameRun (SameRefusal source) (SameSalt parameter leaf message) Eq
        ((sampleTrials parameter leaf message callerFill trials).run.run (source.handler other) s)
        (Ts.sampleTrials parameter.toList leaf.toNat message.toList source.fill trials s) := by
  intro trials
  induction trials with
  | zero => exact fun s => .error (.saltsExhausted _) rfl
  | succ trials ih =>
    intro s
    refine SameRun.bind (R := Eq) ?_ ?_
    · exact SameRun.onThrow (source.sameRun_fill other saltLength s) fun e e' h => .source h
    · rintro salt _ s _ rfl rfl
      rw [Ts.encode_eq, Option.isSome_map]
      by_cases hx : ((encode salt parameter leaf message).eval keccak256).isSome = true
      · rw [if_pos hx, if_pos hx]
        exact .ok ⟨rfl, hx⟩ rfl
      · rw [if_neg hx, if_neg hx]
        exact ih s

theorem sameRun_sampleSalt (parameter : Parameter) (leaf : UInt32) (message : Message) (s : σ) :
    SameRun (SameRefusal source) (SameSalt parameter leaf message) Eq
      ((sampleSalt parameter leaf message callerFill).run.run (source.handler other) s)
      (Ts.sampleSalt parameter.toList leaf.toNat message.toList source.fill s) :=
  sameRun_sampleTrials source other parameter leaf message maxTrials s

variable {K K' : Type} [OneTime K] [LawfulOneTime K] [Ts.OneTime K'] [SameOneTime K K']

/-- Secrets of the right length give twins. -/
theorem exists_twins {secrets : Bytes} (parameter : Parameter)
    (h : secrets.length = (OneTime.leaves K).toNat * elementsLength) :
    ∃ (key : K) (key' : K'), Twins secrets parameter key key' := by
  obtain ⟨key, hkey⟩ := LawfulOneTime.exists_builds (K := K) secrets parameter h
  exact ⟨key, SameOneTime.exists_twin hkey⟩

/-- `sign_at` and `signAt`: the same salts are sampled and the same signature is made. -/
theorem sameRun_signAt {secrets : Bytes} {parameter : Parameter} {key : K} {key' : K'}
    (h : Twins secrets parameter key key') (leaf : UInt32) (message : Message) (s : σ) :
    SameRun (SameRefusal source)
      (fun sig sig' => Ts.OneTime.toBytes sig' = SealedSignature.asBytes sig) Eq
      ((signAt key leaf message callerFill).run.run (source.handler other) s)
      (Ts.signAt key' parameter.toList (.integer leaf.toNat) message.toList source.fill s) := by
  obtain ⟨-, -, hparameter⟩ := LawfulOneTime.of_builds h.rust
  have hleaves : ((leaf.toNat : Int) < 0 ∨ (leaf.toNat : Int) ≥ Ts.OneTime.leaves K')
      ↔ leaf ≥ OneTime.leaves K := by
    have hnat : leaf ≥ OneTime.leaves K ↔ (OneTime.leaves K).toNat ≤ leaf.toNat :=
      UInt32.le_iff_toNat_le
    rw [hnat, SameOneTime.leaves (K := K)]
    omega
  unfold signAt Ts.signAt
  dsimp only
  by_cases hleaf : leaf ≥ OneTime.leaves K
  · rw [if_pos hleaf, if_pos (hleaves.mpr hleaf)]
    exact .error (.invalidLeaf _) rfl
  · rw [if_neg hleaf, if_neg (mt hleaves.mp hleaf), hparameter, Ts.bytes_toList,
      Js.ofExcept_ok_bind]
    refine SameRun.bind (sameRun_sampleSalt source other parameter leaf message s) ?_
    rintro salt _ s _ ⟨rfl, hx⟩ rfl
    -- An accepted salt signs, so neither side ends in an error of its own.
    obtain ⟨sig, hsig⟩ := Option.isSome_iff_exists.mp
      ((LawfulOneTime.sign_isSome h.rust leaf message salt).mpr ⟨UInt32.not_le.mp hleaf, hx⟩)
    have hsame := SameOneTime.sign h leaf message salt
    rw [hsig] at hsame ⊢
    cases hts : Ts.OneTime.signAtWithSalt key' (.integer leaf.toNat) message.toList salt.toList with
    | error e =>
      rw [hts] at hsame
      cases hsame
    | ok sig' =>
      rw [hts] at hsame
      exact .ok (Option.some.inj hsame) rfl

/-! ## Generating a key -/

omit [Keccak] in
/-- Both write the chain starts leaf by leaf, here into one array and there in a list of chunks. -/
theorem sameRun_fillSecrets : ∀ (n : Nat) (pre : Bytes) (s : σ),
    SameRun source.Fails
      (fun rest out => out = pre ++ rest ∧ rest.length = n * elementsLength) Eq
      ((fillLeaves callerFill n).run.run (source.handler other) s)
      (Ts.fillSecrets source.fill n pre.length
        (pre ++ List.replicate (n * elementsLength) 0) s) := by
  intro n
  induction n with
  | zero =>
    intro pre s
    exact .ok ⟨by rw [Nat.zero_mul]; rfl, by rw [Nat.zero_mul]; rfl⟩ rfl
  | succ n ih =>
    intro pre s
    refine SameRun.bind (R := Eq) (source.sameRun_fill other elementsLength s) ?_
    rintro chunk _ s _ rfl rfl
    have hwrite : setBytes (pre ++ List.replicate ((n + 1) * elementsLength) 0) pre.length
        chunk.toList = (pre ++ chunk.toList) ++ List.replicate (n * elementsLength) 0 := by
      rw [Nat.add_mul, Nat.one_mul, Nat.add_comm, List.replicate_add, List.append_assoc]
      exact setBytes_append rfl (by simp)
    have hoffset : pre.length + elementsLength = (pre ++ chunk.toList).length := by simp
    rw [hwrite, hoffset]
    refine SameRun.mapLeft (ih (pre ++ chunk.toList) s) ?_
    rintro rest out ⟨rfl, hlen⟩
    refine ⟨List.append_assoc _ _ _, ?_⟩
    rw [List.length_append, List.Vector.toList_length, hlen, Nat.add_mul, Nat.one_mul, Nat.add_comm]

theorem sameRun_generate (s : σ) :
    SameRun (fun e e' => ∃ t, source.Fails e t ∧ e' = Ts.rethrow .random t)
      (fun (key : K) (key' : K') => ∃ secrets parameter, Twins secrets parameter key key') Eq
      ((generate K callerFill).run.run (source.handler other) s)
      (Ts.generate K' source.fill s) := by
  unfold generate Ts.generate Ts.generateKey
  rw [SameOneTime.leaves (K := K)]
  refine SameRun.onThrow (E := source.Fails) ?_ fun e t h => ⟨t, h, rfl⟩
  refine SameRun.bind (sameRun_fillSecrets source other _ [] s) ?_
  rintro _ secrets s _ ⟨rfl, hlen⟩ rfl
  refine SameRun.bind (R := Eq) (source.sameRun_fill other parameterLen s) ?_
  rintro parameter _ s _ rfl rfl
  obtain ⟨key, key', htwins⟩ : ∃ (key : K) (key' : K'), Twins secrets parameter key key' :=
    exists_twins parameter hlen
  have hts := htwins.ts
  rw [hts]
  have hrust : (OneTime.fromSecrets secrets parameter).eval keccak256 = .ok key := htwins.rust
  rw [hrust]
  exact .ok ⟨secrets, parameter, htwins⟩ rfl

/-! ## Both instances -/

/--
**The two raw signers agree byte for byte.** The same secrets and parameter give a key in each
language. The keys have the same encoded verifying key, sign exactly the same leaves, messages and
salts, with the same bytes, and `sign_at` and `signAt` take the same bytes from any random source
and return the same signature or refuse for the same reason.
-/
theorem raw_signers_agree (k : Instance)
    (secrets : Block ((OneTime.leaves k.SecretKey).toNat * elementsLength))
    (parameter : Parameter) :
    ∃ (key : k.SecretKey) (key' : Ts.SecretKey k),
      (OneTime.fromSecrets secrets.toList parameter).eval keccak256 = .ok key ∧
      Ts.OneTime.fromSecrets secrets.toList parameter.toList = .ok key' ∧
      Ts.OneTime.verifyingKey key' = .ok ⟨((OneTime.verifyingKey key).eval keccak256).bytes⟩ ∧
      (∀ leaf message salt,
        (Ts.OneTime.signAtWithSalt key' (.integer (UInt32.toNat leaf)) message.toList
            salt.toList).toOption.map Ts.OneTime.toBytes
          = ((OneTime.signAtWithSalt key leaf message salt).eval keccak256).map
              SealedSignature.asBytes) ∧
      ∀ (σ : Type) (source : SharedSource σ)
        (other : (c : Call String) → σ → Answer SigningError c × σ) (s : σ) leaf message,
        SameRun (SameRefusal source)
          (fun sig sig' => Ts.OneTime.toBytes sig' = SealedSignature.asBytes sig) Eq
          ((signAt key leaf message callerFill).run.run (source.handler other) s)
          (Ts.signAt key' parameter.toList (.integer (UInt32.toNat leaf)) message.toList
            source.fill s) := by
  obtain ⟨key, key', h⟩ : ∃ (key : k.SecretKey) (key' : Ts.SecretKey k),
      Twins secrets.toList parameter key key' :=
    exists_twins parameter (List.Vector.toList_length secrets)
  refine ⟨key, key', h.rust, h.ts, SameOneTime.verifyingKey h, fun leaf message salt => ?_,
    fun σ source other s leaf message => ?_⟩
  · exact SameOneTime.sign h leaf message salt
  · exact sameRun_signAt source other h leaf message s

/--
**`generate` builds the same key in both languages.** Every random source is asked for the same
bytes in the same order and left in the same state. Either both sides have a key built from the same
secrets and parameter, or both fail with what the source failed with.
-/
theorem generate_agree (k : Instance) (σ : Type) (source : SharedSource σ)
    (other : (c : Call String) → σ → Answer SigningError c × σ) (s : σ) :
    SameRun (fun e e' => ∃ t, source.Fails e t ∧ e' = Ts.rethrow .random t)
      (fun (key : k.SecretKey) (key' : Ts.SecretKey k) =>
        ∃ secrets parameter, Twins secrets parameter key key') Eq
      ((generate k.SecretKey callerFill).run.run (source.handler other) s)
      (Ts.generate (Ts.SecretKey k) source.fill s) :=
  sameRun_generate source other s

/-! ## Keys that work alike -/

/--
Two keys that cannot be told apart by what they sign: the same encoded verifying key, the same
signatures with any salt, and `sign_at` and `signAt` take the same bytes from any random source and
return the same signature or refuse for the same reason.
-/
structure RawAlike (k : Instance) (key : k.SecretKey) (key' : Ts.SecretKey k) : Prop where
  verifyingKey :
    Ts.OneTime.verifyingKey key' = .ok ⟨((OneTime.verifyingKey key).eval keccak256).bytes⟩
  signAtWithSalt : ∀ leaf message salt,
    (Ts.OneTime.signAtWithSalt key' (.integer (UInt32.toNat leaf)) message.toList
        salt.toList).toOption.map Ts.OneTime.toBytes
      = ((OneTime.signAtWithSalt key leaf message salt).eval keccak256).map SealedSignature.asBytes
  signAt : ∀ (σ : Type) (source : SharedSource σ)
    (other : (c : Call String) → σ → Answer SigningError c × σ) (s : σ) leaf message,
    SameRun (SameRefusal source)
      (fun sig sig' => Ts.OneTime.toBytes sig' = SealedSignature.asBytes sig) Eq
      ((SolanaWinternitz.signAt key leaf message callerFill).run.run (source.handler other) s)
      (Ts.SecretKey.signAt k key' (.integer (UInt32.toNat leaf)) message.toList source.fill s)

/-- The parameter that the key passes on is the one it was built from. -/
theorem Twins.signAt_eq {k : Instance} {secrets : Bytes} {parameter : Parameter}
    {key : k.SecretKey} {key' : Ts.SecretKey k} (h : Twins secrets parameter key key') :
    Ts.SecretKey.signAt (σ := σ) k key' = Ts.signAt key' parameter.toList := by
  cases k with
  | winternitz =>
    obtain ⟨s, rfl, rfl⟩ := Winternitz.of_twins h
    rfl
  | xmss =>
    obtain ⟨s, rfl, rfl⟩ := Xmss.of_twins h
    rfl

theorem Twins.rawAlike {k : Instance} {secrets : Bytes} {parameter : Parameter}
    {key : k.SecretKey} {key' : Ts.SecretKey k} (h : Twins secrets parameter key key') :
    RawAlike k key key' where
  verifyingKey := SameOneTime.verifyingKey h
  signAtWithSalt := SameOneTime.sign h
  signAt σ source other s leaf message := by
    rw [h.signAt_eq]
    exact sameRun_signAt source other h leaf message s

/--
**Raw keys are interchangeable.** Secrets and a parameter of the right length give a key in each
language, and `generate` asks any random source for the same bytes in the same order and ends with a
key in both languages, or with what the source failed with. In both cases the two keys are built
from the same secrets and parameter and work alike.
-/
theorem raw_signers_interchangeable (k : Instance) :
    (∀ (secrets : Block ((OneTime.leaves k.SecretKey).toNat * elementsLength))
        (parameter : Parameter),
      ∃ (key : k.SecretKey) (key' : Ts.SecretKey k),
        (OneTime.fromSecrets secrets.toList parameter).eval keccak256 = .ok key ∧
        Ts.OneTime.fromSecrets secrets.toList parameter.toList = .ok key' ∧
        RawAlike k key key') ∧
    ∀ (σ : Type) (source : SharedSource σ)
      (other : (c : Call String) → σ → Answer SigningError c × σ) (s : σ),
      SameRun (fun e e' => ∃ t, source.Fails e t ∧ e' = Ts.rethrow .random t)
        (fun (key : k.SecretKey) (key' : Ts.SecretKey k) =>
          (∃ secrets parameter, Twins secrets parameter key key') ∧ RawAlike k key key') Eq
        ((generate k.SecretKey callerFill).run.run (source.handler other) s)
        (Ts.generate (Ts.SecretKey k) source.fill s) := by
  refine ⟨fun secrets parameter => ?_, fun σ source other s => ?_⟩
  · obtain ⟨key, key', h⟩ : ∃ (key : k.SecretKey) (key' : Ts.SecretKey k),
        Twins secrets.toList parameter key key' :=
      exists_twins parameter (List.Vector.toList_length secrets)
    exact ⟨key, key', h.rust, h.ts, h.rawAlike⟩
  · refine (sameRun_generate source other s).imp fun key key' htwins => ⟨htwins, ?_⟩
    obtain ⟨secrets, parameter, h⟩ := htwins
    exact h.rawAlike

end SolanaWinternitz
