import SolanaWinternitz.Properties.SignVerify

/-!
# How `from_secrets` fills the node array

The loops of `from_secrets` run on an array that keeps a log of the slots they read and write.
`traced_build` says that the log is all that is added.

* `Fills n log m` — the log writes the slots from `n` to `m`, each once and in order, and reads a
  slot only below the one to write next
* `fills_accesses` — so does the log of `from_secrets`, from slot 0 to slot 511
* `merkle_congr` — a node depends on the leaves below it only
* `node_array` — the array is the Merkle tree, and every leaf's path leads through it to the root
-/

namespace Infra

/-- A node depends on the leaves below it only. -/
theorem merkle_congr {α : Type} (f : Nat → Nat → α → α → α) {leaf leaf' : Nat → α} :
    ∀ {l i : Nat}, (∀ j, i * 2 ^ l ≤ j → j < (i + 1) * 2 ^ l → leaf j = leaf' j) →
      merkle f leaf l i = merkle f leaf' l i := by
  intro l
  induction l with
  | zero =>
    intro i h
    exact h i (by omega) (by omega)
  | succ l ih =>
    intro i h
    -- The leaves below a node are those below its left child, then those below its right child.
    have hpow : 2 ^ (l + 1) = 2 * 2 ^ l := by rw [Nat.pow_succ, Nat.mul_comm]
    have hleft : i * 2 ^ (l + 1) = 2 * i * 2 ^ l := by rw [hpow]; ring
    have hright : (i + 1) * 2 ^ (l + 1) = (2 * i + 1 + 1) * 2 ^ l := by rw [hpow]; ring
    have hmid : 2 * i * 2 ^ l ≤ (2 * i + 1) * 2 ^ l := Nat.mul_le_mul_right _ (by omega)
    have hmid' : (2 * i + 1) * 2 ^ l ≤ (2 * i + 1 + 1) * 2 ^ l := Nat.mul_le_mul_right _ (by omega)
    rw [hleft, hright] at h
    rw [merkle, merkle, ih fun j hj hj' => h j hj (by omega),
      ih fun j hj hj' => h j (by omega) hj']

/-! ## Logs of array accesses -/

/-- One access to an array. -/
inductive Access where
  | read (i : Nat)
  | write (i : Nat)
deriving DecidableEq

/-- The slots written, in order. -/
def writes (log : List Access) : List Nat :=
  log.filterMap fun
    | .read _ => none
    | .write i => some i

/-- From slots `0..n` filled to slots `0..m` filled, reading filled slots only. -/
inductive Fills : Nat → List Access → Nat → Prop where
  | nil (n : Nat) : Fills n [] n
  | read {n m i : Nat} {log : List Access} (h : i < n) (rest : Fills n log m) :
      Fills n (.read i :: log) m
  | write {n m : Nat} {log : List Access} (rest : Fills (n + 1) log m) :
      Fills n (.write n :: log) m

namespace Fills

theorem append {n k m : Nat} {log log' : List Access} (h : Fills n log k) (h' : Fills k log' m) :
    Fills n (log ++ log') m := by
  induction h with
  | nil n => exact h'
  | read hi rest ih => exact Fills.read hi (ih h')
  | write rest ih => exact Fills.write (ih h')

/-- **Every slot is written once.** -/
theorem writes_eq {n m : Nat} {log : List Access} (h : Fills n log m) :
    n ≤ m ∧ writes log = List.range' n (m - n) := by
  induction h with
  | nil n => simp [writes]
  | read hi rest ih => exact ih
  | @write n m log rest ih =>
    obtain ⟨hle, hw⟩ := ih
    refine ⟨by omega, ?_⟩
    rw [show m - n = m - (n + 1) + 1 by omega, List.range'_succ, ← hw]
    rfl

/-- **A slot is read after it was written**, or was filled from the start. -/
theorem of_read {n m : Nat} {log : List Access} (h : Fills n log m) :
    ∀ {pre post : List Access} {i : Nat}, log = pre ++ .read i :: post →
      i < n ∨ .write i ∈ pre := by
  induction h with
  | nil n =>
    intro pre post i hlog
    simp at hlog
  | read hi rest ih =>
    intro pre post i hlog
    rcases List.cons_eq_append_iff.mp hlog with ⟨rfl, hread⟩ | ⟨tail, rfl, htail⟩
    · simp at hread
      exact Or.inl (hread.1 ▸ hi)
    · rcases ih htail with hlt | hmem
      · exact Or.inl hlt
      · exact Or.inr (List.mem_cons_of_mem _ hmem)
  | @write n m log rest ih =>
    intro pre post i hlog
    rcases List.cons_eq_append_iff.mp hlog with ⟨rfl, hread⟩ | ⟨tail, rfl, htail⟩
    · simp at hread
    · rcases ih htail with hlt | hmem
      · rcases Nat.lt_succ_iff_lt_or_eq.mp hlt with hlt | rfl
        · exact Or.inl hlt
        · exact Or.inr (by simp)
      · exact Or.inr (List.mem_cons_of_mem _ hmem)

/-- A counting loop whose round `i` fills slot `base + i`. -/
theorem loop {base : Nat} {body : Nat → List Access} {n : Nat}
    (h : ∀ i < n, Fills (base + i) (body i) (base + i + 1)) :
    Fills base ((List.range n).flatMap body) (base + n) := by
  induction n with
  | zero => exact Fills.nil base
  | succ n ih =>
    rw [List.range_succ, List.flatMap_append, List.flatMap_singleton]
    exact (ih fun i hi => h i (by omega)).append (h n (by omega))

end Fills

end Infra

namespace SolanaWinternitz.Xmss

open Infra

/-! ## The loops with a log -/

/-- A node array and the accesses made to it so far. -/
structure Traced where
  nodes : Nodes
  log : List Access

instance : Slots Traced where
  get t i := (t.nodes.get i, ⟨t.nodes, t.log ++ [.read i]⟩)
  set t i value := ⟨t.nodes.set i value, t.log ++ [.write i]⟩

/-- `buildNodes` with a log. -/
def Traced.build (secrets : Bytes) (parameter : Parameter) : Hashing Traced :=
  SecretKey.fillNodes secrets parameter ⟨fun _ => zeros elementLength, []⟩

/-- What round `i` of the inner loop accesses: two children, then their parent. -/
def nodeAccesses (l i : Nat) : List Access :=
  [.read (level (l - 1) + 2 * i), .read (level (l - 1) + 2 * i + 1), .write (level l + i)]

def levelAccesses (l : Nat) : List Access :=
  (List.range (leaves >>> l)).flatMap (nodeAccesses l)

/-- All accesses of `from_secrets`. -/
def accesses : List Access :=
  (List.range leaves).flatMap (fun leaf => [.write leaf])
    ++ (List.range' 1 height).flatMap levelAccesses

/-- A loop that differs from another in the log only. -/
theorem foldlM_traced {g : Nodes → Nat → Hashing Nodes} {g' : Traced → Nat → Hashing Traced}
    {acc : Nat → List Access}
    (h : ∀ t b, g' t b = (fun nodes => ⟨nodes, t.log ++ acc b⟩) <$> g t.nodes b) (l : List Nat) :
    ∀ t, l.foldlM g' t = (fun nodes => ⟨nodes, t.log ++ l.flatMap acc⟩) <$> l.foldlM g t.nodes := by
  induction l with
  | nil =>
    intro t
    simp
  | cons b l ih =>
    intro t
    simp only [List.foldlM_cons, h, bind_map_left, ih, map_bind, List.append_assoc,
      List.flatMap_cons]

theorem traced_leafStep (secrets : Bytes) (parameter : Parameter) (t : Traced) (leaf : Nat) :
    SecretKey.leafStep secrets parameter t leaf
      = (fun nodes => ⟨nodes, t.log ++ [.write leaf]⟩)
          <$> SecretKey.leafStep secrets parameter t.nodes leaf := by
  simp only [SecretKey.leafStep, map_bind, map_pure]
  rfl

theorem traced_nodeStep (parameter : Parameter) (l : Nat) (t : Traced) (i : Nat) :
    SecretKey.nodeStep parameter l t i
      = (fun nodes => ⟨nodes, t.log ++ nodeAccesses l i⟩)
          <$> SecretKey.nodeStep parameter l t.nodes i := by
  have hlog : t.log ++ nodeAccesses l i = t.log ++ [.read (level (l - 1) + 2 * i)]
      ++ [.read (level (l - 1) + 2 * i + 1)] ++ [.write (level l + i)] := by
    simp [nodeAccesses]
  simp only [SecretKey.nodeStep, map_bind, map_pure, hlog]
  rfl

theorem traced_levelStep (parameter : Parameter) (t : Traced) (l : Nat) :
    SecretKey.levelStep parameter t l
      = (fun nodes => ⟨nodes, t.log ++ levelAccesses l⟩)
          <$> SecretKey.levelStep parameter t.nodes l :=
  foldlM_traced (traced_nodeStep parameter l) _ t

/-- **The loops with a log are the loops of `from_secrets`**, hash for hash. -/
theorem traced_build (secrets : Bytes) (parameter : Parameter) :
    Traced.build secrets parameter
      = (fun nodes => ⟨nodes, accesses⟩) <$> SecretKey.buildNodes secrets parameter := by
  unfold Traced.build SecretKey.buildNodes SecretKey.fillNodes accesses
  simp only [foldlM_traced (traced_leafStep secrets parameter),
    foldlM_traced (traced_levelStep parameter), bind_map_left, map_bind, List.nil_append]

/-- One level, from the level below it. -/
theorem fills_level {l : Nat} (hl : l < height) :
    Fills (level (l + 1)) (levelAccesses (l + 1)) (level (l + 1) + leaves >>> (l + 1)) := by
  have hbase := level_succ hl
  have hhalf := leaves_shift_succ hl
  refine Fills.loop fun i hi => ?_
  -- The children of node `i` stand in the level below, which ends where this one starts.
  refine Fills.read ?_ (Fills.read ?_ (Fills.write (Fills.nil _))) <;> rw [Nat.add_sub_cancel]
  · omega
  · omega

theorem fills_levels : ∀ top ≤ height,
    Fills leaves ((List.range' 1 top).flatMap levelAccesses) (level top + leaves >>> top) := by
  intro top
  induction top with
  | zero =>
    intro _
    exact Fills.nil _
  | succ top ih =>
    intro htop
    rw [List.range'_concat, List.flatMap_append, List.flatMap_singleton, Nat.one_mul,
      Nat.add_comm 1 top]
    refine (ih (le_of_lt htop)).append ?_
    rw [← level_succ htop]
    exact fills_level htop

/-- **Slots 0 to 510 are written in order, and read only once written.** -/
theorem fills_accesses : Fills 0 accesses (2 * leaves - 1) := by
  have hleaves : Fills 0 ((List.range leaves).flatMap fun leaf => [.write leaf]) (0 + leaves) := by
    refine Fills.loop fun leaf _ => ?_
    rw [Nat.zero_add]
    exact Fills.write (Fills.nil _)
  rw [Nat.zero_add] at hleaves
  exact hleaves.append (fills_levels height (le_refl height))

/-! ## Levels -/

/-- The ranges of two levels are disjoint. -/
theorem level_disjoint {l l' i i' : Nat} (hl : l ≤ height) (hl' : l' ≤ height)
    (hi : i < leaves >>> l) (hi' : i' < leaves >>> l') (h : level l + i = level l' + i') :
    l = l' ∧ i = i' := by
  rcases Nat.lt_trichotomy l l' with hlt | rfl | hlt
  · have hmono := level_mono hlt hl'
    omega
  · exact ⟨rfl, by omega⟩
  · have hmono := level_mono hlt hl
    omega

/-- The levels up to `top` cover the array up to the end of level `top`. -/
theorem level_cover : ∀ top ≤ height, ∀ s < level top + leaves >>> top,
    ∃ l ≤ top, ∃ i < leaves >>> l, s = level l + i := by
  intro top
  induction top with
  | zero =>
    intro _ s hs
    have hzero : level 0 = 0 := rfl
    rw [hzero, Nat.zero_add] at hs
    exact ⟨0, le_refl 0, s, hs, by rw [hzero, Nat.zero_add]⟩
  | succ top ih =>
    intro htop s hs
    have hstart := level_succ htop
    rcases Nat.lt_or_ge s (level (top + 1)) with hlt | hge
    · obtain ⟨l, hl, i, hi, rfl⟩ := ih (by omega) s (hstart ▸ hlt)
      exact ⟨l, by omega, i, hi, rfl⟩
    · exact ⟨top + 1, le_refl _, s - level (top + 1), by omega, by omega⟩

/-! ## The tree -/

variable [Keccak]

/-- **The path of a leaf leads through its ancestors' slots.** -/
theorem climb_slots (secrets : Block (leaves * elementsLength)) (parameter : Parameter)
    {leaf : UInt32} (hleaf : leaf.toNat < leaves) {sig : Signature}
    (hpath : sig.path = (builtKey secrets parameter).path leaf) {l : Nat} (hl : l ≤ height) :
    ((List.range l).foldlM (sig.climbStep parameter leaf)
        ((builtKey secrets parameter).nodes.get leaf.toNat)).eval keccak256
      = (builtKey secrets parameter).nodes.get (level l + leaf.toNat >>> l) := by
  have hstart : (builtKey secrets parameter).nodes.get leaf.toNat
      = leafNode secrets.toList parameter leaf.toNat := by
    have hget := buildNodes_get secrets.toList parameter (Nat.zero_le height) hleaf
    rwa [show level 0 = 0 from rfl, Nat.zero_add, ← builtKey_nodes] at hget
  have hsib : ∀ t < l, chunk elementLength sig.path.toList t
      = merkle (makeNode parameter) (leafNode secrets.toList parameter) t
          (siblingIndex (leaf.toNat / 2 ^ t)) := by
    intro t ht
    rw [hpath]
    exact path_chunk secrets parameter hleaf (by omega)
  rw [Oracle.eval_foldlM, climb_loop sig parameter leaf _ l hl, hstart,
    climb_merkle _ _ _ _ l hsib, Nat.shiftRight_eq_div_pow, builtKey_nodes,
    buildNodes_get secrets.toList parameter hl (index_lt hleaf hl)]
  rfl

/--
**The node array is the Merkle tree.** `from_secrets` writes each of its 511 slots once and reads a
slot only after writing it. Slot `level l + i` is the Merkle node over the leaf hashes
`i * 2 ^ l .. (i + 1) * 2 ^ l`, whatever stands in place of the others; the levels are disjoint and
cover the array. From every leaf, the path that `sign_at_with_salt` writes leads `verify` through
the slots of the leaf's ancestors to the root of the public key.
-/
theorem node_array (secrets : Block (leaves * elementsLength)) (parameter : Parameter) :
    ∃ (key : SecretKey) (log : List Access),
      (SecretKey.fromSecrets secrets.toList parameter).eval keccak256 = .ok key ∧
      (Traced.build secrets.toList parameter).eval keccak256 = ⟨key.nodes, log⟩ ∧
      writes log = List.range (2 * leaves - 1) ∧
      (∀ pre post i, log = pre ++ .read i :: post → .write i ∈ pre) ∧
      (∀ l ≤ height, ∀ i < 2 ^ (height - l), ∀ leaf : Nat → Element,
        (∀ j, i * 2 ^ l ≤ j → j < (i + 1) * 2 ^ l →
          leaf j = leafNode secrets.toList parameter j) →
        key.nodes.get (level l + i) = merkle (makeNode parameter) leaf l i) ∧
      (∀ l ≤ height, ∀ l' ≤ height, ∀ i < 2 ^ (height - l), ∀ i' < 2 ^ (height - l'),
        level l + i = level l' + i' → l = l' ∧ i = i') ∧
      (∀ s, s < 2 * leaves - 1 ↔ ∃ l ≤ height, ∃ i < 2 ^ (height - l), s = level l + i) ∧
      ∀ leaf : UInt32, leaf.toNat < leaves →
        (∀ message salt sig, (key.signAtWithSalt leaf message salt).eval keccak256 = some sig →
          sig.path = key.path leaf) ∧
        ∀ sig : Signature, sig.path = key.path leaf →
          (∀ l ≤ height,
            ((List.range l).foldlM (sig.climbStep parameter leaf)
                (key.nodes.get leaf.toNat)).eval keccak256
              = key.nodes.get (level l + leaf.toNat >>> l)) ∧
          ((List.range height).foldlM (sig.climbStep parameter leaf)
              (key.nodes.get leaf.toNat)).eval keccak256
            = key.verifyingKey.node := by
  obtain ⟨-, hwrites⟩ := fills_accesses.writes_eq
  refine ⟨builtKey secrets parameter, accesses, eval_fromSecrets secrets parameter, ?_, ?_, ?_, ?_,
    ?_, ?_, ?_⟩
  · rw [traced_build, Oracle.eval_map, builtKey_nodes]
  · rw [hwrites, List.range_eq_range', Nat.sub_zero]
  · intro pre post i hlog
    rcases fills_accesses.of_read hlog with hlt | hmem
    · exact absurd hlt (Nat.not_lt_zero i)
    · exact hmem
  · intro l hl i hi leaf hleaf
    rw [builtKey_nodes, merkle_congr _ hleaf,
      buildNodes_get secrets.toList parameter hl (by rwa [leaves_shift hl])]
    rfl
  · intro l hl l' hl' i hi i' hi' h
    rw [← leaves_shift hl] at hi
    rw [← leaves_shift hl'] at hi'
    exact level_disjoint hl hl' hi hi' h
  · intro s
    constructor
    · intro hs
      obtain ⟨l, hl, i, hi, rfl⟩ := level_cover height (le_refl _) s hs
      exact ⟨l, hl, i, by rwa [← leaves_shift hl], rfl⟩
    · rintro ⟨l, hl, i, hi, rfl⟩
      exact level_add_lt hl (by rwa [leaves_shift hl])
  · intro leaf hleaf
    refine ⟨?_, ?_⟩
    · intro message salt sig hsig
      obtain ⟨-, x, -, -, -, -, hpath⟩ := of_signAtWithSalt hsig
      exact hpath
    · intro sig hpath
      refine ⟨fun l hl => climb_slots secrets parameter hleaf hpath hl, ?_⟩
      have hroot : leaf.toNat >>> height = 0 := by
        rw [Nat.shiftRight_eq_div_pow]
        exact Nat.div_eq_of_lt hleaf
      rw [climb_slots secrets parameter hleaf hpath (le_refl _), hroot, Nat.add_zero, builtKey_root,
        verifyingKey_builtKey, VerifyingKey.new_node]

end SolanaWinternitz.Xmss
