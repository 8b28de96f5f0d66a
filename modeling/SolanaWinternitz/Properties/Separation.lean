import SolanaWinternitz.Properties.Forgery

/-!
# Domain separation of the hash calls

* `Label.toBytes_injective` — no two labelled calls hash the same bytes
* `tweaks_nodup` — no two calls of key generation share a tweak
* `asks_fromSecrets`, `asks_sign`, `asks_verify` — key generation, signing and verification hash at
  positions of the key, so that a position has one tweak everywhere
* `cross_winternitz`, `cross_xmss` — a signature of one instance under a key of the other shows two
  inputs with one truncated hash

The kinds differ in length: a message input has 76 bytes, a chain input 48, a leaf input 852 and a
node input 70. Within a kind the fields stand at fixed places.
-/

namespace SolanaWinternitz

open Infra

/-! ## Labels -/

/-- A hash call: its kind and all fields that go into the input. -/
inductive Label where
  | msg (salt : Salt) (parameter : Parameter) (leaf : UInt32) (m : Message)
  | chain (parameter : Parameter) (leaf : UInt32) (i k : UInt8) (value : Element)
  | leaf (parameter : Parameter) (leaf : UInt32) (ends : Elements)
  | node (parameter : Parameter) (level : UInt8) (index : UInt32) (left right : Element)

/-- The bytes that are hashed. -/
def Label.toBytes : Label → Bytes
  | .msg salt parameter epoch m => messageInput salt parameter epoch m
  | .chain parameter epoch i k value => chainInput parameter epoch i k value
  | .leaf parameter epoch ends => treeInput parameter 0 epoch (flatten ends).toList
  | .node parameter level index left right =>
    treeInput parameter level index (left.toList ++ right.toList)

theorem messageInput_length (salt : Salt) (parameter : Parameter) (leaf : UInt32) (m : Message) :
    (messageInput salt parameter leaf m).length = 76 := by
  simp [messageInput]
  rfl

theorem chainInput_size (parameter : Parameter) (leaf : UInt32) (i k : UInt8) (v : Element) :
    (chainInput parameter leaf i k v).length = 48 := by
  simp [chainInput]
  rfl

theorem treeInput_length (parameter : Parameter) (level : UInt8) (index : UInt32)
    (payload : Bytes) :
    (treeInput parameter level index payload).length = 24 + payload.length := by
  have h18 : parameter.toList.length = 18 := List.Vector.toList_length parameter
  have h4 : (u32Be index).toList.length = 4 := List.Vector.toList_length _
  simp only [treeInput, List.length_append, List.length_cons, h18, h4]
  omega

/-- The length of the input, for each kind. -/
def Label.size : Label → Nat
  | .msg .. => 76
  | .chain .. => 48
  | .leaf .. => 852
  | .node .. => 70

theorem Label.toBytes_length (a : Label) : a.toBytes.length = a.size := by
  cases a with
  | msg salt parameter epoch m => exact messageInput_length salt parameter epoch m
  | chain parameter epoch i k value => exact chainInput_size parameter epoch i k value
  | leaf parameter epoch ends =>
    show (treeInput parameter 0 epoch (flatten ends).toList).length = 852
    rw [treeInput_length, List.Vector.toList_length]
    rfl
  | node parameter level index left right =>
    show (treeInput parameter level index (left.toList ++ right.toList)).length = 70
    rw [treeInput_length, List.length_append, List.Vector.toList_length, List.Vector.toList_length]
    rfl

theorem u32Le_injective {u v : UInt32} (h : u32Le u = u32Le v) : u = v := by
  refine u32Be_injective (List.Vector.eq _ _ ?_)
  have hrev := congrArg (fun b : Block 4 => b.toList.reverse) h
  simpa [u32Le, u32Be] using hrev

theorem messageInput_fields {salt salt' : Salt} {parameter parameter' : Parameter}
    {leaf leaf' : UInt32} {m m' : Message}
    (h : messageInput salt parameter leaf m = messageInput salt' parameter' leaf' m') :
    salt = salt' ∧ parameter = parameter' ∧ leaf = leaf' ∧ m = m' := by
  obtain ⟨hsalt, h⟩ := toList_append_inj h
  obtain ⟨hparameter, h⟩ := toList_append_inj h
  obtain ⟨hleaf, h⟩ := toList_append_inj (List.cons.inj h).2
  exact ⟨hsalt, hparameter, u32Le_injective hleaf, List.Vector.eq _ _ h⟩

theorem chainInput_fields {parameter parameter' : Parameter} {leaf leaf' : UInt32}
    {i i' k k' : UInt8} {v v' : Element}
    (h : chainInput parameter leaf i k v = chainInput parameter' leaf' i' k' v') :
    parameter = parameter' ∧ leaf = leaf' ∧ i = i' ∧ k = k' ∧ v = v' := by
  obtain ⟨hparameter, h⟩ := toList_append_inj h
  obtain ⟨hleaf, h⟩ := toList_append_inj (List.cons.inj h).2
  obtain ⟨hi, h⟩ := List.cons.inj h
  obtain ⟨hk, h⟩ := List.cons.inj h
  exact ⟨hparameter, u32Be_injective hleaf, hi, hk, List.Vector.eq _ _ h⟩

theorem treeInput_fields {parameter parameter' : Parameter} {level level' : UInt8}
    {index index' : UInt32} {payload payload' : Bytes}
    (h : treeInput parameter level index payload = treeInput parameter' level' index' payload') :
    parameter = parameter' ∧ level = level' ∧ index = index' ∧ payload = payload' := by
  obtain ⟨hparameter, h⟩ := toList_append_inj h
  obtain ⟨hlevel, h⟩ := List.cons.inj (List.cons.inj h).2
  obtain ⟨hindex, h⟩ := toList_append_inj h
  exact ⟨hparameter, hlevel, u32Be_injective hindex, h⟩

/-- **No two labels have the same bytes**: kinds differ in length, fields stand at fixed places. -/
theorem Label.toBytes_injective : Function.Injective Label.toBytes := by
  intro a b h
  have hlen := congrArg List.length h
  rw [toBytes_length, toBytes_length] at hlen
  cases a with
  | msg salt parameter epoch m =>
    cases b with
    | msg salt' parameter' epoch' m' =>
      obtain ⟨rfl, rfl, rfl, rfl⟩ := messageInput_fields h
      rfl
    | chain => simp [size] at hlen
    | leaf => simp [size] at hlen
    | node => simp [size] at hlen
  | chain parameter epoch i k value =>
    cases b with
    | msg => simp [size] at hlen
    | chain parameter' epoch' i' k' value' =>
      obtain ⟨rfl, rfl, rfl, rfl, rfl⟩ := chainInput_fields h
      rfl
    | leaf => simp [size] at hlen
    | node => simp [size] at hlen
  | leaf parameter epoch ends =>
    cases b with
    | msg => simp [size] at hlen
    | chain => simp [size] at hlen
    | leaf parameter' epoch' ends' =>
      obtain ⟨rfl, -, rfl, hends⟩ := treeInput_fields h
      rw [flattenList_injective hends]
    | node => simp [size] at hlen
  | node parameter level index left right =>
    cases b with
    | msg => simp [size] at hlen
    | chain => simp [size] at hlen
    | leaf => simp [size] at hlen
    | node parameter' level' index' left' right' =>
      obtain ⟨rfl, rfl, rfl, hpair⟩ := treeInput_fields h
      obtain ⟨rfl, hright⟩ := toList_append_inj hpair
      rw [List.Vector.eq _ _ hright]

/-! ## Positions -/

/-- A place in a key where a value is hashed. Step `k` of a chain enters position `k + 1`. -/
inductive Position where
  | step (leaf : Nat) (i : Fin chains) (k : Nat)
  | leaf (leaf : Nat)
  | node (level index : Nat)

namespace Position

/-- The tweak of a position. -/
def tweak : Position → Tweak
  | .step epoch i k => .chain (UInt32.ofNat epoch) (UInt8.ofNat i) (UInt8.ofNat (k + 1))
  | .leaf epoch => .tree 0 (UInt32.ofNat epoch)
  | .node level index => .tree (UInt8.ofNat level) (UInt32.ofNat index)

/-- What is hashed at a position. -/
abbrev Payload : Position → Type
  | .step .. => Element
  | .leaf _ => Elements
  | .node .. => Element × Element

/-- The call at a position. -/
def label (parameter : Parameter) : (p : Position) → p.Payload → Label
  | .step epoch i k, value =>
    .chain parameter (UInt32.ofNat epoch) (UInt8.ofNat i) (UInt8.ofNat (k + 1)) value
  | .leaf epoch, ends => .leaf parameter (UInt32.ofNat epoch) ends
  | .node level index, children =>
    .node parameter (UInt8.ofNat level) (UInt32.ofNat index) children.1 children.2

/-- The call at a position uses the tweak of the position. -/
theorem label_toBytes (parameter : Parameter) (p : Position) (v : p.Payload) :
    ∃ payload, (p.label parameter v).toBytes = tweakedInput parameter p.tweak payload := by
  cases p with
  | step epoch i k => exact ⟨_, (tweakedInput_chain parameter _ _ _ v).symm⟩
  | leaf epoch => exact ⟨_, (tweakedInput_tree parameter _ _ _).symm⟩
  | node level index => exact ⟨_, (tweakedInput_tree parameter _ _ _).symm⟩

/-- The positions of a key with `n` leaves and levels up to `h`. -/
def Valid (n h : Nat) : Position → Prop
  | .step epoch _ k => epoch < n ∧ k < 15
  | .leaf epoch => epoch < n
  | .node level index => 1 ≤ level ∧ level ≤ h ∧ index < n >>> level

theorem chain_toBytes_inj {leaf leaf' : UInt32} {i i' k k' : UInt8}
    (h : (Tweak.chain leaf i k).toBytes = (Tweak.chain leaf' i' k').toBytes) :
    leaf = leaf' ∧ i = i' ∧ k = k' := by
  obtain ⟨hleaf, h⟩ := toList_append_inj (List.cons.inj h).2
  obtain ⟨hi, h⟩ := List.cons.inj h
  exact ⟨u32Be_injective hleaf, hi, (List.cons.inj h).1⟩

theorem tree_toBytes_inj {level level' : UInt8} {index index' : UInt32}
    (h : (Tweak.tree level index).toBytes = (Tweak.tree level' index').toBytes) :
    level = level' ∧ index = index' := by
  obtain ⟨hlevel, h⟩ := List.cons.inj (List.cons.inj h).2
  exact ⟨hlevel, u32Be_injective (List.Vector.eq _ _ h)⟩

theorem chain_ne_tree {leaf index : UInt32} {i k level : UInt8} :
    (Tweak.chain leaf i k).toBytes ≠ (Tweak.tree level index).toBytes := by
  intro h
  exact absurd (List.cons.inj h).1 (by decide)

theorem ofNat32_inj {a b : Nat} (ha : a < 256) (hb : b < 256)
    (h : UInt32.ofNat a = UInt32.ofNat b) : a = b := by
  have hnat := congrArg UInt32.toNat h
  rw [UInt32.toNat_ofNat', UInt32.toNat_ofNat', Nat.mod_eq_of_lt (by omega),
    Nat.mod_eq_of_lt (by omega)] at hnat
  exact hnat

theorem ofNat8_inj {a b : Nat} (ha : a < 256) (hb : b < 256)
    (h : UInt8.ofNat a = UInt8.ofNat b) : a = b := by
  have hnat := congrArg UInt8.toNat h
  rwa [UInt8.toNat_ofNat', UInt8.toNat_ofNat', Nat.mod_eq_of_lt ha, Nat.mod_eq_of_lt hb] at hnat

/-- **Two positions of a key have different tweaks.** -/
theorem tweak_inj {n h : Nat} (hn : n ≤ 256) (hh : h ≤ 8) {p q : Position} (hp : p.Valid n h)
    (hq : q.Valid n h) (heq : p.tweak.toBytes = q.tweak.toBytes) : p = q := by
  have hshift : ∀ {level index : Nat}, index < n >>> level → index < 256 := by
    intro level index hi
    rw [Nat.shiftRight_eq_div_pow] at hi
    exact lt_of_lt_of_le hi (le_trans (Nat.div_le_self _ _) hn)
  cases p with
  | step leaf i k =>
    cases q with
    | step leaf' i' k' =>
      obtain ⟨hleaf, hi, hk⟩ := chain_toBytes_inj heq
      obtain ⟨hp1, hp2⟩ := hp
      obtain ⟨hq1, hq2⟩ := hq
      have hi1 : i.val < 36 := i.isLt
      have hi2 : i'.val < 36 := i'.isLt
      have hk' := ofNat8_inj (by omega) (by omega) hk
      rw [ofNat32_inj (by omega) (by omega) hleaf, Fin.ext (ofNat8_inj (by omega) (by omega) hi),
        Nat.succ.inj hk']
    | leaf => exact absurd heq chain_ne_tree
    | node => exact absurd heq chain_ne_tree
  | leaf leaf =>
    cases q with
    | step => exact absurd heq.symm chain_ne_tree
    | leaf leaf' =>
      obtain ⟨-, hleaf⟩ := tree_toBytes_inj heq
      rw [ofNat32_inj (lt_of_lt_of_le hp hn) (lt_of_lt_of_le hq hn) hleaf]
    | node level index =>
      -- A leaf is at level 0, a node above.
      obtain ⟨hlevel, -⟩ := tree_toBytes_inj heq
      obtain ⟨h1, h8, -⟩ := hq
      have h0 : 0 = level := ofNat8_inj (by omega) (by omega) hlevel
      omega
  | node level index =>
    obtain ⟨h1, h8, hi⟩ := hp
    cases q with
    | step => exact absurd heq.symm chain_ne_tree
    | leaf leaf' =>
      obtain ⟨hlevel, -⟩ := tree_toBytes_inj heq
      have h0 : 0 = level := ofNat8_inj (by omega) (by omega) hlevel.symm
      omega
    | node level' index' =>
      obtain ⟨hlevel, hindex⟩ := tree_toBytes_inj heq
      obtain ⟨h1', h8', hi'⟩ := hq
      rw [ofNat8_inj (by omega) (by omega) hlevel, ofNat32_inj (hshift hi) (hshift hi') hindex]

end Position

/-! ## The positions of key generation, signing and verification -/

/-- The steps of the chains of a leaf, chain `i` from `start i` to `stop i`. -/
def stepPositions (leaf : Nat) (start stop : Fin chains → Nat) : List Position :=
  (List.finRange chains).flatMap fun i =>
    (List.range' (start i) (stop i - start i)).map (Position.step leaf i)

/-- The positions that key generation hashes in one leaf. -/
def leafPositions (leaf : Nat) : List Position :=
  stepPositions leaf (fun _ => 0) (fun _ => 15) ++ [.leaf leaf]

/-- The positions of level `l + 1`, for a key with `n` leaves. -/
def nodePositions (n l : Nat) : List Position :=
  (List.range (n >>> (l + 1))).map (Position.node (l + 1))

/-- The positions of a key with `n` leaves and `h` levels above them. -/
def keyPositions (n h : Nat) : List Position :=
  (List.range n).flatMap leafPositions ++ (List.range h).flatMap (nodePositions n)

/-- Signing walks each chain from its start to its digit. -/
def signPositions (leaf : Nat) (x : Block chains) : List Position :=
  stepPositions leaf (fun _ => 0) (fun i => (x.get i).toNat)

/-- Verification walks each chain from its digit to its end, then climbs `h` levels. -/
def verifyPositions (h leaf : Nat) (x : Block chains) : List Position :=
  stepPositions leaf (fun i => (x.get i).toNat) (fun _ => 15) ++ [.leaf leaf]
    ++ (List.range h).map fun l => .node (l + 1) (leaf / 2 ^ (l + 1))

theorem mem_stepPositions {leaf : Nat} {start stop : Fin chains → Nat} {p : Position} :
    p ∈ stepPositions leaf start stop ↔
      ∃ i k, p = .step leaf i k ∧ start i ≤ k ∧ k < stop i := by
  unfold stepPositions
  simp only [List.mem_flatMap, List.mem_finRange, true_and, List.mem_map, List.mem_range'_1]
  constructor
  · rintro ⟨i, k, ⟨h1, h2⟩, rfl⟩
    exact ⟨i, k, rfl, h1, by omega⟩
  · rintro ⟨i, k, rfl, h1, h2⟩
    exact ⟨i, k, ⟨h1, by omega⟩, rfl⟩

theorem mem_leafPositions {leaf : Nat} {p : Position} :
    p ∈ leafPositions leaf ↔ (∃ i, ∃ k < 15, p = .step leaf i k) ∨ p = .leaf leaf := by
  simp only [leafPositions, List.mem_append, mem_stepPositions, List.mem_singleton, Nat.zero_le,
    true_and]
  constructor
  · rintro (⟨i, k, rfl, hk⟩ | rfl)
    · exact Or.inl ⟨i, k, hk, rfl⟩
    · exact Or.inr rfl
  · rintro (⟨i, k, hk, rfl⟩ | rfl)
    · exact Or.inl ⟨i, k, rfl, hk⟩
    · exact Or.inr rfl

/-- **Key generation hashes at exactly the positions of the key.** -/
theorem mem_keyPositions {n h : Nat} {p : Position} : p ∈ keyPositions n h ↔ p.Valid n h := by
  simp only [keyPositions, List.mem_append, List.mem_flatMap, List.mem_range, mem_leafPositions,
    nodePositions, List.mem_map]
  constructor
  · rintro (⟨leaf, hleaf, ⟨i, k, hk, rfl⟩ | rfl⟩ | ⟨l, hl, i, hi, rfl⟩)
    · exact ⟨hleaf, hk⟩
    · exact hleaf
    · exact ⟨by omega, hl, hi⟩
  · intro hp
    cases p with
    | step leaf i k => exact Or.inl ⟨leaf, hp.1, Or.inl ⟨i, k, hp.2, rfl⟩⟩
    | leaf leaf => exact Or.inl ⟨leaf, hp, Or.inr rfl⟩
    | node level index =>
      obtain ⟨h1, h2, h3⟩ := hp
      refine Or.inr ⟨level - 1, by omega, index, ?_, ?_⟩
      · rwa [Nat.sub_add_cancel h1]
      · rw [Nat.sub_add_cancel h1]

theorem signPositions_subset {n h leaf : Nat} (hleaf : leaf < n) {x : Block chains}
    (hx : ∀ i, x.get i ≤ 15) : signPositions leaf x ⊆ keyPositions n h := by
  intro p hp
  obtain ⟨i, k, rfl, -, hk⟩ := mem_stepPositions.mp hp
  have hi : (x.get i).toNat ≤ 15 := UInt8.le_iff_toNat_le.mp (hx i)
  exact mem_keyPositions.mpr ⟨hleaf, by omega⟩

theorem verifyPositions_subset {h leaf : Nat} (hleaf : leaf < 1 <<< h) (x : Block chains) :
    verifyPositions h leaf x ⊆ keyPositions (1 <<< h) h := by
  intro p hp
  rw [mem_keyPositions]
  simp only [verifyPositions, List.mem_append, List.mem_singleton, List.mem_map,
    List.mem_range] at hp
  rcases hp with (hp | rfl) | ⟨l, hl, rfl⟩
  · obtain ⟨i, k, rfl, -, hk⟩ := mem_stepPositions.mp hp
    exact ⟨hleaf, hk⟩
  · exact hleaf
  · refine ⟨by omega, hl, ?_⟩
    -- The ancestor of a leaf is a node of its level.
    rw [Nat.one_shiftLeft] at hleaf ⊢
    rw [Nat.shiftRight_eq_div_pow, Nat.pow_div hl (by omega)]
    refine Nat.div_lt_of_lt_mul ?_
    rwa [← Nat.pow_add, Nat.add_sub_cancel' hl]

/-! ### No position twice -/

/-- A concatenation has no duplicates if each part has none and an element tells its part. -/
theorem nodup_flatMap_of {α β : Type} {l : List α} {f : α → List β} (key : β → α)
    (hl : l.Nodup) (hf : ∀ a ∈ l, (f a).Nodup) (hkey : ∀ a ∈ l, ∀ b ∈ f a, key b = a) :
    (l.flatMap f).Nodup := by
  rw [List.nodup_flatMap]
  refine ⟨hf, List.Pairwise.imp_of_mem ?_ hl⟩
  intro a a' ha ha' hne b hb hb'
  exact hne ((hkey a ha b hb).symm.trans (hkey a' ha' b hb'))

/-- The leaf of a position below the nodes. -/
def Position.leafOf : Position → Nat
  | .step epoch _ _ => epoch
  | .leaf epoch => epoch
  | .node _ _ => 0

def Position.chainOf : Position → Fin chains
  | .step _ i _ => i
  | .leaf _ => ⟨0, by decide⟩
  | .node _ _ => ⟨0, by decide⟩

/-- The number of levels below a node's. -/
def Position.below : Position → Nat
  | .node level _ => level - 1
  | .step _ _ _ => 0
  | .leaf _ => 0

theorem stepPositions_nodup (leaf : Nat) (start stop : Fin chains → Nat) :
    (stepPositions leaf start stop).Nodup := by
  refine nodup_flatMap_of Position.chainOf (List.nodup_finRange _) ?_ ?_
  · intro i _
    exact List.Nodup.map (fun k k' h => by injection h) List.nodup_range'
  · intro i _ p hp
    obtain ⟨k, -, rfl⟩ := List.mem_map.mp hp
    rfl

theorem leafPositions_nodup (leaf : Nat) : (leafPositions leaf).Nodup := by
  refine List.nodup_append'.mpr ⟨stepPositions_nodup leaf _ _, List.nodup_singleton _, ?_⟩
  intro p hp hp'
  obtain ⟨i, k, rfl, -⟩ := mem_stepPositions.mp hp
  simp at hp'

theorem keyPositions_nodup (n h : Nat) : (keyPositions n h).Nodup := by
  refine List.nodup_append'.mpr ⟨?_, ?_, ?_⟩
  · refine nodup_flatMap_of Position.leafOf List.nodup_range
      (fun leaf _ => leafPositions_nodup leaf) ?_
    intro leaf _ p hp
    rcases mem_leafPositions.mp hp with ⟨i, k, -, rfl⟩ | rfl
    · rfl
    · rfl
  · refine nodup_flatMap_of Position.below List.nodup_range ?_ ?_
    · intro l _
      exact List.Nodup.map (fun i i' h => by injection h) List.nodup_range
    · intro l _ p hp
      obtain ⟨i, -, rfl⟩ := List.mem_map.mp hp
      rfl
  · -- A position below the nodes is not a node.
    intro p hp hp'
    obtain ⟨leaf, -, hp⟩ := List.mem_flatMap.mp hp
    obtain ⟨l, -, hp'⟩ := List.mem_flatMap.mp hp'
    obtain ⟨i, -, rfl⟩ := List.mem_map.mp hp'
    rcases mem_leafPositions.mp hp with ⟨_, _, -, h⟩ | h
    · cases h
    · cases h

/-- **No two calls of key generation share a tweak.** -/
theorem tweaks_nodup {n h : Nat} (hn : n ≤ 256) (hh : h ≤ 8) :
    ((keyPositions n h).map fun p => p.tweak.toBytes).Nodup := by
  refine List.Nodup.map_on ?_ (keyPositions_nodup n h)
  intro p hp q hq heq
  exact Position.tweak_inj hn hh (mem_keyPositions.mp hp) (mem_keyPositions.mp hq) heq

/-! ## What is hashed at each position -/

/-- The input is a call at the position, under the parameter. -/
def InputAt (parameter : Parameter) (input : Bytes) (p : Position) : Prop :=
  ∃ v : p.Payload, input = (p.label parameter v).toBytes

/-- The inputs are calls at the positions, one for one and in order. -/
abbrev AsksAt (parameter : Parameter) : List Bytes → List Position → Prop :=
  List.Forall₂ (InputAt parameter)

theorem asksAt_map {β : Type} {parameter : Parameter} {f : β → Bytes}
    {g : β → Position} {l : List β}
    (h : ∀ b ∈ l, InputAt parameter (f b) (g b)) : AsksAt parameter (l.map f) (l.map g) := by
  rw [AsksAt, List.forall₂_map_left_iff, List.forall₂_map_right_iff, List.forall₂_same]
  exact h

theorem asksAt_flatMap {β : Type} {parameter : Parameter} {f : β → List Bytes}
    {g : β → List Position} : ∀ {l : List β}, (∀ b ∈ l, AsksAt parameter (f b) (g b)) →
      AsksAt parameter (l.flatMap f) (l.flatMap g) := by
  intro l
  induction l with
  | nil =>
    intro _
    exact List.Forall₂.nil
  | cons b l ih =>
    intro h
    rw [List.flatMap_cons, List.flatMap_cons]
    exact List.rel_append (h b (by simp)) (ih fun c hc => h c (by simp [hc]))

theorem asksAt_leaf (parameter : Parameter) (leaf : UInt32) (ends : Elements) :
    AsksAt parameter [treeInput parameter 0 leaf (flatten ends).toList] [.leaf leaf.toNat] := by
  refine List.Forall₂.cons ⟨ends, ?_⟩ List.Forall₂.nil
  simp only [Position.label, Label.toBytes, UInt32.ofNat_toNat]

section Asked

variable [Keccak] (secrets : Bytes) (parameter : Parameter)

theorem asksAt_walk (leaf : UInt32) (i : Fin chains) (a b : Nat) (x : Element) :
    AsksAt parameter (Chain.walkInputs parameter leaf (UInt8.ofNat i) a b x)
      ((List.range' a (b - a)).map (Position.step leaf.toNat i)) := by
  refine asksAt_map fun k _ => ⟨walk (chainStep parameter leaf (UInt8.ofNat i)) a k x, ?_⟩
  simp only [Position.label, Label.toBytes, UInt32.ofNat_toNat]

/-- The chains of a leaf, walked from any values. -/
theorem asksAt_steps (leaf : UInt32) (start stop : Fin chains → Nat) (x : Elements) :
    AsksAt parameter
      ((List.finRange chains).flatMap fun i : Fin chains =>
        Chain.walkInputs parameter leaf (UInt8.ofNat i) (start i) (stop i) (x i))
      (stepPositions leaf.toNat start stop) :=
  asksAt_flatMap fun i _ => asksAt_walk parameter leaf i _ _ _

theorem asksAt_generated (leaf : UInt32) :
    AsksAt parameter
      (generatedChains secrets parameter leaf
        ++ [treeInput parameter 0 leaf
          (flatten (Signing.chainEnds secrets parameter leaf)).toList])
      (leafPositions leaf.toNat) :=
  List.rel_append (asksAt_steps parameter leaf _ _ _) (asksAt_leaf parameter leaf _)

/-- **XMSS key generation hashes once at each position of its key.** -/
theorem Xmss.asks_fromSecrets (s : Block (leaves * elementsLength)) :
    AsksAt parameter ((SecretKey.fromSecrets s.toList parameter).asked keccak256)
      (keyPositions leaves height) := by
  rw [asked_fromSecrets, asked_buildNodes]
  refine List.rel_append (asksAt_flatMap fun leaf hleaf => ?_) (asksAt_flatMap fun l _ => ?_)
  · have hlt : leaf < 256 := List.mem_range.mp hleaf
    have h := asksAt_generated s.toList parameter (UInt32.ofNat leaf)
    rwa [UInt32.toNat_ofNat', Nat.mod_eq_of_lt (show leaf < 2 ^ 32 by omega)] at h
  · exact asksAt_map fun i _ => ⟨(treeNode s.toList parameter l (2 * i),
      treeNode s.toList parameter l (2 * i + 1)), rfl⟩

/-- **Winternitz key generation hashes once at each position of its key.** -/
theorem Winternitz.asks_verifyingKey (key : SecretKey) :
    AsksAt key.parameter (key.verifyingKey.asked keccak256) (keyPositions 1 0) := by
  rw [asked_verifyingKey]
  have h := asksAt_generated key.secrets.toList key.parameter 0
  simpa [keyPositions] using h

/--
The message is hashed first. If it is encoded, the calls at `positions` of its digits follow, and
all of them are positions of the key.
-/
def AsksAfter (asked : List Bytes) (salt : Salt) (leaf : UInt32) (message : Message)
    (positions : Block chains → List Position) (generated : List Position) : Prop :=
  ∃ rest, asked = (Label.msg salt parameter leaf message).toBytes :: rest ∧
    ((encode salt parameter leaf message).eval keccak256 = none ∧ rest = [] ∨
      ∃ x, (encode salt parameter leaf message).eval keccak256 = some x ∧
        AsksAt parameter rest (positions x) ∧ positions x ⊆ generated)

theorem Signing.asks_sign (leaf : UInt32) (message : Message) (salt : Salt)
    {generated : List Position}
    (h : ∀ x : Block chains, (∀ i, x.get i ≤ 15) → signPositions leaf.toNat x ⊆ generated) :
    AsksAfter parameter
      ((Signing.sign secrets parameter leaf message salt).asked keccak256) salt leaf
      message (signPositions leaf.toNat) generated := by
  unfold Signing.sign
  rw [Oracle.asked_bind, asked_encode]
  refine ⟨_, rfl, ?_⟩
  cases hx : (encode salt parameter leaf message).eval keccak256 with
  | none => exact Or.inl ⟨rfl, Oracle.asked_pure _ _⟩
  | some x =>
    refine Or.inr ⟨x, rfl, ?_, h x (digit_le_of_encode hx)⟩
    simp only [Oracle.asked_bind, Oracle.asked_pure, List.append_nil]
    rw [Chain.asked_walkAll (Chain.holds_new parameter leaf)]
    exact asksAt_steps parameter leaf _ _ _

end Asked

/-! ## Both instances -/

section Instances

variable [Keccak]

theorem Winternitz.asked_signAtWithSalt (self : SecretKey) (message : Message) (salt : Salt) :
    (self.signAtWithSalt 0 message salt).asked keccak256
      = (Signing.sign self.secrets.toList self.parameter 0 message salt).asked keccak256 := by
  unfold SecretKey.signAtWithSalt
  rw [if_neg (by decide), Oracle.asked_bind]
  cases (Signing.sign self.secrets.toList self.parameter 0 message salt).eval keccak256 with
  | none => rw [Oracle.asked_pure, List.append_nil]
  | some elements => rw [Oracle.asked_pure, List.append_nil]

theorem Xmss.asked_signAtWithSalt (self : SecretKey) {leaf : UInt32}
    (hleaf : ¬ leaf ≥ UInt32.ofNat leaves) (message : Message) (salt : Salt) :
    (self.signAtWithSalt leaf message salt).asked keccak256
      = (Signing.sign self.secrets.toList self.parameter leaf message salt).asked keccak256 := by
  unfold SecretKey.signAtWithSalt
  rw [if_neg hleaf, Oracle.asked_bind]
  cases (Signing.sign self.secrets.toList self.parameter leaf message salt).eval keccak256 with
  | none => rw [Oracle.asked_pure, List.append_nil]
  | some elements => rw [Oracle.asked_pure, List.append_nil]

/-- **Signing hashes the message, then at positions of the key.** -/
theorem asks_sign (k : Instance) {secrets : Bytes} {parameter : Parameter} {key : k.SecretKey}
    (hkey : Builds secrets parameter key) {leaf : UInt32}
    (hleaf : leaf < OneTime.leaves k.SecretKey)
    (message : Message) (salt : Salt) :
    AsksAfter parameter ((OneTime.signAtWithSalt key leaf message salt).asked keccak256) salt leaf
      message (signPositions leaf.toNat)
      (keyPositions (OneTime.leaves k.SecretKey).toNat (OneTime.height k.SecretKey).toNat) := by
  have hsub := fun (x : Block chains) (hx : ∀ i, x.get i ≤ 15) =>
    signPositions_subset (h := (OneTime.height k.SecretKey).toNat)
      (UInt32.lt_iff_toNat_lt.mp hleaf) hx
  cases k with
  | winternitz =>
    obtain ⟨s, rfl, rfl⟩ := Winternitz.SecretKey.of_fromSecrets (Winternitz.builds_iff.mp hkey)
    have hzero : leaf = 0 :=
      UInt32.toNat_inj.mp (Nat.lt_one_iff.mp (UInt32.lt_iff_toNat_lt.mp hleaf))
    subst hzero
    have hasked : (OneTime.signAtWithSalt (K := Instance.winternitz.SecretKey)
        (⟨s, parameter⟩ : Winternitz.SecretKey) 0 message salt).asked keccak256
        = (Signing.sign s.toList parameter 0 message salt).asked keccak256 :=
      Winternitz.asked_signAtWithSalt ⟨s, parameter⟩ message salt
    rw [hasked]
    exact Signing.asks_sign s.toList parameter 0 message salt hsub
  | xmss =>
    obtain ⟨s, rfl, rfl⟩ := Xmss.SecretKey.of_fromSecrets hkey
    have hlt : ¬ leaf ≥ UInt32.ofNat Xmss.leaves := UInt32.not_le.mpr hleaf
    show AsksAfter _ (Oracle.asked keccak256 (Xmss.SecretKey.signAtWithSalt _ leaf _ _)) _ _ _ _ _
    rw [Xmss.asked_signAtWithSalt _ hlt, Xmss.builtKey_secrets, Xmss.builtKey_parameter]
    exact Signing.asks_sign s.toList parameter leaf message salt hsub

/-- **Verification hashes the message, then at positions of the key.** -/
theorem asks_verify (k : Instance) (key : VerifyingKey) (message : Message)
    (sig : OneTime.Signature k.SecretKey)
    (hleaf : SealedSignature.leaf sig < OneTime.leaves k.SecretKey) :
    AsksAfter key.parameter ((key.verify message sig).asked keccak256) (SealedSignature.salt sig)
      (SealedSignature.leaf sig) message
      (verifyPositions (OneTime.height k.SecretKey).toNat (SealedSignature.leaf sig).toNat)
      (keyPositions (OneTime.leaves k.SecretKey).toNat (OneTime.height k.SecretKey).toNat) := by
  cases k with
  | winternitz =>
    change Winternitz.Signature at sig
    show AsksAfter _ (Oracle.asked keccak256 (VerifyingKey.verify key message sig)) sig.salt 0 _ _ _
    rw [Winternitz.verify_eq]
    cases hx : (encode sig.salt key.parameter 0 message).eval keccak256 with
    | none =>
      refine ⟨[], ?_, Or.inl ⟨hx, rfl⟩⟩
      unfold Winternitz.Signature.verify
      simp [hx, asked_encode, Label.toBytes]
    | some x =>
      rw [Winternitz.asked_verify hx]
      refine ⟨_, rfl, Or.inr ⟨x, hx, ?_, verifyPositions_subset (h := 0) Nat.one_pos x⟩⟩
      have h := List.rel_append (asksAt_steps key.parameter 0 (fun i => (x.get i).toNat)
        (fun _ => 15) fun i => chunk elementLength sig.elements.toList i)
        (asksAt_leaf key.parameter 0 (endsFrom key.parameter 0 x sig.elements))
      rw [verifyPositions, show (OneTime.height Instance.winternitz.SecretKey).toNat = 0 from rfl,
        List.range_zero, List.map_nil, List.append_nil]
      exact h
  | xmss =>
    change Xmss.Signature at sig
    have hlt : ¬ sig.leaf ≥ UInt32.ofNat Xmss.leaves := UInt32.not_le.mpr hleaf
    show AsksAfter _ (Oracle.asked keccak256 (VerifyingKey.verify key message sig))
      sig.salt sig.leaf
      _ _ _
    rw [Xmss.verify_eq]
    cases hx : (encode sig.salt key.parameter sig.leaf message).eval keccak256 with
    | none =>
      refine ⟨[], ?_, Or.inl ⟨hx, rfl⟩⟩
      unfold Xmss.Signature.verify
      simp [hlt, hx, asked_encode, Label.toBytes]
    | some x =>
      rw [Xmss.asked_verify hlt hx]
      refine ⟨_, rfl, Or.inr ⟨x, hx, ?_, verifyPositions_subset (h := 8) (Xmss.lt_leaves hlt) x⟩⟩
      have h := List.rel_append (asksAt_steps key.parameter sig.leaf (fun i => (x.get i).toNat)
        (fun _ => 15) fun i => chunk elementLength sig.elements.toList i)
        (asksAt_leaf key.parameter sig.leaf (endsFrom key.parameter sig.leaf x sig.elements))
      refine List.rel_append h (asksAt_map fun l _ => ?_)
      exact ⟨Xmss.climbPair sig key.parameter (leafOf key.parameter sig.leaf
        (endsFrom key.parameter sig.leaf x sig.elements)) l, rfl⟩

/-- All hash inputs of key generation. -/
def generatedInputs {K : Type} [OneTime K] (secrets : Bytes) (parameter : Parameter) (key : K) :
    List Bytes :=
  (OneTime.fromSecrets (K := K) secrets parameter).asked keccak256
    ++ (OneTime.verifyingKey key).asked keccak256

theorem Winternitz.generatedInputs_eq (key : SecretKey) :
    generatedInputs key.secrets.toList key.parameter key = key.verifyingKey.asked keccak256 := by
  have hnone :
      (OneTime.fromSecrets (K := SecretKey) key.secrets.toList key.parameter).asked keccak256
      = [] := Oracle.asked_pure _ _
  rw [generatedInputs, hnone, List.nil_append]
  rfl

theorem Xmss.generatedInputs_eq (secrets : Bytes) (parameter : Parameter) (key : SecretKey) :
    generatedInputs secrets parameter key
      = (SecretKey.fromSecrets secrets parameter).asked keccak256 := by
  have hnone : (OneTime.verifyingKey key).asked keccak256 = [] := Oracle.asked_pure _ _
  rw [generatedInputs, hnone, List.append_nil]
  rfl

/-- **Key generation hashes once at each position of the key.** -/
theorem asks_generated (k : Instance) {secrets : Bytes} {parameter : Parameter} {key : k.SecretKey}
    (hkey : Builds secrets parameter key) :
    AsksAt parameter (generatedInputs secrets parameter key)
      (keyPositions (OneTime.leaves k.SecretKey).toNat (OneTime.height k.SecretKey).toNat) := by
  cases k with
  | winternitz =>
    obtain ⟨s, rfl, rfl⟩ := Winternitz.SecretKey.of_fromSecrets (Winternitz.builds_iff.mp hkey)
    have hasked := Winternitz.generatedInputs_eq ⟨s, parameter⟩
    have h := Winternitz.asks_verifyingKey ⟨s, parameter⟩
    rw [← hasked] at h
    exact h
  | xmss =>
    obtain ⟨s, rfl, -⟩ := Xmss.SecretKey.of_fromSecrets hkey
    have hasked := Xmss.generatedInputs_eq s.toList parameter key
    have h := Xmss.asks_fromSecrets parameter s
    rw [← hasked] at h
    exact h

/-! ## A signature of the other instance -/

/-- A leaf and a node with one truncated hash come from two inputs that agree on 23 bytes. -/
theorem leaf_node_collision {parameter : Parameter} {leaf index : UInt32} {level : UInt8}
    {ends : Elements} {left right : Element}
    (h : leafOf parameter leaf ends = nodeOf parameter level index left right) :
    treeInput parameter 0 leaf (flatten ends).toList
        ≠ treeInput parameter level index (left.toList ++ right.toList) ∧
      (keccak256 (treeInput parameter 0 leaf (flatten ends).toList)).toList.take elementLength
        = (keccak256 (treeInput parameter level index
            (left.toList ++ right.toList))).toList.take elementLength := by
  refine ⟨fun heq => ?_, take_of_truncatedHash h⟩
  have hlabel : (Label.leaf parameter leaf ends).toBytes
      = (Label.node parameter level index left right).toBytes := heq
  cases Label.toBytes_injective hlabel

theorem Xmss.treeNode_succ (secrets : Bytes) (parameter : Parameter) (l i : Nat) :
    treeNode secrets parameter (l + 1) i
      = nodeOf parameter (UInt8.ofNat (l + 1)) (UInt32.ofNat i)
          (treeNode secrets parameter l (2 * i)) (treeNode secrets parameter l (2 * i + 1)) := rfl

theorem Xmss.climbed_succ (sig : Signature) (parameter : Parameter) (start : Element) (l : Nat) :
    climbed sig parameter start (l + 1)
      = nodeOf parameter (UInt8.ofNat (l + 1)) (UInt32.ofNat (sig.leaf.toNat / 2 ^ (l + 1)))
          (climbPair sig parameter start l).1 (climbPair sig parameter start l).2 := rfl

/-- **A Winternitz signature under an XMSS key**: the leaf that it gives collides with the root. -/
theorem cross_winternitz (secrets : Block (Xmss.leaves * elementsLength)) (parameter : Parameter)
    {message : Message} {sig : Winternitz.Signature}
    (h : (sig.verify (Xmss.builtKey secrets parameter).verifyingKey message).eval keccak256
      = .ok ()) :
    ∃ a ∈ (sig.verify (Xmss.builtKey secrets parameter).verifyingKey message).asked keccak256,
      ∃ b ∈ (Xmss.SecretKey.fromSecrets secrets.toList parameter).asked keccak256, a ≠ b ∧
        (keccak256 a).toList.take elementLength = (keccak256 b).toList.take elementLength := by
  rw [Xmss.verifyingKey_builtKey] at h ⊢
  have hkey := VerifyingKey.new_parameter
    (Xmss.treeNode secrets.toList parameter Xmss.height 0) parameter
  have hnode := VerifyingKey.new_node
    (Xmss.treeNode secrets.toList parameter Xmss.height 0) parameter
  generalize VerifyingKey.new (Xmss.treeNode secrets.toList parameter Xmss.height 0) parameter = key
    at h hkey hnode ⊢
  rw [Winternitz.Signature.eval_verify, hkey, hnode] at h
  cases hx : (encode sig.salt parameter 0 message).eval keccak256 with
  | none =>
    rw [hx] at h
    cases h
  | some x =>
    simp only [hx] at h
    split at h
    · next hroot =>
      rw [show Xmss.height = 7 + 1 from rfl, Xmss.treeNode_succ] at hroot
      obtain ⟨hne, htake⟩ := leaf_node_collision hroot
      have hmem :=
        Xmss.mem_buildNodes_node secrets.toList parameter (show 7 < Xmss.height by decide)
        (show 0 < Xmss.leaves >>> (7 + 1) by decide)
      rw [← Xmss.asked_fromSecrets] at hmem
      refine ⟨_, ?_, _, hmem, hne, htake⟩
      rw [Winternitz.asked_verify (by rw [hkey]; exact hx), hkey]
      exact List.mem_append_right _ (List.mem_append_right _ (List.mem_singleton.mpr rfl))
    · cases h

/-- **An XMSS signature under a Winternitz key**: the climb ends in the leaf of the key. -/
theorem cross_xmss (key : Winternitz.SecretKey) {message : Message} {sig : Xmss.Signature}
    (h : (sig.verify (key.verifyingKey.eval keccak256) message).eval keccak256 = .ok ()) :
    ∃ a ∈ (sig.verify (key.verifyingKey.eval keccak256) message).asked keccak256,
      ∃ b ∈ key.verifyingKey.asked keccak256, a ≠ b ∧
        (keccak256 a).toList.take elementLength = (keccak256 b).toList.take elementLength := by
  have hkey : (key.verifyingKey.eval keccak256).parameter = key.parameter := by
    rw [Winternitz.SecretKey.eval_verifyingKey, VerifyingKey.new_parameter]
  have hnode : (key.verifyingKey.eval keccak256).node
      = leafOf key.parameter 0 (Signing.chainEnds key.secrets.toList key.parameter 0) := by
    rw [Winternitz.SecretKey.eval_verifyingKey, VerifyingKey.new_node]
  generalize key.verifyingKey.eval keccak256 = pk at h hkey hnode ⊢
  rw [Xmss.Signature.eval_verify, hkey, hnode] at h
  by_cases hleaf : sig.leaf ≥ UInt32.ofNat Xmss.leaves
  · rw [if_pos hleaf] at h
    cases h
  · rw [if_neg hleaf] at h
    cases hx : (encode sig.salt key.parameter sig.leaf message).eval keccak256 with
    | none =>
      rw [hx] at h
      cases h
    | some x =>
      simp only [hx] at h
      split at h
      · next hroot =>
        have hclimb := Xmss.climbed_succ sig key.parameter
          (leafOf key.parameter sig.leaf (endsFrom key.parameter sig.leaf x sig.elements)) 7
        have htop : nodeOf key.parameter _ _ _ _ = leafOf key.parameter 0 _ :=
          hclimb.symm.trans hroot
        obtain ⟨hne, htake⟩ := leaf_node_collision htop.symm
        refine ⟨_, ?_, _, ?_, hne.symm, htake.symm⟩
        · rw [Xmss.asked_verify hleaf (by rw [hkey]; exact hx), hkey]
          exact List.mem_append_right _ (List.mem_append_right _
            (List.mem_map.mpr ⟨7, by decide, rfl⟩))
        · rw [Winternitz.asked_verifyingKey]
          exact List.mem_append_right _ (List.mem_singleton.mpr rfl)
      · cases h

/-- Verification of a signature of one instance under a key of the other shows a collision. -/
theorem cross_instance (k k' : Instance) (hne : k' ≠ k) {secrets : Bytes} {parameter : Parameter}
    {key : k.SecretKey} (hkey : Builds secrets parameter key) {message : Message}
    {sig : OneTime.Signature k'.SecretKey}
    (h : (((OneTime.verifyingKey key).eval keccak256).verify message sig).eval keccak256 = .ok ()) :
    ∃ a ∈ (((OneTime.verifyingKey key).eval keccak256).verify message sig).asked keccak256,
      ∃ b ∈ generatedInputs secrets parameter key, a ≠ b ∧
        (keccak256 a).toList.take elementLength = (keccak256 b).toList.take elementLength := by
  cases k with
  | winternitz =>
    cases k' with
    | winternitz => exact absurd rfl hne
    | xmss =>
      obtain ⟨s, rfl, rfl⟩ := Winternitz.SecretKey.of_fromSecrets (Winternitz.builds_iff.mp hkey)
      change Xmss.Signature at sig
      have hpk : (OneTime.verifyingKey (K := Instance.winternitz.SecretKey)
          (⟨s, parameter⟩ : Winternitz.SecretKey)).eval keccak256
          = (Winternitz.SecretKey.mk s parameter).verifyingKey.eval keccak256 := rfl
      rw [hpk] at h ⊢
      change (VerifyingKey.verify _ message sig).eval keccak256 = .ok () at h
      show ∃ a ∈ (VerifyingKey.verify _ message sig).asked keccak256, _
      rw [Xmss.verify_eq] at h ⊢
      have hcross := cross_xmss ⟨s, parameter⟩ h
      rw [← Winternitz.generatedInputs_eq] at hcross
      exact hcross
  | xmss =>
    cases k' with
    | winternitz =>
      obtain ⟨s, rfl, rfl⟩ := Xmss.SecretKey.of_fromSecrets hkey
      change Winternitz.Signature at sig
      have hpk : (OneTime.verifyingKey (K := Instance.xmss.SecretKey)
          (Xmss.builtKey s parameter)).eval keccak256 = (Xmss.builtKey s parameter).verifyingKey :=
        Xmss.eval_verifyingKey _
      have hgenerated : generatedInputs (K := Instance.xmss.SecretKey) s.toList parameter
          (Xmss.builtKey s parameter)
          = (Xmss.SecretKey.fromSecrets s.toList parameter).asked keccak256 :=
        Xmss.generatedInputs_eq _ _ _
      rw [hpk] at h ⊢
      rw [hgenerated]
      change (VerifyingKey.verify _ message sig).eval keccak256 = .ok () at h
      show ∃ a ∈ (VerifyingKey.verify _ message sig).asked keccak256, _
      rw [Winternitz.verify_eq] at h ⊢
      exact cross_winternitz s parameter h
    | xmss => exact absurd rfl hne

/--
**Domain separation.** A hash call is determined by the bytes it hashes: its kind, the parameter
and every field (the levels of nodes are at least 1, but need not be). Every call of the crate is
one of the four kinds. Key generation calls once at each position of the key and no two positions
share a tweak. Signing and verification at a leaf call at positions of the key too, so at a position
every call has the tweak that key generation used. An honest key accepts a signature of the other
instance only where two inputs agree on 23 bytes of their hashes.
-/
theorem domain_separation :
    Function.Injective Label.toBytes ∧
    (∀ salt parameter leaf m, (encode salt parameter leaf m).asked keccak256
      = [(Label.msg salt parameter leaf m).toBytes]) ∧
    (∀ (chain : Chain) parameter leaf i₀ p v, chain.Holds parameter leaf i₀ p v →
      ∀ i start stop x, (chain.walk i start stop x).asked keccak256
        = (List.range' start.toNat (stop.toNat - start.toNat)).map fun k =>
          (Label.chain parameter leaf i (UInt8.ofNat (k + 1))
            (walk (chainStep parameter leaf i) start.toNat k x)).toBytes) ∧
    (∀ parameter leaf ends, (leafHash parameter leaf ends).asked keccak256
      = [(Label.leaf parameter leaf ends).toBytes]) ∧
    (∀ parameter level index left right, (node parameter level index left right).asked keccak256
      = [(Label.node parameter level index left right).toBytes]) ∧
    ∀ (k : Instance) (secrets : Bytes) (parameter : Parameter) (key : k.SecretKey),
      (OneTime.fromSecrets secrets parameter).eval keccak256 = .ok key →
      let positions :=
        keyPositions (OneTime.leaves k.SecretKey).toNat (OneTime.height k.SecretKey).toNat
      AsksAt parameter (generatedInputs secrets parameter key) positions ∧
      (positions.map fun p => p.tweak.toBytes).Nodup ∧
      (∀ (p : Position) (v : p.Payload), ∃ payload,
        (p.label parameter v).toBytes = tweakedInput parameter p.tweak payload) ∧
      (∀ leaf message salt, leaf < OneTime.leaves k.SecretKey →
        AsksAfter parameter
          ((OneTime.signAtWithSalt key leaf message salt).asked keccak256) salt leaf
          message (signPositions leaf.toNat) positions) ∧
      (∀ (pk : VerifyingKey) message (sig : OneTime.Signature k.SecretKey),
        SealedSignature.leaf sig < OneTime.leaves k.SecretKey →
        AsksAfter pk.parameter ((pk.verify message sig).asked keccak256) (SealedSignature.salt sig)
          (SealedSignature.leaf sig) message
          (verifyPositions (OneTime.height k.SecretKey).toNat (SealedSignature.leaf sig).toNat)
          positions) ∧
      ∀ (k' : Instance) (message : Message) (sig : OneTime.Signature k'.SecretKey), k' ≠ k →
        (((OneTime.verifyingKey key).eval keccak256).verify message sig).eval keccak256 = .ok () →
        ∃ a ∈ (((OneTime.verifyingKey key).eval keccak256).verify message sig).asked keccak256,
          ∃ b ∈ generatedInputs secrets parameter key, a ≠ b ∧
            (keccak256 a).toList.take elementLength = (keccak256 b).toList.take elementLength := by
  refine ⟨Label.toBytes_injective, asked_encode, ?_, ?_, ?_, ?_⟩
  · intro chain parameter leaf i₀ p v hholds i start stop x
    obtain ⟨p', self', -, -, hasked⟩ := Chain.eval_walk hholds i start stop x
    exact hasked
  · intro parameter leaf ends
    exact asked_leafHash parameter leaf ends
  · intro parameter level index left right
    exact asked_node parameter level index left right
  · intro k secrets parameter key hkey
    have hn : (OneTime.leaves k.SecretKey).toNat ≤ 256 := by cases k <;> decide
    have hh : (OneTime.height k.SecretKey).toNat ≤ 8 := by cases k <;> decide
    refine ⟨asks_generated k hkey, tweaks_nodup hn hh, Position.label_toBytes parameter, ?_, ?_, ?_⟩
    · intro leaf message salt hleaf
      exact asks_sign k hkey hleaf message salt
    · intro pk message sig hleaf
      exact asks_verify k pk message sig hleaf
    · intro k' message sig hne hverify
      exact cross_instance k k' hne hkey hverify

end Instances

end SolanaWinternitz
