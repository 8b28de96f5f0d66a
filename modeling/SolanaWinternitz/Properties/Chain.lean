import SolanaWinternitz.Lib
import SolanaWinternitz.Infra.Walk

/-!
# Chains and tree hashes as pure functions

The code walks all 36 chains through one 48-byte buffer. This module says what it computes:

* `eval_walk` — a walk is the pure walk over `chainStep`, whatever walks used the buffer before
* `walk_no_residue` — after any earlier walks on the buffer; a walk may be split
* `eval_walkAll` — the loop over all chains is 36 independent walks
* `asked_walkAll` — its hash inputs, in order
* `eval_leafHash`, `eval_node` — the tree hashes

The invariant is that the buffer always holds `chainInput P leaf i k v` for some `i`, `k` and `v`:
the parameter, the role and the leaf stay, the other three fields are overwritten before each hash.
-/

namespace SolanaWinternitz

open Infra

/-! ## Hash inputs -/

/-- What is hashed to enter position `k` of chain `i` of a leaf. -/
def chainInput (parameter : Parameter) (leaf : UInt32) (i k : UInt8) (v : Element) : Bytes :=
  parameter.toList ++ roleChain :: ((u32Be leaf).toList ++ i :: k :: v.toList)

/-- What is hashed for node `index` of a level; level 0 is the leaves. -/
def treeInput (parameter : Parameter) (level : UInt8) (index : UInt32) (payload : Bytes) : Bytes :=
  parameter.toList ++ roleTree :: level :: ((u32Be index).toList ++ payload)

/-- What is hashed to encode a message. -/
def messageInput (salt : Salt) (parameter : Parameter) (leaf : UInt32)
    (message : Message) : Bytes :=
  salt.toList ++ (parameter.toList ++ (roleMessage :: (u32Le leaf).toList ++ message.toList))

/-! ## The buffer -/

namespace Chain

variable {parameter : Parameter} {leaf : UInt32}

/-- The buffer of chain `i` at position `k` with value `v`. -/
def Holds (self : Chain) (parameter : Parameter) (leaf : UInt32) (i k : UInt8) (v : Element) :
    Prop :=
  self.buf.toList = chainInput parameter leaf i k v

theorem chainInput_assoc (parameter : Parameter) (leaf : UInt32) (i k : UInt8) (v : Element) :
    chainInput parameter leaf i k v
      = (parameter.toList ++ roleChain :: (u32Be leaf).toList) ++ ([i] ++ ([k] ++ v.toList)) := by
  simp [chainInput]

theorem chainInput_length (parameter : Parameter) (leaf : UInt32) :
    (parameter.toList ++ roleChain :: (u32Be leaf).toList).length = index := by
  simp [index, tweak]

/-- A new buffer holds the parameter and the leaf. -/
theorem holds_new (parameter : Parameter) (leaf : UInt32) :
    (new parameter leaf).Holds parameter leaf 0 0 (zeros elementLength) := by
  have h1 : (((⟨zeros _⟩ : Chain).write 0 parameter.toList)).buf.toList
      = [] ++ (parameter.toList ++ List.replicate 30 0) :=
    copyInto_append (List.replicate 18 0) (by rfl) rfl (by simp)
  have h2 : (((⟨zeros _⟩ : Chain).write 0 parameter.toList).write tweak [roleChain]).buf.toList
      = parameter.toList ++ ([roleChain] ++ List.replicate 29 0) :=
    copyInto_append [0] (by rw [h1]; rfl) (by simp [tweak]) rfl
  have h3 : (new parameter leaf).buf.toList
      = (parameter.toList ++ [roleChain]) ++ ((u32Be leaf).toList ++ List.replicate 25 0) :=
    copyInto_append (List.replicate 4 0) (by rw [h2, List.append_assoc]; rfl)
      (by simp [tweak]) (by simp)
  show _ = chainInput parameter leaf 0 0 (zeros elementLength)
  rw [h3, chainInput, zeros_toList]
  simp [List.replicate_succ]

theorem holds_write_index {self : Chain} {i k : UInt8} {v : Element}
    (h : self.Holds parameter leaf i k v) (i' : UInt8) :
    (self.write index [i']).Holds parameter leaf i' k v := by
  show (copyInto self.buf index [i']).toList = _
  rw [chainInput_assoc]
  exact copyInto_append [i] (by rw [h, chainInput_assoc])
    (chainInput_length parameter leaf) rfl

theorem holds_write_position {self : Chain} {i k : UInt8} {v : Element}
    (h : self.Holds parameter leaf i k v) (k' : UInt8) :
    (self.write position [k']).Holds parameter leaf i k' v := by
  show (copyInto self.buf position [k']).toList = _
  rw [chainInput_assoc, ← List.append_assoc _ [i]]
  refine copyInto_append [k] (by rw [h, chainInput_assoc]; simp) ?_ rfl
  rw [List.length_append, chainInput_length]
  rfl

theorem holds_write_value {self : Chain} {i k : UInt8} {v : Element}
    (h : self.Holds parameter leaf i k v) (v' : Element) :
    (self.write value v'.toList).Holds parameter leaf i k v' := by
  have hpre : ∀ w : Element, chainInput parameter leaf i k w
      = ((parameter.toList ++ roleChain :: (u32Be leaf).toList) ++ [i] ++ [k])
        ++ (w.toList ++ []) := by
    intro w
    rw [chainInput_assoc]
    simp
  show (copyInto self.buf value v'.toList).toList = _
  rw [hpre]
  refine copyInto_append v.toList (by rw [h, hpre]) ?_ (by simp)
  rw [List.length_append, List.length_append, chainInput_length]
  rfl

/-- The fields that all chains of a leaf share. -/
theorem take_of_holds {self : Chain} {i k : UInt8} {v : Element}
    (h : self.Holds parameter leaf i k v) :
    self.buf.toList.take index = parameter.toList ++ roleChain :: (u32Be leaf).toList := by
  rw [h, chainInput_assoc, List.take_left' (chainInput_length parameter leaf)]

/-- The value field of the buffer. -/
theorem slice_of_holds {self : Chain} {i k : UInt8} {v : Element}
    (h : self.Holds parameter leaf i k v) : slice self.buf.toList value elementLength = v := by
  rw [h, chainInput_assoc, ← List.append_assoc _ [i], ← List.append_assoc _ [k]]
  refine slice_append_last ?_ v
  rw [List.length_append, List.length_append, chainInput_length]
  rfl

end Chain

theorem treeTweak_toList (level : UInt8) (index : UInt32) :
    (treeTweak level index).toList = roleTree :: level :: (u32Be index).toList := by
  have h1 : (copyInto (zeros treeTweakLength) 0 [roleTree]).toList
      = [] ++ ([roleTree] ++ [0, 0, 0, 0, 0]) := copyInto_append [0] rfl rfl rfl
  have h2 : (copyInto (copyInto (zeros treeTweakLength) 0 [roleTree]) 1 [level]).toList
      = [roleTree] ++ ([level] ++ [0, 0, 0, 0]) := copyInto_append [0] h1 rfl rfl
  have h3 : (treeTweak level index).toList = [roleTree, level] ++ ((u32Be index).toList ++ []) :=
    copyInto_append [0, 0, 0, 0] h2 rfl (by simp)
  simpa using h3

theorem ofNat_add_one (k : Nat) : UInt8.ofNat k + 1 = UInt8.ofNat (k + 1) := by
  rw [UInt8.ofNat_add]
  rfl

/-! ## Pure chain steps and tree hashes -/

variable [Keccak]

/-- `Trunc_n`: the hash cut to the length of an element. -/
def truncatedHash (input : Bytes) : Element := fit elementLength (keccak256 input).toList

/-- The step of chain `i` into position `k`. -/
def chainStep (parameter : Parameter) (leaf : UInt32) (i : UInt8) (k : Nat)
    (v : Element) : Element :=
  truncatedHash (chainInput parameter leaf i (UInt8.ofNat k) v)

/-- The hash of the chain ends of a leaf. -/
def leafOf (parameter : Parameter) (leaf : UInt32) (ends : Elements) : Element :=
  truncatedHash (treeInput parameter 0 leaf (flatten ends).toList)

/-- The hash of two children. -/
def nodeOf (parameter : Parameter) (level : UInt8) (index : UInt32) (left right : Element) :
    Element :=
  truncatedHash (treeInput parameter level index (left.toList ++ right.toList))

namespace Chain

variable {parameter : Parameter} {leaf : UInt32}

/-! ## One walk -/

/-- One step: the position and the value are replaced. -/
theorem eval_walkStep {self : Chain} {i p : UInt8} {v : Element} (k : Nat)
    (h : self.Holds parameter leaf i p v) :
    ((self.walkStep k).eval keccak256).Holds parameter leaf i (UInt8.ofNat (k + 1))
      (chainStep parameter leaf i (k + 1) v) := by
  have hpos := holds_write_position h (UInt8.ofNat k + 1)
  have hstep : (self.walkStep k).eval keccak256
      = (self.write position [UInt8.ofNat k + 1]).write value
          (truncatedHash (self.write position [UInt8.ofNat k + 1]).buf.toList).toList := by
    simp [walkStep, truncatedHash]
  rw [hstep, hpos, ← ofNat_add_one, chainStep, ← ofNat_add_one]
  exact holds_write_value hpos _

theorem asked_walkStep {self : Chain} {i p : UInt8} {v : Element} (k : Nat)
    (h : self.Holds parameter leaf i p v) :
    (self.walkStep k).asked keccak256 = [chainInput parameter leaf i (UInt8.ofNat (k + 1)) v] := by
  have hpos := holds_write_position h (UInt8.ofNat k + 1)
  have hstep : (self.walkStep k).asked keccak256
      = [(self.write position [UInt8.ofNat k + 1]).buf.toList] := by
    simp [walkStep]
  rw [hstep, hpos, ofNat_add_one]

/-- The hash inputs of a walk of chain `i` from position `a` to position `b`. -/
def walkInputs (parameter : Parameter) (leaf : UInt32) (i : UInt8) (a b : Nat) (x : Element) :
    List Bytes :=
  (List.range' a (b - a)).map fun k =>
    chainInput parameter leaf i (UInt8.ofNat (k + 1))
      (Infra.walk (chainStep parameter leaf i) a k x)

/-- The loop of `walk`, for a walk of `n` steps that has reached `v` at position `a`. -/
theorem walk_loop (i : UInt8) : ∀ (n a : Nat) (self : Chain) (p : UInt8) (v : Element),
    self.Holds parameter leaf i p v →
    ∃ p', ((List.range' a n).foldl (fun s k => (walkStep s k).eval keccak256) self).Holds
        parameter leaf i p' (Infra.walk (chainStep parameter leaf i) a (a + n) v) ∧
      Oracle.asked keccak256 ((List.range' a n).foldlM walkStep self)
        = walkInputs parameter leaf i a (a + n) v
  | 0, a, self, p, v, h => ⟨p, by simpa using h, by simp [walkInputs]⟩
  | n + 1, a, self, p, v, h => by
    obtain ⟨p', hv, hin⟩ := walk_loop i n (a + 1) _ _ _ (eval_walkStep a h)
    have hwalk : ∀ b, a + 1 ≤ b →
        Infra.walk (chainStep parameter leaf i) (a + 1) b (chainStep parameter leaf i (a + 1) v)
          = Infra.walk (chainStep parameter leaf i) a b v := by
      intro b hb
      rw [← walk_trans _ (Nat.le_succ a) hb v]
      simp [Infra.walk]
    rw [show a + 1 + n = a + (n + 1) by omega] at hv hin
    refine ⟨p', ?_, ?_⟩
    · rw [List.range'_succ, List.foldl_cons, ← hwalk _ (by omega)]
      exact hv
    · rw [List.range'_succ, Oracle.asked_foldlM_cons, asked_walkStep a h, hin]
      unfold walkInputs
      rw [show a + (n + 1) - (a + 1) = n by omega, show a + (n + 1) - a = n + 1 by omega,
        List.range'_succ, List.map_cons, walk_self, List.singleton_append]
      congr 1
      refine List.map_congr_left fun k hk => ?_
      rw [List.mem_range'_1] at hk
      rw [hwalk k hk.1]

/-- **A walk is the pure walk**, and the buffer keeps the parameter and the leaf. -/
theorem eval_walk {self : Chain} {i₀ p : UInt8} {v : Element} (h : self.Holds parameter leaf i₀ p v)
    (i start stop : UInt8) (x : Element) :
    ∃ p' self', self'.Holds parameter leaf i p'
        (Infra.walk (chainStep parameter leaf i) start.toNat stop.toNat x) ∧
      (self.walk i start stop x).eval keccak256
        = (Infra.walk (chainStep parameter leaf i) start.toNat stop.toNat x, self') ∧
      (self.walk i start stop x).asked keccak256
        = walkInputs parameter leaf i start.toNat stop.toNat x := by
  have hw := holds_write_value (holds_write_index h i) x
  obtain ⟨p', hv, hin⟩ := walk_loop i (stop.toNat - start.toNat) start.toNat _ p x hw
  have hinputs :
      walkInputs parameter leaf i start.toNat (start.toNat + (stop.toNat - start.toNat)) x
      = walkInputs parameter leaf i start.toNat stop.toNat x := by
    simp [walkInputs]
  rw [walk_add_sub] at hv
  rw [hinputs] at hin
  refine ⟨p', _, hv, ?_, ?_⟩
  · simp only [walk, Oracle.eval_bind, Oracle.eval_foldlM, Oracle.eval_pure]
    rw [slice_of_holds hv]
  · simp only [walk, Oracle.asked_bind, Oracle.asked_pure, List.append_nil, hin]

/-! ## Many walks on one buffer -/

/-- Calls of `walk` on one buffer, one after the other. -/
def walks (self : Chain) : List (UInt8 × UInt8 × UInt8 × Element) → Hashing Chain
  | [] => pure self
  | (i, start, stop, x) :: calls => do
    let (_, self) ← self.walk i start stop x
    self.walks calls

/-- Whatever walks used the buffer, it holds the parameter and the leaf. -/
theorem holds_walks (calls : List (UInt8 × UInt8 × UInt8 × Element)) :
    ∀ {self : Chain} {i p : UInt8} {v : Element}, self.Holds parameter leaf i p v →
      ∃ i' p' v', ((self.walks calls).eval keccak256).Holds parameter leaf i' p' v' := by
  induction calls with
  | nil =>
    intro self i p v h
    exact ⟨i, p, v, by simpa only [walks, Oracle.eval_pure] using h⟩
  | cons call calls ih =>
    intro self i p v h
    obtain ⟨i', start, stop, x⟩ := call
    obtain ⟨p', self', hself, heval, -⟩ := eval_walk h i' start stop x
    simp only [walks, Oracle.eval_bind, heval]
    exact ih hself

/--
**Walks leave no residue.** After any earlier walks on a buffer, a walk returns the fold of the
steps from its start to its end, and leaves the parameter, the role and the leaf in place; no
position overflows a byte. A walk that is split on the way ends where the whole walk ends.
-/
theorem walk_no_residue (parameter : Parameter) (leaf : UInt32)
    (calls : List (UInt8 × UInt8 × UInt8 × Element)) :
    let self := (walks (new parameter leaf) calls).eval keccak256
    (∀ i start stop x,
      let r := (self.walk i start stop x).eval keccak256
      r.1 = (List.range' start.toNat (stop.toNat - start.toNat)).foldl
          (fun v k => fit elementLength (keccak256 (parameter.toList ++ [0] ++ (u32Be leaf).toList
            ++ [i, UInt8.ofNat (k + 1)] ++ v.toList)).toList) x ∧
        r.2.buf.toList.take 23 = parameter.toList ++ [0] ++ (u32Be leaf).toList ∧
        ∀ k ∈ List.range' start.toNat (stop.toNat - start.toNat),
          (UInt8.ofNat k + 1).toNat = k + 1) ∧
    ∀ i start mid stop x, start ≤ mid → mid ≤ stop →
      let r := (self.walk i start mid x).eval keccak256
      ((r.2.walk i mid stop r.1).eval keccak256).1
        = ((self.walk i start stop x).eval keccak256).1 := by
  obtain ⟨i₀, p, v, h⟩ := holds_walks calls (holds_new parameter leaf)
  dsimp only
  constructor
  · intro i start stop x
    obtain ⟨p', self', hself, heval, -⟩ := eval_walk h i start stop x
    rw [heval]
    refine ⟨?_, ?_, ?_⟩
    · simp [Infra.walk, chainStep, truncatedHash, chainInput, roleChain]
    · simpa [roleChain] using take_of_holds hself
    · intro k hk
      have hlt := stop.toNat_lt
      rw [List.mem_range'_1] at hk
      rw [ofNat_add_one, UInt8.toNat_ofNat', Nat.mod_eq_of_lt (by omega)]
  · intro i start mid stop x h1 h2
    obtain ⟨p', self', hself, heval, -⟩ := eval_walk h i start mid x
    obtain ⟨_, _, -, heval', -⟩ := eval_walk hself i mid stop
      (Infra.walk (chainStep parameter leaf i) start.toNat mid.toNat x)
    obtain ⟨_, _, -, heval'', -⟩ := eval_walk h i start stop x
    rw [heval, heval', heval'']
    exact walk_trans _ (UInt8.le_iff_toNat_le.mp h1) (UInt8.le_iff_toNat_le.mp h2) x

omit [Keccak] in
/-- A walk of chain 3 to position 9, in two parts, after a walk of another chain. -/
theorem walk_no_residue_split :
    letI : Keccak := ⟨fun _ => zeros hashLength⟩
    let self := (walks (new (zeros _) 7) [(5, 2, 11, zeros _)]).eval keccak256
    let r := (self.walk 3 0 4 (zeros _)).eval keccak256
    ((r.2.walk 3 4 9 r.1).eval keccak256).1 = ((self.walk 3 0 9 (zeros _)).eval keccak256).1 := by
  let _ : Keccak := ⟨fun _ => zeros hashLength⟩
  exact (walk_no_residue (zeros _) 7 [(5, 2, 11, zeros _)]).2 3 0 4 9 (zeros _) (by decide)
    (by decide)

/-! ## All chains of a leaf -/

/-- The loop over the chains in `l`: the slots in `l` are walked, the others stay. -/
theorem walkAll_loop (start stop : Fin chains → UInt8) (x : Elements) :
    ∀ (l : List (Fin chains)) (slots : Elements) (self : Chain) (i₀ p : UInt8)
    (v : Element), self.Holds parameter leaf i₀ p v →
    (l.foldl (fun st i => (walkSlot start stop x st i).eval keccak256) (slots, self)).1
        = (fun i : Fin chains => if i ∈ l then Infra.walk (chainStep parameter leaf (UInt8.ofNat i))
            (start i).toNat (stop i).toNat (x i) else slots i) ∧
      Oracle.asked keccak256 (l.foldlM (walkSlot start stop x) (slots, self))
        = l.flatMap fun i : Fin chains => walkInputs parameter leaf (UInt8.ofNat i) (start i).toNat
            (stop i).toNat (x i)
  | [], slots, self, _, _, _, _ => ⟨by simp, by simp⟩
  | i :: l, slots, self, i₀, p, v, h => by
    obtain ⟨p', self', hself, heval, hasked⟩ :=
      eval_walk h (UInt8.ofNat i) (start i) (stop i) (x i)
    have hslot : (walkSlot start stop x (slots, self) i).eval keccak256
        = (Function.update slots i (Infra.walk (chainStep parameter leaf (UInt8.ofNat i))
            (start i).toNat (stop i).toNat (x i)), self') := by
      simp only [walkSlot, Oracle.eval_bind, Oracle.eval_pure, heval]
    obtain ⟨ih1, ih2⟩ := walkAll_loop start stop x l _ self' _ _ _ hself
    constructor
    · rw [List.foldl_cons, hslot, ih1]
      funext j
      by_cases hj : j ∈ l
      · rw [if_pos hj, if_pos (List.mem_cons_of_mem _ hj)]
      · by_cases hji : j = i
        · subst hji
          rw [if_neg hj, if_pos List.mem_cons_self, Function.update_self]
        · rw [if_neg hj, if_neg (by simp [hj, hji]), Function.update_of_ne hji]
    · rw [Oracle.asked_foldlM_cons, hslot, ih2, List.flatMap_cons]
      simp only [walkSlot, Oracle.asked_bind, Oracle.asked_pure, List.append_nil, hasked]

/-- The loop of `walkAll` over any list of chains: its slots and its hash inputs. -/
theorem walkAll_list (l : List (Fin chains)) (self : Chain) (start stop : Fin chains → UInt8)
    (x slots : Elements) :
    (do let (slots, _) ← l.foldlM (walkSlot start stop x) (slots, self); pure slots
        : Hashing Elements).eval keccak256
      = (l.foldl (fun st i => (walkSlot start stop x st i).eval keccak256) (slots, self)).1 ∧
    (do let (slots, _) ← l.foldlM (walkSlot start stop x) (slots, self); pure slots
        : Hashing Elements).asked keccak256
      = Oracle.asked keccak256 (l.foldlM (walkSlot start stop x) (slots, self)) := by
  constructor
  · rw [Oracle.eval_bind, Oracle.eval_foldlM]
    exact Oracle.eval_pure _ _
  · rw [Oracle.asked_bind]
    exact (congrArg (_ ++ ·) (Oracle.asked_pure _ _)).trans (List.append_nil _)

/-- **The loop over all chains is 36 independent walks.** -/
theorem eval_walkAll {self : Chain} {i₀ p : UInt8} {v : Element}
    (h : self.Holds parameter leaf i₀ p v) (start stop : Fin chains → UInt8) (x : Elements) :
    (self.walkAll start stop x).eval keccak256 = fun i : Fin chains =>
      Infra.walk (chainStep parameter leaf (UInt8.ofNat i)) (start i).toNat
        (stop i).toNat (x i) := by
  unfold walkAll
  rw [(walkAll_list (List.finRange chains) self start stop x _).1,
    (walkAll_loop start stop x (List.finRange chains) _ self _ _ _ h).1]
  funext i
  rw [if_pos (List.mem_finRange i)]

/-- The hash inputs of the loop over all chains. -/
theorem asked_walkAll {self : Chain} {i₀ p : UInt8} {v : Element}
    (h : self.Holds parameter leaf i₀ p v) (start stop : Fin chains → UInt8) (x : Elements) :
    (self.walkAll start stop x).asked keccak256
      = (List.finRange chains).flatMap fun i : Fin chains =>
      walkInputs parameter leaf (UInt8.ofNat i) (start i).toNat (stop i).toNat (x i) := by
  unfold walkAll
  rw [(walkAll_list (List.finRange chains) self start stop x _).2,
    (walkAll_loop start stop x (List.finRange chains) _ self _ _ _ h).2]

end Chain

/-! ## The chains of a signer -/

namespace Signing

/-- The chain ends of a leaf, from its chain starts. -/
def chainEnds (secrets : Bytes) (parameter : Parameter) (leaf : UInt32) : Elements :=
  fun i => walk (chainStep parameter leaf (UInt8.ofNat i)) 0 15 (start secrets leaf i)

theorem eval_ends (secrets : Bytes) (parameter : Parameter) (leaf : UInt32) :
    (ends secrets parameter leaf).eval keccak256 = chainEnds secrets parameter leaf :=
  Chain.eval_walkAll (Chain.holds_new parameter leaf) _ _ _

end Signing

/-! ## Leaves and nodes -/

@[simp] theorem eval_leafHash (parameter : Parameter) (leaf : UInt32) (ends : Elements) :
    (leafHash parameter leaf ends).eval keccak256 = leafOf parameter leaf ends := by
  simp [leafHash, leafOf, truncatedHash, treeInput, treeTweak_toList]

@[simp] theorem eval_node (parameter : Parameter) (level : UInt8) (index : UInt32)
    (left right : Element) :
    (node parameter level index left right).eval keccak256
      = nodeOf parameter level index left right := by
  simp [node, nodeOf, truncatedHash, treeInput, treeTweak_toList]

@[simp] theorem asked_leafHash (parameter : Parameter) (leaf : UInt32) (ends : Elements) :
    (leafHash parameter leaf ends).asked keccak256
      = [treeInput parameter 0 leaf (flatten ends).toList] := by
  simp [leafHash, treeInput, treeTweak_toList]

@[simp] theorem asked_node (parameter : Parameter) (level : UInt8) (index : UInt32)
    (left right : Element) :
    (node parameter level index left right).asked keccak256
      = [treeInput parameter level index (left.toList ++ right.toList)] := by
  simp [node, treeInput, treeTweak_toList]

end SolanaWinternitz
