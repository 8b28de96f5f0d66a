import Mathlib

/-!
# Merkle trees

`f l i` makes node `i` of level `l` from its two children, so every node may be made its own way.
The tree over the leaves `leaf` is `merkle f leaf l i`. `climb` goes from a leaf to the root along
an authentication path, as a verifier does: at each level the bit of the index tells the side.

* `climb_merkle` — the siblings of the tree lead to the node above
* `climb_binding` — a path that ends in a node of the tree is the tree's path, or at some level two
  different pairs of children make one node
-/

namespace Infra

variable {α : Type}

/-- Node `i` of level `l`, level 0 being the leaves. -/
def merkle (f : Nat → Nat → α → α → α) (leaf : Nat → α) : Nat → Nat → α
  | 0, i => leaf i
  | l + 1, i => f (l + 1) i (merkle f leaf l (2 * i)) (merkle f leaf l (2 * i + 1))

/-- The neighbour with the same parent. -/
def siblingIndex (i : Nat) : Nat := if i % 2 = 0 then i + 1 else i - 1

/-- The two children of the parent of node `i`, given node `i` and its sibling. -/
def childPair (i : Nat) (current sibling : α) : α × α :=
  if i % 2 = 0 then (current, sibling) else (sibling, current)

/-- Go up `h` levels from leaf `i` with value `x`; `sib l` is the sibling at level `l`. -/
def climb (f : Nat → Nat → α → α → α) (i : Nat) (sib : Nat → α) : Nat → α → α
  | 0, x => x
  | l + 1, x =>
    let p := childPair (i / 2 ^ l) (climb f i sib l x) (sib l)
    f (l + 1) (i / 2 ^ (l + 1)) p.1 p.2

theorem childPair_inj {i : Nat} {c s c' s' : α} (h : childPair i c s = childPair i c' s') :
    c = c' ∧ s = s' := by
  unfold childPair at h
  split at h
  · exact Prod.mk.inj h
  · exact (Prod.mk.inj h).symm

/-- Node `i` and its sibling are the two children of node `i / 2`. -/
theorem childPair_merkle (f : Nat → Nat → α → α → α) (leaf : Nat → α) (l i : Nat) :
    childPair i (merkle f leaf l i) (merkle f leaf l (siblingIndex i))
      = (merkle f leaf l (2 * (i / 2)), merkle f leaf l (2 * (i / 2) + 1)) := by
  unfold childPair siblingIndex
  split
  · next h =>
    rw [show 2 * (i / 2) = i by omega]
  · next h =>
    rw [show 2 * (i / 2) = i - 1 by omega, show i - 1 + 1 = i by omega]

theorem div_pow_succ (i l : Nat) : i / 2 ^ (l + 1) = i / 2 ^ l / 2 := by
  rw [Nat.pow_succ, Nat.div_div_eq_div_mul]

/-- **The path of the tree leads from a leaf to every node above it.** -/
theorem climb_merkle (f : Nat → Nat → α → α → α) (leaf : Nat → α) (i : Nat) (sib : Nat → α) :
    ∀ h, (∀ l < h, sib l = merkle f leaf l (siblingIndex (i / 2 ^ l))) →
      climb f i sib h (leaf i) = merkle f leaf h (i / 2 ^ h)
  | 0, _ => by simp [climb, merkle]
  | h + 1, hs => by
    have ih := climb_merkle f leaf i sib h (fun l hl => hs l (by omega))
    rw [climb, ih, hs h (by omega), childPair_merkle, div_pow_succ, merkle]

/--
**A path binds the leaf.** If the climb ends in the node of the tree, then the start and every
sibling are those of the tree, or at some level the climb and the tree make the same node from two
different pairs of children.
-/
theorem climb_binding (f : Nat → Nat → α → α → α) (leaf : Nat → α) (i : Nat) (sib : Nat → α)
    (x : α) : ∀ h, climb f i sib h x = merkle f leaf h (i / 2 ^ h) →
      (x = leaf i ∧ ∀ l < h, sib l = merkle f leaf l (siblingIndex (i / 2 ^ l))) ∨
      ∃ l < h,
        childPair (i / 2 ^ l) (climb f i sib l x) (sib l)
          ≠ (merkle f leaf l (2 * (i / 2 ^ (l + 1))), merkle f leaf l (2 * (i / 2 ^ (l + 1)) + 1)) ∧
        climb f i sib (l + 1) x = merkle f leaf (l + 1) (i / 2 ^ (l + 1))
  | 0, hroot => Or.inl ⟨by simpa [climb, merkle] using hroot, fun l hl => absurd hl (by omega)⟩
  | h + 1, hroot => by
    by_cases hp : childPair (i / 2 ^ h) (climb f i sib h x) (sib h)
        = (merkle f leaf h (2 * (i / 2 ^ (h + 1))), merkle f leaf h (2 * (i / 2 ^ (h + 1)) + 1))
    · rw [div_pow_succ, ← childPair_merkle] at hp
      obtain ⟨hc, hsib⟩ := childPair_inj hp
      rcases climb_binding f leaf i sib x h hc with ⟨hx, hl⟩ | ⟨l, hl, hne, heq⟩
      · refine Or.inl ⟨hx, fun l hlt => ?_⟩
        rcases Nat.lt_succ_iff_lt_or_eq.mp hlt with hlt | rfl
        · exact hl l hlt
        · exact hsib
      · exact Or.inr ⟨l, by omega, hne, heq⟩
    · exact Or.inr ⟨h, by omega, hp, hroot⟩

end Infra
