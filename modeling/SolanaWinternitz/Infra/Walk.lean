import Mathlib

/-!
# Hash chains

A chain applies step functions `f 1, f 2, …` one after the other. `walk f a b x` starts with the
value `x` at position `a` and stops at position `b`; the step that enters position `k` is `f k`.

* `walk_trans` — a walk may be split at any position
* `walk_merge` — two walks with one end have one start, or two different values enter some
  position as one value
* `exists_lt_of_sum_eq` — digit vectors of equal sum are incomparable
-/

namespace Infra

variable {α : Type}

/-- Walk from position `a` to position `b`. -/
def walk (f : Nat → α → α) (a b : Nat) (x : α) : α :=
  (List.range' a (b - a)).foldl (fun v k => f (k + 1) v) x

@[simp] theorem walk_self (f : Nat → α → α) (a : Nat) (x : α) : walk f a a x = x := by
  simp [walk]

/-- A walk to a position before its start stays where it is. -/
theorem walk_add_sub (f : Nat → α → α) (a b : Nat) (x : α) :
    walk f a (a + (b - a)) x = walk f a b x := by
  simp [walk]

/-- A walk may be split at any position on the way. -/
theorem walk_trans (f : Nat → α → α) {a m b : Nat} (h1 : a ≤ m) (h2 : m ≤ b) (x : α) :
    walk f m b (walk f a m x) = walk f a b x := by
  unfold walk
  have hr : List.range' a (b - a) = List.range' a (m - a) ++ List.range' m (b - m) := by
    have ha : List.range' a (m - a) ++ List.range' (a + (m - a)) (b - m)
        = List.range' a (m - a + (b - m)) := List.range'_append_1
    rw [show a + (m - a) = m by omega, show m - a + (b - m) = b - a by omega] at ha
    exact ha.symm
  rw [hr, List.foldl_append]

/-- The last step of a walk. -/
theorem walk_succ (f : Nat → α → α) {a b : Nat} (h : a ≤ b) (x : α) :
    walk f a (b + 1) x = f (b + 1) (walk f a b x) := by
  rw [← walk_trans f h (Nat.le_succ b) x]
  simp [walk]

/--
Two walks over the same positions that end in one value started in one value, or two different
values were mapped to one by the step into some position `k + 1`.
-/
theorem walk_merge (f : Nat → α → α) {a : Nat} {x y : α} : ∀ {b : Nat}, a ≤ b →
    walk f a b x = walk f a b y →
    x = y ∨ ∃ k, a ≤ k ∧ k < b ∧ walk f a k x ≠ walk f a k y ∧
      f (k + 1) (walk f a k x) = f (k + 1) (walk f a k y) := by
  intro b hab
  induction b, hab using Nat.le_induction with
  | base =>
    intro h
    rw [walk_self, walk_self] at h
    exact Or.inl h
  | succ b hab ih =>
    intro h
    rw [walk_succ f hab, walk_succ f hab] at h
    by_cases he : walk f a b x = walk f a b y
    · rcases ih he with hxy | ⟨k, h1, h2, h3, h4⟩
      · exact Or.inl hxy
      · exact Or.inr ⟨k, h1, by omega, h3, h4⟩
    · exact Or.inr ⟨b, hab, by omega, he, h⟩

/-! ## Vectors of equal sum -/

/-- Two different digit vectors of equal sum: the first is smaller somewhere. -/
theorem exists_lt_of_sum_eq {n : Nat} {x y : Fin n → Nat} (hsum : ∑ i, x i = ∑ i, y i)
    (hne : x ≠ y) : ∃ i, x i < y i := by
  by_contra hall
  have hle : ∀ i, y i ≤ x i := fun i => Nat.le_of_not_lt fun h => hall ⟨i, h⟩
  obtain ⟨j, hj⟩ := Function.ne_iff.mp hne
  have hlt : ∑ i, y i < ∑ i, x i :=
    Finset.sum_lt_sum (fun i _ => hle i) ⟨j, Finset.mem_univ j, lt_of_le_of_ne (hle j) (Ne.symm hj)⟩
  omega

end Infra
