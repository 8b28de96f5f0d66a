import Mathlib

/-!
# Computations with an oracle

`Oracle ι ω α` is a computation of an `α` that may ask an oracle `ι → ω`. One definition of an
algorithm answers two questions about it:

* `eval f` — what it computes when the oracle is `f`
* `asked f` — which questions it puts to `f`, in order

Both are compositional, so a loop needs one induction for the value and one for the questions.
-/

namespace Infra

variable {ι ω α β σ : Type}

/-- A computation that asks an oracle. -/
def Oracle (ι ω α : Type) : Type := (ι → ω) → α × List ι

namespace Oracle

/-- Ask one question. -/
def ask (i : ι) : Oracle ι ω ω := fun f => (f i, [i])

/-- The value computed when the oracle is `f`. -/
def eval (f : ι → ω) (x : Oracle ι ω α) : α := (x f).1

/-- The questions asked, in order, when the oracle is `f`. -/
def asked (f : ι → ω) (x : Oracle ι ω α) : List ι := (x f).2

instance : Monad (Oracle ι ω) where
  pure a := fun _ => (a, [])
  bind x g := fun f =>
    let r := x f
    let s := g r.1 f
    (s.1, r.2 ++ s.2)

theorem id_map_eq (x : Oracle ι ω α) : id <$> x = x := by
  funext f
  show ((x f).1, (x f).2 ++ []) = x f
  rw [List.append_nil]

theorem bind_assoc_eq {γ : Type} (x : Oracle ι ω α) (g : α → Oracle ι ω β)
    (h : β → Oracle ι ω γ) : x >>= g >>= h = x >>= fun a => g a >>= h := by
  funext f
  exact Prod.ext rfl (List.append_assoc _ _ _)

instance : LawfulMonad (Oracle ι ω) :=
  LawfulMonad.mk' (Oracle ι ω) id_map_eq (fun _ _ => rfl) bind_assoc_eq

-- The parentheses keep these from being used by definitional unfolding: on a long computation
-- that would evaluate it.
variable (f : ι → ω)

@[simp] theorem eval_pure (a : α) : eval f (pure a) = a := (rfl)

@[simp] theorem eval_bind (x : Oracle ι ω α) (g : α → Oracle ι ω β) :
    eval f (x >>= g) = eval f (g (eval f x)) := (rfl)

@[simp] theorem eval_map (x : Oracle ι ω α) (g : α → β) : eval f (g <$> x) = g (eval f x) := (rfl)

@[simp] theorem eval_ask (i : ι) : eval f (ask i) = f i := (rfl)

@[simp] theorem asked_pure (a : α) : asked f (pure a) = [] := (rfl)

@[simp] theorem asked_bind (x : Oracle ι ω α) (g : α → Oracle ι ω β) :
    asked f (x >>= g) = asked f x ++ asked f (g (eval f x)) := (rfl)

@[simp] theorem asked_map (x : Oracle ι ω α) (g : α → β) : asked f (g <$> x) = asked f x :=
  List.append_nil _

@[simp] theorem asked_ask (i : ι) : asked f (ask i : Oracle ι ω ω) = [i] := (rfl)

/-- A loop computes the fold of its body. -/
@[simp] theorem eval_foldlM (g : σ → β → Oracle ι ω σ) : ∀ (l : List β) (s : σ),
    eval f (l.foldlM g s) = l.foldl (fun s b => eval f (g s b)) s
  | [], _ => rfl
  | b :: l, s => by
    rw [List.foldlM_cons, eval_bind, eval_foldlM g l, List.foldl_cons]

/-- A loop asks what its first round asks, then what the rest of the loop asks. -/
theorem asked_foldlM_cons (g : σ → β → Oracle ι ω σ) (b : β) (l : List β) (s : σ) :
    asked f ((b :: l).foldlM g s) = asked f (g s b) ++ asked f (l.foldlM g (eval f (g s b))) := by
  rw [List.foldlM_cons, asked_bind]

/-- **What a counting loop asks**: round by round, each round in the state that the rounds before
it computed. -/
theorem asked_foldlM_range' (g : σ → Nat → Oracle ι ω σ) (s : Nat) (st : σ) (n : Nat) :
    asked f ((List.range' s n).foldlM g st)
      = (List.range n).flatMap fun i =>
          asked f (g ((List.range' s i).foldl (fun st b => eval f (g st b)) st) (s + i)) := by
  induction n with
  | zero => simp
  | succ n ih =>
    rw [List.range'_concat, Nat.one_mul, List.foldlM_append, asked_bind, ih, eval_foldlM,
      asked_foldlM_cons, List.foldlM_nil, asked_pure, List.append_nil, List.range_succ,
      List.flatMap_append, List.flatMap_singleton]

/-- The same for a loop from zero. -/
theorem asked_foldlM_range (g : σ → Nat → Oracle ι ω σ) (st : σ) (n : Nat) :
    asked f ((List.range n).foldlM g st)
      = (List.range n).flatMap fun i =>
          asked f (g ((List.range i).foldl (fun st b => eval f (g st b)) st) i) := by
  simp only [List.range_eq_range', asked_foldlM_range', Nat.zero_add]

attribute [irreducible] eval asked

end Oracle

end Infra
