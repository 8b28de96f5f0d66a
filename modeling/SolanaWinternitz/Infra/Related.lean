import SolanaWinternitz.Infra.Js
import SolanaWinternitz.Infra.Prog

/-!
# Two runs with the same outcome

A program that a handler answers (`Prog`) and a computation that may throw (`Js`) are compared by
how they end: both with a value or both with an error, related by `R` and by `E`, in states related
by `S`. The rules follow the structure of the two sides: `SameRun.ok`, `SameRun.bind`,
`SameRun.onThrow`.
-/

namespace Infra

variable {α α' β β' ε ε' σ σ' : Type}

/-- Two related values, or two related errors. -/
inductive SameResult (E : ε → ε' → Prop) (R : α → α' → Prop) : Except ε α → Except ε' α' → Prop
  | ok {a : α} {a' : α'} (h : R a a') : SameResult E R (.ok a) (.ok a')
  | error {e : ε} {e' : ε'} (h : E e e') : SameResult E R (.error e) (.error e')

/-- The two runs have related results and end in related states. -/
structure SameRun (E : ε → ε' → Prop) (R : α → α' → Prop) (S : σ → σ' → Prop)
    (x : Except ε α × σ) (y : Except ε' α' × σ') : Prop where
  result : SameResult E R x.1 y.1
  state : S x.2 y.2

namespace SameRun

variable {E E' : ε → ε' → Prop} {R : α → α' → Prop} {R' : β → β' → Prop} {S : σ → σ' → Prop}

theorem ok {a : α} {a' : α'} {s : σ} {s' : σ'} (hR : R a a') (hS : S s s') :
    SameRun E R S (.ok a, s) (.ok a', s') := ⟨.ok hR, hS⟩

theorem error {e : ε} {e' : ε'} {s : σ} {s' : σ'} (hE : E e e') (hS : S s s') :
    SameRun E R S (.error e, s) (.error e', s') := ⟨.error hE, hS⟩

/-- Related values are related in any weaker way. -/
theorem imp {x : Except ε α × σ} {y : Except ε' α' × σ'} {T : α → α' → Prop}
    (h : SameRun E R S x y) (hT : ∀ a a', R a a' → T a a') : SameRun E T S x y := by
  obtain ⟨r, t⟩ := x
  obtain ⟨r', t'⟩ := y
  obtain ⟨hr, ht⟩ := h
  cases hr with
  | ok ha => exact .ok (hT _ _ ha) ht
  | error he => exact .error he ht

/-- **Sequencing: the second parts start in related states.** -/
theorem bind {C : Type} {A : C → Type} {h : (c : C) → σ → A c × σ}
    {p : ExceptT ε (Prog C A) α} {f : α → ExceptT ε (Prog C A) β} {j : Js ε' σ' α'}
    {g : α' → Js ε' σ' β'} {s : σ} {s' : σ'} (hp : SameRun E R S (p.run.run h s) (j s'))
    (hf : ∀ a a' s s', R a a' → S s s' → SameRun E R' S ((f a).run.run h s) (g a' s')) :
    SameRun E R' S ((p >>= f).run.run h s) ((j >>= g) s') := by
  rw [Prog.run_bindExcept]
  rcases hx : p.run.run h s with ⟨r, t⟩
  rcases hy : j s' with ⟨r', t'⟩
  rw [hx, hy] at hp
  obtain ⟨hr, ht⟩ := hp
  cases hr with
  | ok ha =>
    rw [Js.bind_ok hy]
    exact hf _ _ t t' ha ht
  | error he =>
    rw [Js.bind_error hy]
    exact .error he ht

/-- Only the program goes on, and it does not fail. -/
theorem mapLeft {C : Type} {A : C → Type} {h : (c : C) → σ → A c × σ}
    {p : ExceptT ε (Prog C A) α} {f : α → β} {y : Except ε' β' × σ'} {R : α → β' → Prop} {s : σ}
    (hp : SameRun E R S (p.run.run h s) y) (hf : ∀ a b', R a b' → R' (f a) b') :
    SameRun E R' S ((p >>= fun a => pure (f a)).run.run h s) y := by
  rw [Prog.run_bindExcept]
  rcases hx : p.run.run h s with ⟨r, t⟩
  rcases y with ⟨r', t'⟩
  rw [hx] at hp
  obtain ⟨hr, ht⟩ := hp
  cases hr with
  | ok ha => exact .ok (hf _ _ ha) ht
  | error he => exact .error he ht

/-- A `catch` that throws again: the errors are related in another way. -/
theorem onThrow {x : Except ε α × σ} {j : Js ε' σ' α'} {s' : σ'} {w : ε' → ε'}
    (h : SameRun E R S x (j s')) (hE : ∀ e e', E e e' → E' e (w e')) :
    SameRun E' R S x (Js.onThrow j (fun e => Js.raise (w e)) s') := by
  rcases x with ⟨r, t⟩
  rcases hy : j s' with ⟨r', t'⟩
  rw [hy] at h
  obtain ⟨hr, ht⟩ := h
  cases hr with
  | ok ha =>
    rw [Js.onThrow_ok hy]
    exact .ok ha ht
  | error he =>
    rw [Js.onThrow_error hy]
    exact .error (hE _ _ he) ht

end SameRun

end Infra
