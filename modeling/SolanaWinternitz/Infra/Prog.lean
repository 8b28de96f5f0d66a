import Mathlib

/-!
# Programs that make calls

`Prog C A α` is a program that makes calls from `C`, gets an answer `A c` to each, and ends with
an `α`. The meaning of a call is not fixed:

* `run h` runs the program with a handler, a deterministic environment with a state
* `Always R G` is a logic for an environment that is only known by a relation `R`: whatever the
  answers, every call moves the state along `G`, and the postcondition holds at the end. A crash
  between two calls leaves a state that was reached along `G`.

The rules of the logic are `always_ret`, `always_bind`, `always_bindExcept` and
`Always.imp`.
-/

namespace Infra

/-- A program: it has ended, or it makes a call and goes on with the answer. -/
inductive Prog (C : Type) (A : C → Type) (α : Type) : Type where
  | ret (a : α)
  | call (c : C) (k : A c → Prog C A α)

namespace Prog

variable {C : Type} {A : C → Type} {α β σ : Type}

def bind : Prog C A α → (α → Prog C A β) → Prog C A β
  | ret a, f => f a
  | call c k, f => call c fun r => (k r).bind f

instance : Monad (Prog C A) where
  pure := ret
  bind := bind

/-- Make one call. -/
def perform (c : C) : Prog C A (A c) := call c ret

/-! ## Running with a handler -/

/-- Run a program in an environment with a state. -/
def run (h : (c : C) → σ → A c × σ) : Prog C A α → σ → α × σ
  | ret a, s => (a, s)
  | call c k, s => (k (h c s).1).run h (h c s).2

variable (h : (c : C) → σ → A c × σ)

@[simp] theorem run_ret (a : α) (s : σ) : (ret a : Prog C A α).run h s = (a, s) := rfl

@[simp] theorem run_perform (c : C) (s : σ) : (perform c : Prog C A (A c)).run h s = h c s := rfl

@[simp] theorem run_bind (f : α → Prog C A β) : ∀ (p : Prog C A α) (s : σ),
    (p >>= f).run h s = (f (p.run h s).1).run h (p.run h s).2
  | ret _, _ => rfl
  | call c k, s => run_bind f (k (h c s).1) (h c s).2

/-- Running a program that may fail: an error ends it. -/
theorem run_bindExcept {ε : Type} (p : ExceptT ε (Prog C A) α) (f : α → ExceptT ε (Prog C A) β)
    (s : σ) : (p >>= f).run.run h s = match p.run.run h s with
      | (.ok a, s') => (f a).run.run h s'
      | (.error e, s') => (.error e, s') := by
  rw [ExceptT.run_bind, run_bind]
  rcases p.run.run h s with ⟨r, s'⟩
  cases r <;> rfl

/-- Whatever a program is told, what it returns has `Q`. -/
def Yields (Q : α → Prop) : Prog C A α → Prop
  | ret a => Q a
  | call _ k => ∀ r, (k r).Yields Q

theorem yields_bind {Q : β → Prop} {f : α → Prog C A β} (h : ∀ a, (f a).Yields Q) :
    ∀ p : Prog C A α, (p >>= f).Yields Q
  | ret a => h a
  | call _ k => fun r => yields_bind h (k r)

/-! ## The logic -/

/-- Whatever the environment answers: `G` along every call, and `Q` at the end. -/
def Always {S : Type} (R : (c : C) → S → A c → S → Prop) (G : S → S → Prop) :
    Prog C A α → (α → S → Prop) → S → Prop
  | ret a, Q, s => Q a s
  | call c k, Q, s => ∀ r s', R c s r s' → G s s' ∧ (k r).Always R G Q s'

variable {S : Type} {R : (c : C) → S → A c → S → Prop} {G G' : S → S → Prop}

@[simp] theorem always_ret (a : α) (Q : α → S → Prop) (s : S) :
    (ret a : Prog C A α).Always R G Q s ↔ Q a s := Iff.rfl

/-- Sequencing: the second program starts where the first one ends. -/
theorem always_bind (f : α → Prog C A β) {Q : β → S → Prop} : ∀ {p : Prog C A α} {s : S},
    p.Always R G (fun a s' => (f a).Always R G Q s') s → (p >>= f).Always R G Q s
  | ret _, _, hp => hp
  | call _ _, _, hp => fun r s' hr => ⟨(hp r s' hr).1, always_bind f (hp r s' hr).2⟩

/-- Sequencing of a program that may fail with one that runs only on success. -/
theorem always_bindExcept {ε : Type} {p : ExceptT ε (Prog C A) α}
    {f : α → ExceptT ε (Prog C A) β} {Q : Except ε β → S → Prop} {s : S}
    (hp : p.run.Always R G (fun r s' => match r with
      | .ok a => (f a).run.Always R G Q s'
      | .error e => Q (.error e) s') s) : (p >>= f).run.Always R G Q s := by
  rw [ExceptT.run_bind]
  refine always_bind _ ?_
  revert hp
  generalize p.run = p
  induction p generalizing s with
  | ret r =>
    intro hp
    cases r with
    | ok a => exact hp
    | error e => exact hp
  | call c k ih => exact fun hp r s' hr => ⟨(hp r s' hr).1, ih r (hp r s' hr).2⟩

/-- Weakening of the relation and the postcondition. -/
theorem Always.imp {Q Q' : α → S → Prop} (hG : ∀ s s', G s s' → G' s s')
    (hQ : ∀ a s, Q a s → Q' a s) : ∀ {p : Prog C A α} {s : S},
    p.Always R G Q s → p.Always R G' Q' s
  | ret a, s, hp => hQ a s hp
  | call _ _, s, hp => fun r s' hr =>
      ⟨hG s s' (hp r s' hr).1, Always.imp hG hQ (hp r s' hr).2⟩

/-- What always holds holds of a run with a handler that answers within the relation. -/
theorem Always.run {h : (c : C) → S → A c × S} (hR : ∀ c s, R c s (h c s).1 (h c s).2)
    {Q : α → S → Prop} : ∀ {p : Prog C A α} {s : S}, p.Always R G Q s →
      Q (p.run h s).1 (p.run h s).2
  | ret _, _, hp => hp
  | call c k, s, hp => Always.run (p := k (h c s).1) (s := (h c s).2) hR (hp _ _ (hR c s)).2

/-- A handler that carries a second state along without looking at it. -/
theorem run_prod {τ : Type} (h : (c : C) → σ → A c × σ) (t : τ) : ∀ (p : Prog C A α) (s : σ),
    p.run (fun c (s : σ × τ) => ((h c s.1).1, ((h c s.1).2, s.2))) (s, t)
      = ((p.run h s).1, ((p.run h s).2, t))
  | ret _, _ => rfl
  | call c k, s => run_prod h t (k (h c s).1) (h c s).2

end Prog

end Infra
