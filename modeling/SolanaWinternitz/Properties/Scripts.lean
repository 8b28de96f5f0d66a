import SolanaWinternitz.Infra.Replace
import SolanaWinternitz.Properties.Reentrancy

/-!
# Whole scripts

A caller runs any script of calls on one signer. The script sees what each call returns, passes
callbacks that call the signer again, and overwrites its own buffers.

* `Callback.account` — a script keeps the account of its signatures
* `leaf_signs_once` — **no leaf signs two messages**, whatever the script is
-/

namespace SolanaWinternitz.Ts

open Infra Infra.Os Infra.Js

variable {K Pid X α : Type} [Keccak] [OneTime K]
  {fill : FillRandom (Process K Pid (Captured K Pid))}

/-! ## Calls between attempts -/

/-- A later state of a signer: it is at a later leaf, or it remembers the same message. -/
structure Later (s s' : SigningKey K) : Prop where
  key : s'.key = s.key
  path : s'.path = s.path
  leaf : s.nextLeaf < s'.nextLeaf ∨
    s'.nextLeaf = s.nextLeaf ∧ s'.lastMessage = s.lastMessage ∧ s'.lastSalt = s.lastSalt

omit [Keccak] [OneTime K] in
theorem Later.refl (s : SigningKey K) : Later s s := ⟨rfl, rfl, Or.inr ⟨rfl, rfl, rfl⟩⟩

omit [Keccak] [OneTime K] in
theorem Later.trans {s s' s'' : SigningKey K} (h : Later s s') (h' : Later s' s'') :
    Later s s'' := by
  refine ⟨h'.key.trans h.key, h'.path.trans h.path, ?_⟩
  rcases h.leaf with hlt | ⟨hleaf, hmessage, hsalt⟩
  · rcases h'.leaf with hlt' | ⟨hleaf', -⟩
    · exact Or.inl (hlt.trans hlt')
    · exact Or.inl (hleaf' ▸ hlt)
  · rw [← hleaf, ← hmessage, ← hsalt]
    exact h'.leaf

/-- The signer has moved on, and all nested calls were harmless. -/
structure Step (p p' : Process K Pid (Captured K Pid)) : Prop where
  idle : p'.Idle
  later : Later p.self p'.self
  log : Heard p p'

omit [Keccak] [OneTime K] in
theorem Step.refl {p : Process K Pid (Captured K Pid)} (h : p.Idle) : Step p p :=
  ⟨h, .refl _, .refl p⟩

omit [Keccak] [OneTime K] in
theorem Step.trans {p p' p'' : Process K Pid (Captured K Pid)} (h : Step p p')
    (h' : Step p' p'') : Step p p'' := ⟨h'.idle, h.later.trans h'.later, h.log.trans h'.log⟩

/-- The signature that a signer gives for the message that it remembers. -/
def Signs (s : SigningKey K) (bytes : Bytes) : Prop :=
  ∃ message sig, s.lastMessage = some message ∧
    OneTime.signAtWithSalt s.key (.integer (s.nextLeaf - 1)) message s.lastSalt = .ok sig ∧
    bytes = OneTime.toBytes sig

/-- What a call between two attempts does. -/
def Orderly (x : Reentrant K Pid Reply) (p : Process K Pid (Captured K Pid)) : Prop :=
  ∃ reply p', x p = (.ok reply, p') ∧ Step p p' ∧
    ∀ bytes, reply = .signature bytes → Signs p'.self bytes

omit [Keccak] in
theorem orderly_settle {x : Reentrant K Pid α} {reply : α → Reply}
    {p : Process K Pid (Captured K Pid)} (hx : Moves Step x p)
    (hreply : ∀ a p', x p = (.ok a, p') → ∀ bytes, reply a = .signature bytes →
      Signs p'.self bytes) : Orderly (settle reply x) p := by
  rcases hr : x p with ⟨r, p'⟩
  have hstep : Step p p' := hx.along hr
  cases r with
  | ok a =>
    have hbind : (do pure (reply (← x)) : Reentrant K Pid Reply) p = (.ok (reply a), p') :=
      bind_ok hr
    exact ⟨reply a, p', onThrow_ok hbind, hstep, hreply a p' hr⟩
  | error e =>
    have hbind : (do pure (reply (← x)) : Reentrant K Pid Reply) p = (.error e, p') :=
      bind_error hr
    refine ⟨.thrown e, p', onThrow_error hbind, hstep, fun bytes he => ?_⟩
    cases he

omit [Keccak] in
theorem Settled.step {value : Bytes} {p p' : Process K Pid (Captured K Pid)}
    {r : Except Thrown (OneTime.Signature K)} (h : Settled value p p' r) : Step p p' := by
  refine ⟨h.idle, ⟨h.key, h.path, ?_⟩, h.log⟩
  rcases h.spent with ⟨hself, -⟩ | hleaf
  · rw [hself]
    exact Or.inr ⟨rfl, rfl, rfl⟩
  · exact Or.inl (by omega)

omit [Keccak] in
theorem Settled.signs {value : Bytes} {p p' : Process K Pid (Captured K Pid)}
    {sig : OneTime.Signature K} (h : Settled value p p' (.ok sig)) :
    Signs p'.self (OneTime.toBytes sig) := by
  obtain ⟨hmessage, hsign⟩ := h.signed sig rfl
  exact ⟨value, sig, hmessage, h.key ▸ hsign, rfl⟩

/-- A signature between two attempts. -/
theorem orderly_sign (hfill : SilentFill fill) (message : Ref)
    {p : Process K Pid (Captured K Pid)} (h : p.Idle) :
    Orderly
      (settle (fun sig => .signature (OneTime.toBytes sig)) (signWithRng message fill)) p := by
  have hsettled := signWithRng_settled hfill message h
  refine orderly_settle hsettled.step fun sig p' hrun bytes hbytes => ?_
  rw [hrun] at hsettled
  cases hbytes
  exact hsettled.signs

/-- The signer and what the callbacks keep are as they were; files may have changed. -/
structure Elsewhere (p p' : Process K Pid X) : Prop where
  self : p'.self = p.self
  captured : p'.captured = p.captured

omit [Keccak] [OneTime K] in
theorem Elsewhere.refl (p : Process K Pid X) : Elsewhere p p := ⟨rfl, rfl⟩

omit [Keccak] [OneTime K] in
theorem Elsewhere.trans {p p' p'' : Process K Pid X} (h : Elsewhere p p') (h' : Elsewhere p' p'') :
    Elsewhere p p'' := ⟨h'.self.trans h.self, h'.captured.trans h.captured⟩

section

variable {R : Process K Pid X → Process K Pid X → Prop} {path : String} (refl : ∀ p, R p p)
  (trans : ∀ {p p' p''}, R p p' → R p' p'' → R p p'')

include refl trans

omit [Keccak] [OneTime K] in
theorem moves_orThrow {ε : Type} {x : Action K Pid X (Except ε α)} (f : ε → Thrown)
    (hx : ∀ p, Moves R x p) (p : Process K Pid X) : Moves R (orThrow f x) p :=
  moves_bind trans (hx p) fun _ p' _ => refl p'

variable (call : ∀ c, World.Passive path c → ∀ p : Process K Pid X, Moves R (invoke c) p)

include call

omit [Keccak] [OneTime K] in
theorem moves_acquire (p : Process K Pid X) : Moves R (acquire path) p := by
  have hlock : World.Passive path (.openSidecar (sibling path ".lock")) := sibling_ne (by decide)
  refine moves_bind trans (moves_onThrow trans
    (moves_orThrow refl trans system (call (.openSidecar _) hlock) p) fun _ p _ => refl p)
    fun fd p _ => moves_onThrow trans ?_ fun e p _ => ?_
  · refine moves_bind trans (moves_bind trans (call (.tryLock fd) trivial p)
      fun _ p _ => refl p) fun locked p _ => ?_
    split <;> exact refl p
  · exact moves_bind trans (moves_orThrow refl trans system (call (.close fd) trivial) p)
      fun _ p _ => refl p

omit [Keccak] [OneTime K] in
theorem moves_readFileSync (p : Process K Pid X) : Moves R (readFileSync path) p := by
  refine moves_bind trans (moves_orThrow refl trans system (call (.openRead path) trivial) p)
    fun fd p _ => moves_onExit (R := R) trans ?_ fun p => ?_
  · refine moves_bind trans (moves_orThrow refl trans system (call (.fileLen fd) trivial) p)
      fun length p _ => ?_
    exact moves_bind trans
      (moves_orThrow refl trans system (call (.readExact fd 0 length) trivial) p)
      fun _ p _ => refl p
  · exact moves_orThrow refl trans system (call (.close fd) trivial) p

/-- `open` makes no call that puts a file in place. -/
theorem moves_openFile (p : Process K Pid X) :
    Moves R (SigningKey.openFile path : Action K Pid X (SigningKey K)) p := by
  refine moves_bind trans (moves_acquire refl trans call p) fun lock p _ =>
    moves_onThrow trans ?_ fun e p _ => moves_bind trans
      (moves_orThrow refl trans system (call (.release lock) trivial) p) fun _ p _ => refl p
  refine moves_bind trans (moves_onThrow trans (moves_readFileSync refl trans call p)
    fun e p _ => ?_) fun record p _ => refl p
  split <;> exact refl p

end

/-- The calls with which `create` makes a file. -/
def Makes (path : String) : Call String → Prop
  | .createNew n => n = path
  | .writeAll _ _ | .syncAll _ | .syncDir | .close _ | .random _ => True
  | _ => False

section

variable {R : Process K Pid X → Process K Pid X → Prop} {path : String} (refl : ∀ p, R p p)
  (trans : ∀ {p p' p''}, R p p' → R p' p'' → R p p'')
  (call : ∀ c, Makes path c → ∀ p : Process K Pid X, Moves R (invoke c) p)

include refl trans call

omit [Keccak] [OneTime K] in
theorem moves_fillRandom (n : Nat) (p : Process K Pid X) : Moves R (fillRandom n) p :=
  moves_onThrow trans (moves_orThrow refl trans _ (call (.random n) trivial) p) fun _ p _ => refl p

omit [Keccak] in
theorem moves_writeRecord (signer : SigningKey K) (fd : Fd) (p : Process K Pid X) :
    Moves R (signer.writeRecord fd) p := by
  refine moves_bind trans (refl p) fun header p _ => ?_
  refine moves_bind trans (moves_orThrow refl trans system (call (.writeAll fd header) trivial) p)
    fun _ p _ => ?_
  exact moves_orThrow refl trans system (call (.writeAll fd _) trivial) p

omit [Keccak] in
theorem moves_createLocked (lock : Fd) (p : Process K Pid X) :
    Moves R (SigningKey.createLocked path lock : Action K Pid X (SigningKey K)) p := by
  refine moves_bind trans (moves_onThrow trans
    (moves_orThrow refl trans system (call (.createNew path) rfl) p) fun e p _ => ?_)
    fun fd p _ => moves_bind trans (moves_onExit (R := R) trans ?_ fun p => ?_) fun signer p _ =>
      moves_bind trans (moves_orThrow refl trans system (call .syncDir trivial) p)
        fun _ p _ => refl p
  · split <;> exact refl p
  · refine moves_bind trans (moves_fillRandom refl trans call _ p) fun secrets p _ =>
      moves_bind trans (moves_fillRandom refl trans call _ p) fun parameter p _ =>
      moves_bind trans (refl p) fun key p _ =>
      moves_bind trans (moves_writeRecord refl trans call _ fd p) fun _ p _ => ?_
    exact moves_bind trans (moves_orThrow refl trans system (call (.syncAll fd) trivial) p)
      fun _ p _ => refl p
  · exact moves_orThrow refl trans system (call (.close fd) trivial) p

end

omit [Keccak] [OneTime K] in
theorem elsewhere_invoke (c : Call String) (p : Process K Pid X) :
    Moves Elsewhere (invoke c) p := ⟨rfl, rfl⟩

/-- `open` of a signer that is dropped. -/
theorem elsewhere_openFile (path : String) (p : Process K Pid X) :
    Moves Elsewhere (SigningKey.openFile path : Action K Pid X (SigningKey K)) p :=
  moves_openFile .refl .trans (fun c _ => elsewhere_invoke c) p

omit [Keccak] in
/-- `create` makes these calls and no others. -/
theorem moves_create {R : Process K Pid X → Process K Pid X → Prop} {path : String}
    (refl : ∀ p, R p p) (trans : ∀ {p p' p''}, R p p' → R p' p'' → R p p'')
    (call : ∀ c, World.Passive path c ∨ Makes path c → ∀ p : Process K Pid X, Moves R (invoke c) p)
    (p : Process K Pid X) :
    Moves R (SigningKey.create path : Action K Pid X (SigningKey K)) p := by
  refine moves_bind trans (moves_acquire refl trans (fun c hc => call c (Or.inl hc)) p)
    fun lock p _ => moves_onThrow trans
      (moves_createLocked refl trans (fun c hc => call c (Or.inr hc)) lock p) fun e p _ => ?_
  exact moves_bind trans (moves_orThrow refl trans system
    (call (.release lock) (Or.inl trivial)) p) fun _ p _ => refl p

omit [Keccak] in
/-- `create` of a signer that is dropped. -/
theorem elsewhere_create (path : String) (p : Process K Pid X) :
    Moves Elsewhere (SigningKey.create path : Action K Pid X (SigningKey K)) p :=
  moves_create .refl .trans (fun c _ => elsewhere_invoke c) p

omit [Keccak] [OneTime K] in
/-- The signer has not changed, and it still holds its lock. -/
theorem Elsewhere.step {p p' : Process K Pid (Captured K Pid)} (h : Elsewhere p p') (hp : p.Idle)
    (hlocked : p.self.closed = false → p'.Locked) : Step p p' := by
  refine ⟨⟨?_, fun hopen => hlocked ?_⟩, ?_, .of_eq (by rw [h.captured])⟩
  · rw [h.self]
    exact hp.sampling
  · rwa [h.self] at hopen
  · rw [h.self]
    exact .refl _

omit [Keccak] [OneTime K] in
theorem step_close {p : Process K Pid (Captured K Pid)} (h : p.Idle) : Moves Step close p := by
  by_cases hclosed : p.self.closed = true
  · unfold Moves close
    rw [look_bind, if_neg (Bool.eq_false_iff.mp h.sampling), if_pos hclosed]
    exact Elsewhere.step (.refl p) h h.held
  · obtain ⟨r, p', hrun, hself, hcaptured⟩ :=
      close_apply h.sampling (Bool.eq_false_iff.mpr hclosed)
    unfold Moves
    rw [hrun]
    refine ⟨⟨?_, fun hopen => ?_⟩, ?_, .of_eq (by rw [hcaptured])⟩
    · rw [hself]
      exact h.sampling
    · rw [hself] at hopen
      cases hopen
    · rw [hself]
      exact ⟨rfl, rfl, Or.inr ⟨rfl, rfl, rfl⟩⟩

omit [Keccak] in
theorem step_requireNextLeafAtLeast (minimum : Number) {p : Process K Pid (Captured K Pid)}
    (h : p.Idle) : Moves Step (requireNextLeafAtLeast minimum) p := by
  have hrefuse : ∀ e, Moves Step (do close; raise e : Reentrant K Pid Unit) p := fun e =>
    moves_bind .trans (step_close h) fun _ p' hrun => .refl ((step_close h).along hrun).idle
  unfold requireNextLeafAtLeast
  cases minimum with
  | other => exact hrefuse _
  | integer n =>
    dsimp only
    by_cases hn : n < 0 ∨ n > OneTime.leaves K
    · rw [if_pos hn]
      exact hrefuse _
    · rw [if_neg hn]
      unfold Moves
      rw [look_bind]
      by_cases hlt : p.self.nextLeaf < n
      · rw [if_pos hlt]
        exact hrefuse _
      · rw [if_neg hlt]
        exact .refl h

omit [Keccak] [OneTime K] in
/-- A second signer on the path of this one. -/
theorem step_second {x : Reentrant K Pid (SigningKey K)} {p : Process K Pid (Captured K Pid)}
    (h : p.Idle) (hx : Moves Elsewhere x p) (hlocked : p.Locked → Moves Untouched x p) :
    Moves Step x p :=
  Elsewhere.step hx h fun hopen => (hlocked (h.held hopen)).locked (h.held hopen)

/-- **Between two attempts every call keeps the signer in order**, and what it signs is the message
that the signer then remembers. -/
theorem NestedCall.orderly (c : NestedCall) {p : Process K Pid (Captured K Pid)} (h : p.Idle) :
    Orderly c.run p := by
  have hdone : ∀ (p' : Process K Pid (Captured K Pid)) (bytes : Bytes),
      Reply.done = .signature bytes → Signs p'.self bytes := fun p' bytes he => by cases he
  cases c with
  | sign message =>
    rw [NestedCall.run]
    exact orderly_sign silent_fillRandom message h
  | signWithRng message callbacks =>
    let p₀ : Process K Pid (Captured K Pid) := { p with captured := { p.captured with round := 0 } }
    obtain ⟨reply, p', hrun, hstep, hsigns⟩ :=
      orderly_sign (silent_callbackFill callbacks) message (p := p₀) ⟨h.sampling, h.held⟩
    rw [callbackFill] at hrun
    refine ⟨reply, { p' with captured := { p'.captured with round := p.captured.round } }, ?_,
      ⟨⟨hstep.idle.sampling, hstep.idle.held⟩, hstep.later, hstep.log⟩, hsigns⟩
    rw [NestedCall.run, look_bind]
    unfold setRound
    rw [assign_bind, bind_ok hrun]
    rfl
  | close =>
    rw [NestedCall.run]
    exact orderly_settle (step_close h) fun _ p' _ => hdone p'
  | dispose =>
    rw [NestedCall.run]
    exact orderly_settle (step_close h) fun _ p' _ => hdone p'
  | requireNextLeafAtLeast minimum =>
    rw [NestedCall.run]
    exact orderly_settle (step_requireNextLeafAtLeast minimum h) fun _ p' _ => hdone p'
  | nextLeaf =>
    rw [NestedCall.run]
    exact orderly_settle (.refl h) fun _ _ _ bytes he => by cases he
  | remaining =>
    rw [NestedCall.run]
    exact orderly_settle (.refl h) fun _ _ _ bytes he => by cases he
  | verifyingKey =>
    rw [NestedCall.run]
    exact orderly_settle (.refl h) fun _ _ _ bytes he => by cases he
  | openFile =>
    have hsettle := orderly_settle (step_second h (elsewhere_openFile p.self.path p)
      quiet_openFile) fun _ p' _ => hdone p'
    unfold Orderly at hsettle ⊢
    rw [NestedCall.run, look_bind]
    exact hsettle
  | create =>
    have hsettle := orderly_settle (step_second h (elsewhere_create p.self.path p)
      quiet_create) fun _ p' _ => hdone p'
    unfold Orderly at hsettle ⊢
    rw [NestedCall.run, look_bind]
    exact hsettle

/-! ## The account -/

/-- What the caller saw of its calls, with the signer as it is now. -/
structure Account (key : K) (signer : SigningKey K) (log : List (Observation K Pid)) : Prop where
  same : signer.key = key
  /-- A call during an attempt changed nothing and gave no signature. -/
  quiet : ∀ o ∈ log, o.before.1.sampling = true → o.Harmless
  signs : ∀ o ∈ log, ∀ bytes, o.reply = .signature bytes →
    Signs o.after.1 bytes ∧ Later o.after.1 signer
  /-- Two signatures at one leaf are for one message, with one salt. -/
  once : ∀ o ∈ log, ∀ o' ∈ log, ∀ bytes bytes', o.reply = .signature bytes →
    o'.reply = .signature bytes' → o.after.1.nextLeaf = o'.after.1.nextLeaf →
    o.after.1.lastMessage = o'.after.1.lastMessage ∧ o.after.1.lastSalt = o'.after.1.lastSalt

namespace Account

variable {key : K} {signer signer' : SigningKey K} {log seen : List (Observation K Pid)}

omit [Keccak] in
theorem later (h : Account key signer log) (hlater : Later signer signer') :
    Account key signer' log where
  same := hlater.key.trans h.same
  quiet := h.quiet
  signs o ho bytes hbytes :=
    ⟨(h.signs o ho bytes hbytes).1, (h.signs o ho bytes hbytes).2.trans hlater⟩
  once := h.once

omit [Keccak] in
/-- Harmless calls add nothing to the account. -/
theorem append (h : Account key signer log) (hseen : ∀ o ∈ seen, o.Harmless) :
    Account key signer (log ++ seen) := by
  have hmem : ∀ o ∈ log ++ seen, ∀ bytes, o.reply = .signature bytes → o ∈ log := by
    intro o ho bytes hbytes
    rcases List.mem_append.mp ho with ho | ho
    · exact ho
    · exact absurd hbytes ((hseen o ho).2 bytes)
  refine ⟨h.same, fun o ho hsampling => ?_, fun o ho bytes hbytes => ?_, ?_⟩
  · exact (List.mem_append.mp ho).elim (fun ho => h.quiet o ho hsampling) (hseen o)
  · exact h.signs o (hmem o ho bytes hbytes) bytes hbytes
  · intro o ho o' ho' bytes bytes' hbytes hbytes' hleaf
    exact h.once o (hmem o ho bytes hbytes) o' (hmem o' ho' bytes' hbytes') bytes bytes' hbytes
      hbytes' hleaf

omit [Keccak] in
/-- Enter a call between two attempts that gave no signature. -/
theorem note (h : Account key signer log) {o : Observation K Pid}
    (hbefore : o.before.1.sampling = false) (hreply : ∀ bytes, o.reply ≠ .signature bytes) :
    Account key signer (log ++ [o]) := by
  have hmem : ∀ o' ∈ log ++ [o], ∀ bytes, o'.reply = .signature bytes → o' ∈ log := by
    intro o' ho' bytes hbytes
    rcases List.mem_append.mp ho' with ho' | ho'
    · exact ho'
    · rw [List.mem_singleton.mp ho'] at hbytes
      exact absurd hbytes (hreply bytes)
  refine ⟨h.same, fun o' ho' hsampling => ?_,
    fun o' ho' bytes hbytes => h.signs o' (hmem o' ho' bytes hbytes) bytes hbytes, ?_⟩
  · rcases List.mem_append.mp ho' with ho' | ho'
    · exact h.quiet o' ho' hsampling
    · rw [List.mem_singleton.mp ho', hbefore] at hsampling
      cases hsampling
  · intro o₁ h₁ o₂ h₂ bytes bytes' hbytes hbytes' hleaf
    exact h.once o₁ (hmem o₁ h₁ bytes hbytes) o₂ (hmem o₂ h₂ bytes' hbytes') bytes bytes' hbytes
      hbytes' hleaf

omit [Keccak] in
/-- Enter a call of the signer as it is now. -/
theorem enter (h : Account key signer log) {o : Observation K Pid}
    (hbefore : o.before.1.sampling = false) (hafter : o.after.1 = signer)
    (hsigns : ∀ bytes, o.reply = .signature bytes → Signs signer bytes) :
    Account key signer (log ++ [o]) := by
  -- An earlier signature at the leaf of the last one is for the message that is remembered.
  have hlast : ∀ o' ∈ log, ∀ bytes, o'.reply = .signature bytes →
      o'.after.1.nextLeaf = signer.nextLeaf → signer.lastMessage = o'.after.1.lastMessage ∧
        signer.lastSalt = o'.after.1.lastSalt := by
    intro o' ho' bytes hbytes hleaf
    rcases (h.signs o' ho' bytes hbytes).2.leaf with hlt | ⟨-, hmessage, hsalt⟩
    · omega
    · exact ⟨hmessage, hsalt⟩
  refine ⟨h.same, fun p hp hsampling => ?_, fun p hp bytes hbytes => ?_, ?_⟩
  · rcases List.mem_append.mp hp with hp | hp
    · exact h.quiet p hp hsampling
    · rw [List.mem_singleton.mp hp, hbefore] at hsampling
      cases hsampling
  · rcases List.mem_append.mp hp with hp | hp
    · exact h.signs p hp bytes hbytes
    · rw [List.mem_singleton.mp hp] at hbytes ⊢
      rw [hafter]
      exact ⟨hsigns bytes hbytes, .refl signer⟩
  · intro p hp p' hp' bytes bytes' hbytes hbytes' hleaf
    rcases List.mem_append.mp hp with hp | hp <;> rcases List.mem_append.mp hp' with hp' | hp'
    · exact h.once p hp p' hp' bytes bytes' hbytes hbytes' hleaf
    · rw [List.mem_singleton.mp hp', hafter] at hleaf ⊢
      obtain ⟨hmessage, hsalt⟩ := hlast p hp bytes hbytes hleaf
      exact ⟨hmessage.symm, hsalt.symm⟩
    · rw [List.mem_singleton.mp hp, hafter] at hleaf ⊢
      exact hlast p' hp' bytes' hbytes' hleaf.symm
    · rw [List.mem_singleton.mp hp, List.mem_singleton.mp hp']
      exact ⟨rfl, rfl⟩

end Account

omit [Keccak] in
/-- One call of a script, entered into the account. -/
theorem Account.observe {key : K} {x : Reentrant K Pid Reply} {p : Process K Pid (Captured K Pid)}
    (h : p.Idle) (hx : Orderly x p) (haccount : Account key p.self p.captured.log) :
    ∃ reply p', Ts.observe x p = (.ok reply, p') ∧ p'.Idle ∧
      Account key p'.self p'.captured.log := by
  obtain ⟨reply, p', hrun, hstep, hsigns⟩ := hx
  obtain ⟨seen, hlog, hseen⟩ := hstep.log
  unfold Ts.observe
  rw [look_bind, bind_ok hrun, assign_bind]
  refine ⟨reply, _, rfl, ⟨hstep.idle.sampling, hstep.idle.held⟩, ?_⟩
  show Account key p'.self (p'.captured.log ++ _)
  rw [hlog]
  exact ((haccount.later hstep.later).append hseen).enter h.sampling rfl hsigns

/-- **A script keeps its account**, step by step. -/
theorem Callback.account {key : K} : ∀ (script : Callback) {p : Process K Pid (Captured K Pid)},
    p.Idle → Account key p.self p.captured.log →
      Account key (script.run p).2.self (script.run p).2.captured.log
  | .call c next, p, h, haccount => by
    obtain ⟨reply, p', hrun, hidle, haccount'⟩ := haccount.observe h (c.orderly h)
    rw [Callback.run, bind_ok hrun]
    exact (next reply).account hidle haccount'
  | .overwrite buffer data next, p, h, haccount => by
    let p' : Process K Pid (Captured K Pid) :=
      { p with buffers := Function.update p.buffers buffer data }
    have hp' : p'.Idle := ⟨h.sampling, h.held⟩
    rw [Callback.run, assign_bind]
    exact next.account hp' haccount
  | .fill data, p, _, haccount => by
    rw [Callback.run]
    exact haccount
  | .raise e, p, _, haccount => by
    rw [Callback.run]
    exact haccount

omit [Keccak] in
/-- A signer signs one thing at a time. -/
theorem Signs.unique {s s' : SigningKey K} {bytes bytes' : Bytes} (h : Signs s bytes)
    (h' : Signs s' bytes') (hkey : s.key = s'.key) (hleaf : s.nextLeaf = s'.nextLeaf)
    (hmessage : s.lastMessage = s'.lastMessage) (hsalt : s.lastSalt = s'.lastSalt) :
    bytes = bytes' := by
  obtain ⟨message, sig, hlast, hsign, rfl⟩ := h
  obtain ⟨message', sig', hlast', hsign', rfl⟩ := h'
  rw [hmessage, hlast'] at hlast
  cases hlast
  rw [hkey, hleaf, hsalt, hsign'] at hsign
  cases hsign
  rfl

/-- What a caller saw of all its calls on a signer with this key. -/
structure SignsOnce (key : K) (log : List (Observation K Pid)) : Prop where
  /-- A call during an attempt changed nothing and gave no signature. -/
  quiet : ∀ o ∈ log, o.before.1.sampling = true → o.Harmless
  signs : ∀ o ∈ log, ∀ bytes, o.reply = .signature bytes →
    o.after.1.key = key ∧ Signs o.after.1 bytes
  /-- Two signatures at one leaf are equal, and for one message. -/
  once : ∀ o ∈ log, ∀ o' ∈ log, ∀ bytes bytes', o.reply = .signature bytes →
    o'.reply = .signature bytes' → o.after.1.nextLeaf = o'.after.1.nextLeaf →
    o.after.1.lastMessage = o'.after.1.lastMessage ∧ bytes = bytes'

omit [Keccak] in
/-- A log that is accounted for has one signature a leaf. -/
theorem Account.signsOnce {key : K} {signer : SigningKey K} {log : List (Observation K Pid)}
    (h : Account key signer log) : SignsOnce key log := by
  have hkey : ∀ o ∈ log, ∀ bytes, o.reply = .signature bytes → o.after.1.key = key :=
    fun o ho bytes hbytes => (h.signs o ho bytes hbytes).2.key.symm.trans h.same
  refine ⟨h.quiet, fun o ho bytes hbytes =>
    ⟨hkey o ho bytes hbytes, (h.signs o ho bytes hbytes).1⟩, ?_⟩
  intro o ho o' ho' bytes bytes' hbytes hbytes' hleaf
  obtain ⟨hmessage, hsalt⟩ := h.once o ho o' ho' bytes bytes' hbytes hbytes' hleaf
  refine ⟨hmessage, ?_⟩
  exact (h.signs o ho bytes hbytes).1.unique (h.signs o' ho' bytes' hbytes').1
    ((hkey o ho bytes hbytes).trans (hkey o' ho' bytes' hbytes').symm) hleaf hmessage hsalt

omit [Keccak] in
theorem account_nil (signer : SigningKey K) :
    Account signer.key signer ([] : List (Observation K Pid)) := ⟨rfl, by simp, by simp, by simp⟩

/-- **No leaf gives two signatures**, whatever script runs on a signer, with whatever callbacks.
What is called during an attempt changes nothing. -/
theorem leaf_signs_once (script : Callback) (p : Process K Pid (Captured K Pid)) (h : p.Idle)
    (hlog : p.captured.log = []) : SignsOnce p.self.key (script.run p).2.captured.log := by
  have hstart : Account p.self.key p.self p.captured.log := by
    rw [hlog]
    exact account_nil p.self
  exact (script.account h hstart).signsOnce

/-- Sign twice, with a callback that meddles. -/
def meddleTwice : Callback :=
  .call (.signWithRng 0 fun _ => meddle) fun _ =>
    .overwrite 0 (zeros messageLen).toList (.call (.sign 0) fun _ => .fill [])

omit [Keccak] in
theorem leaf_signs_once_meddleTwice :
    letI := constantHash
    SignsOnce justOpened.self.key (meddleTwice.run justOpened).2.captured.log := by
  have honce : ∀ [Keccak], _ := fun {_} =>
    leaf_signs_once meddleTwice justOpened idle_justOpened rfl
  exact @honce constantHash

end SolanaWinternitz.Ts
