import SolanaWinternitz.Infra.Confine
import SolanaWinternitz.Properties.FileCalls
import SolanaWinternitz.Properties.TsCore
import SolanaWinternitz.Properties.TsSigner
import SolanaWinternitz.Ts.Callback

/-!
# Re-entrant callbacks

While an attempt samples, `sampling` is set. Every method that could change the signer looks at it
first, and the lock keeps `open` and `create` out.

* `NestedCall.harmless` — **a nested call changes neither the signer nor a file and signs nothing**
* `Callback.silent` — nor does a whole callback, whatever it calls and however it ends
* `signWithRng_reentrant` — what is true after a call of `signWithRng`, whatever its callbacks did
-/

namespace SolanaWinternitz.Ts

open Infra Infra.Os Infra.Js

variable {K Pid X α : Type}

/-- The lock file of the signer is locked. -/
def Process.Locked (p : Process K Pid X) : Prop :=
  p.world.dir s!"{p.self.path}.lock" = some p.self.lock ∧
    ∃ holder, p.world.locks p.self.lock = some holder

/-- An attempt is under way. -/
structure Process.Sampling (p : Process K Pid X) : Prop where
  closed : p.self.closed = false
  sampling : p.self.sampling = true
  locked : p.Locked

/-- The signer and the files are as they were. -/
structure Unchanged (p p' : Process K Pid X) : Prop where
  self : p'.self = p.self
  world : p'.world = p.world

namespace Unchanged

variable {p p' p'' : Process K Pid X}

theorem refl (p : Process K Pid X) : Unchanged p p := ⟨rfl, rfl⟩

theorem trans (h : Unchanged p p') (h' : Unchanged p' p'') : Unchanged p p'' :=
  ⟨h'.self.trans h.self, h'.world.trans h.world⟩

theorem locked (h : Unchanged p p') (hp : p.Locked) : p'.Locked := by
  unfold Process.Locked
  rw [h.self, h.world]
  exact hp

theorem sampling (h : Unchanged p p') (hp : p.Sampling) : p'.Sampling :=
  ⟨h.self ▸ hp.closed, h.self ▸ hp.sampling, h.locked hp.locked⟩

end Unchanged

/-! ## The lock keeps a second signer out -/

/-- The signer, the files and what the callbacks keep are as they were. -/
structure Untouched (p p' : Process K Pid X) : Prop extends Unchanged p p' where
  captured : p'.captured = p.captured

theorem Untouched.refl (p : Process K Pid X) : Untouched p p := ⟨.refl p, rfl⟩

theorem Untouched.trans {p p' p'' : Process K Pid X} (h : Untouched p p') (h' : Untouched p' p'') :
    Untouched p p'' := ⟨h.toUnchanged.trans h'.toUnchanged, h'.captured.trans h.captured⟩

/-- However the computation ends, all is as it was. -/
abbrev Quiet (x : Action K Pid X α) (p : Process K Pid X) : Prop := Moves Untouched x p

theorem quiet_pure (a : α) (p : Process K Pid X) : Quiet (pure a) p := .refl p

theorem quiet_raise (e : Thrown) (p : Process K Pid X) : Quiet (raise e : Action K Pid X α) p :=
  .refl p

theorem quiet_ofExcept {ε : Type} (f : ε → Thrown) (x : Except ε α) (p : Process K Pid X) :
    Quiet (ofExcept f x) p := .refl p

/-- A call that does not change the files. -/
theorem quiet_invoke {c : Call String} {p : Process K Pid X}
    (h : (p.world.exec p.pid (p.outcomes p.calls.length) c).2 = p.world) :
    Quiet (invoke c : Action K Pid X (Answer Thrown c)) p := ⟨⟨rfl, h⟩, rfl⟩

theorem quiet_closeSync (fd : Fd) (p : Process K Pid X) : Quiet (closeSync fd) p := by
  have hread : (p.world.attempt (p.outcomes p.calls.length)
      ((.ok (), p.world) : Except IoError Unit × World String Pid)).2 = p.world :=
    (World.attempt_read rfl).1
  exact moves_bind .trans (quiet_invoke hread) fun a p' _ => quiet_ofExcept _ _ _

/-- Opening the lock file of a live signer finds it. -/
theorem openSidecar_locked {p : Process K Pid X} (h : p.Locked) :
    Quiet (orThrow system (invoke (.openSidecar s!"{p.self.path}.lock")) : Action K Pid X Fd) p ∧
      ∀ fd p', (orThrow system (invoke (.openSidecar s!"{p.self.path}.lock")) :
        Action K Pid X Fd) p = (.ok fd, p') → fd = p.self.lock := by
  rcases hexec : p.world.exec p.pid (p.outcomes p.calls.length)
    (.openSidecar s!"{p.self.path}.lock") with ⟨r, w⟩
  obtain ⟨hw, hfd, -⟩ := World.exec_openSidecar hexec
  have hsame : w = p.world := by
    rcases hw with hw | hw
    · exact hw
    · rw [hw, World.touch, if_neg (by rw [h.1]; exact Option.some_ne_none _)]
  subst hsame
  have hquiet := quiet_invoke (K := K) (X := X) (p := p) (congrArg Prod.snd hexec)
  refine ⟨moves_bind .trans hquiet fun a p' _ => quiet_ofExcept _ _ _, ?_⟩
  intro fd p' hrun
  rw [orThrow_apply system (invoke_apply hexec)] at hrun
  have hr := congrArg Prod.fst hrun
  change Except IoError Fd at r
  cases r with
  | error e => cases hr
  | ok fd' =>
    have hdir := hfd fd' rfl
    rw [h.1] at hdir
    cases hr
    exact (Option.some.inj hdir).symm

/-- A lock that is held is not obtained. -/
theorem flock_locked {p : Process K Pid X} (h : p.Locked) :
    ∃ p', flock p.self.lock p = (.ok false, p') ∧ Untouched p p' := by
  obtain ⟨-, holder, hlock⟩ := h
  rcases hexec : p.world.exec p.pid (p.outcomes p.calls.length) (.tryLock p.self.lock) with ⟨r, w⟩
  rcases World.exec_tryLock hexec with ⟨-, hnone, -⟩ | ⟨⟨e, rfl, -⟩, rfl⟩
  · rw [hlock] at hnone
    cases hnone
  · refine ⟨{ p with calls := p.calls ++ [.tryLock p.self.lock] }, ?_, ⟨⟨rfl, rfl⟩, rfl⟩⟩
    unfold flock
    exact bind_ok (invoke_apply hexec)

/-- `acquire` on the path of a live signer throws and leaves everything as it was. -/
theorem acquire_locked {p : Process K Pid X} (h : p.Locked) :
    Quiet (acquire p.self.path : Action K Pid X Fd) p ∧
      Fails (acquire p.self.path : Action K Pid X Fd) p := by
  obtain ⟨hopen, hfd⟩ := openSidecar_locked h
  have hsidecar := moves_onThrow .trans (g := fun e => raise (rethrow .io e)) hopen
    fun e p' _ => quiet_raise _ _
  -- What is opened is the lock file, and it stays locked.
  have hopened : ∀ fd p', Js.onThrow (orThrow system (invoke (.openSidecar s!"{p.self.path}.lock")))
      (fun e => raise (rethrow .io e)) p = (.ok fd, p') → fd = p'.self.lock ∧ p'.Locked := by
    intro fd p' hrun
    have hsame : Untouched p p' := hsidecar.along hrun
    refine ⟨?_, hsame.locked h⟩
    rw [hsame.self]
    rcases hr : (orThrow system (invoke (.openSidecar s!"{p.self.path}.lock")) :
      Action K Pid X Fd) p with ⟨r, p''⟩
    cases r with
    | ok fd' =>
      rw [onThrow_ok hr] at hrun
      cases hrun
      exact hfd fd p' hr
    | error e =>
      rw [onThrow_error hr] at hrun
      cases hrun
  -- Nobody but its holder gets that lock.
  have hrefused : ∀ p' : Process K Pid X, p'.Locked →
      let x : Action K Pid X Fd := do
        if ← flock p'.self.lock then pure p'.self.lock
        else raise (.of .locked s!"the key file is held by another signer ({p.self.path}.lock)")
      Quiet x p' ∧ Fails x p' := by
    intro p' hp'
    obtain ⟨p'', hflock, hsame⟩ := flock_locked hp'
    dsimp only
    unfold Quiet Moves Fails
    rw [bind_ok hflock]
    exact ⟨hsame, _, rfl⟩
  have hcatch : ∀ (fd : Fd) (e : Thrown) (p' : Process K Pid X),
      Quiet (do closeSync fd; raise (rethrow .io e) : Action K Pid X Fd) p' ∧
        Fails (do closeSync fd; raise (rethrow .io e) : Action K Pid X Fd) p' := fun fd e p' =>
    ⟨moves_bind .trans (quiet_closeSync fd p') fun _ _ _ => quiet_raise _ _,
      fails_bind fun _ _ _ => fails_raise _ _⟩
  constructor
  · refine moves_bind .trans hsidecar fun fd p' hrun => ?_
    obtain ⟨rfl, hp'⟩ := hopened fd p' hrun
    exact moves_onThrow .trans (hrefused p' hp').1 fun e p'' _ => (hcatch _ e p'').1
  · refine fails_bind fun fd p' hrun => ?_
    obtain ⟨rfl, hp'⟩ := hopened fd p' hrun
    exact fails_onThrow (hrefused p' hp').2 fun e p'' => (hcatch _ e p'').2

/-- `open` on the path of a live signer. -/
theorem quiet_openFile [Keccak] [OneTime K] {p : Process K Pid X} (h : p.Locked) :
    Quiet (SigningKey.openFile p.self.path : Action K Pid X (SigningKey K)) p := by
  obtain ⟨hquiet, hfails⟩ := acquire_locked h
  exact moves_bind_of_fails hquiet hfails

/-- `create` on the path of a live signer. -/
theorem quiet_create [Keccak] [OneTime K] {p : Process K Pid X} (h : p.Locked) :
    Quiet (SigningKey.create p.self.path : Action K Pid X (SigningKey K)) p := by
  obtain ⟨hquiet, hfails⟩ := acquire_locked h
  exact moves_bind_of_fails hquiet hfails

/-! ## Writing the record -/

/-- The signer, what the callbacks keep, all locks and what this name stands for are kept. -/
structure Beside (name : String) (p p' : Process K Pid X) : Prop where
  self : p'.self = p.self
  captured : p'.captured = p.captured
  dir : p'.world.dir name = p.world.dir name
  locks : p'.world.locks = p.world.locks

namespace Beside

variable {name : String} {p p' p'' : Process K Pid X}

theorem refl (p : Process K Pid X) : Beside name p p := ⟨rfl, rfl, rfl, rfl⟩

theorem trans (h : Beside name p p') (h' : Beside name p' p'') : Beside name p p'' :=
  ⟨h'.self.trans h.self, h'.captured.trans h.captured, h'.dir.trans h.dir, h'.locks.trans h.locks⟩

theorem locked (h : Beside s!"{p.self.path}.lock" p p') (hp : p.Locked) : p'.Locked := by
  unfold Process.Locked
  rw [h.self, h.dir, h.locks]
  exact hp

end Beside

/-- A call that uses other names, and no lock. -/
theorem beside_invoke {name : String} {c : Call String} (hc : c.Within {m | m ≠ name} Set.univ)
    (hquiet : c.Quiet) (p : Process K Pid X) : Moves (Beside name) (invoke c) p := by
  have heffect :
      World.Effect p.pid p.world c (p.world.exec p.pid (p.outcomes p.calls.length) c).2 :=
    World.exec_effect c
  exact ⟨rfl, rfl, heffect.dir hc fun hn => hn rfl, heffect.locks hquiet⟩

theorem beside_orThrow {name : String} {ε : Type} {x : Action K Pid X (Except ε α)}
    {p : Process K Pid X} (f : ε → Thrown) (h : Moves (Beside name) x p) :
    Moves (Beside name) (orThrow f x) p :=
  moves_bind .trans h fun _ p' _ => Beside.refl p'

/-- Writing the record does not touch the lock file. -/
theorem beside_write [Keccak] [OneTime K] (self : SigningKey K) (p : Process K Pid X) :
    Moves (Beside s!"{self.path}.lock") self.write p := by
  have htmp : s!"{self.path}.tmp" ≠ s!"{self.path}.lock" := tmp_ne_lock self.path
  have hlock : sibling self.path ".lock" ≠ self.path := sibling_ne (by decide)
  have hwrite : ∀ (fd : Fd) (data : Bytes) (p : Process K Pid X),
      Moves (Beside s!"{self.path}.lock") (writeFileSync fd data) p := fun fd data p =>
    beside_orThrow _ (beside_invoke (c := .writeAll fd data) trivial trivial p)
  have hsync : ∀ (fd : Fd) (p : Process K Pid X),
      Moves (Beside s!"{self.path}.lock") (fsyncSync fd) p := fun fd p =>
    beside_orThrow _ (beside_invoke (c := .syncAll fd) trivial trivial p)
  have hrecord : ∀ (fd : Fd) (p : Process K Pid X),
      Moves (Beside s!"{self.path}.lock") (self.writeRecord fd) p := fun fd p =>
    moves_bind .trans (Beside.refl p) fun header p _ =>
      moves_bind .trans (hwrite fd header p) fun _ p _ => hwrite fd _ p
  unfold SigningKey.write
  refine moves_bind .trans (beside_orThrow _ (beside_invoke (c := .openTruncate _) htmp trivial p))
    fun fd p _ => moves_bind .trans (moves_onExit .trans ?_ fun p => ?_) fun _ p _ =>
      moves_bind .trans ?_ fun _ p _ => ?_
  · exact moves_bind .trans (hrecord fd p) fun _ p _ => hsync fd p
  · exact beside_orThrow _ (beside_invoke (c := .close fd) trivial trivial p)
  · exact beside_orThrow _ (beside_invoke (c := .rename _ _) ⟨htmp, hlock.symm⟩ trivial p)
  · exact beside_orThrow _ (beside_invoke (c := .syncDir) trivial trivial p)

/-- A signer whose record cannot be written is closed. -/
theorem writeOrClose_error [Keccak] [OneTime K] {p p' : Process K Pid X} {e : Thrown}
    (hopen : p.self.closed = false) (hsampling : p.self.sampling = false)
    (hwrite : (p.self.write : Action K Pid X Unit) p = (.error e, p')) :
    ∃ e' p'', writeOrClose p.self p = (.error e', p'') ∧ p''.self = { p.self with closed := true } ∧
      p''.captured = p.captured := by
  have hbeside : Beside s!"{p.self.path}.lock" p p' := (beside_write p.self p).along hwrite
  obtain ⟨r, p'', hclose, hself, hcaptured⟩ :=
    close_apply (p := p') (hbeside.self ▸ hsampling) (hbeside.self ▸ hopen)
  rw [hbeside.self] at hself
  rw [hbeside.captured] at hcaptured
  unfold writeOrClose
  rw [onThrow_error hwrite]
  cases r with
  | ok _ => exact ⟨_, p'', bind_ok hclose, hself, hcaptured⟩
  | error e => exact ⟨e, p'', bind_error hclose, hself, hcaptured⟩

/-- Between two calls of the caller. -/
structure Process.Idle (p : Process K Pid X) : Prop where
  sampling : p.self.sampling = false
  held : p.self.closed = false → p.Locked

/-! ## Methods during an attempt -/

section

variable {p : Process K Pid X} (h : p.Sampling)

include h

theorem quiet_close : Quiet close p := by
  unfold close Quiet Moves
  rw [look_bind, if_pos h.sampling]
  exact quiet_raise _ p

theorem fails_close : Fails close p := by
  unfold close Fails
  rw [look_bind, if_pos h.sampling]
  exact fails_raise _ p

variable [Keccak] [OneTime K]

omit [Keccak] in
theorem quiet_requireNextLeafAtLeast (minimum : Number) :
    Quiet (requireNextLeafAtLeast minimum) p := by
  have hrefuse : ∀ e, Quiet (do close; raise e : Action K Pid X Unit) p := fun e =>
    moves_bind_of_fails (quiet_close h) (fails_close h)
  unfold requireNextLeafAtLeast
  cases minimum with
  | other => exact hrefuse _
  | integer n =>
    dsimp only
    by_cases hn : n < 0 ∨ n > OneTime.leaves K
    · rw [if_pos hn]
      exact hrefuse _
    · rw [if_neg hn]
      unfold Quiet Moves
      rw [look_bind]
      by_cases hlt : p.self.nextLeaf < n
      · rw [if_pos hlt]
        exact hrefuse _
      · rw [if_neg hlt]
        exact quiet_pure _ _

/-- **A second attempt is refused**, whatever its message and its source are. -/
theorem signWithRng_sampling (message : Ref) (fill : FillRandom (Process K Pid X)) :
    signWithRng message fill p
      = (.error (.of .unusable "a signing attempt is already in progress"), p) := by
  unfold signWithRng
  rw [look_bind, if_neg (Bool.eq_false_iff.mp h.closed), if_pos h.sampling]
  rfl

end

/-! ## Nested calls -/

/-- What a callback gets from a nested call, which changes nothing, is no signature. -/
def Harmless (x : Reentrant K Pid Reply) (p : Process K Pid (Captured K Pid)) : Prop :=
  ∃ reply p', x p = (.ok reply, p') ∧ Untouched p p' ∧ ∀ bytes, reply ≠ .signature bytes

theorem harmless_settle {x : Reentrant K Pid α} {reply : α → Reply}
    {p : Process K Pid (Captured K Pid)} (hx : Quiet x p)
    (hreply : ∀ a p', x p = (.ok a, p') → ∀ bytes, reply a ≠ .signature bytes) :
    Harmless (settle reply x) p := by
  rcases hr : x p with ⟨r, p'⟩
  have hsame : Untouched p p' := hx.along hr
  cases r with
  | ok a =>
    have hbind : (do pure (reply (← x)) : Reentrant K Pid Reply) p = (.ok (reply a), p') :=
      bind_ok hr
    exact ⟨reply a, p', onThrow_ok hbind, hsame, hreply a p' hr⟩
  | error e =>
    have hbind : (do pure (reply (← x)) : Reentrant K Pid Reply) p = (.error e, p') :=
      bind_error hr
    refine ⟨.thrown e, p', onThrow_error hbind, hsame, fun bytes he => ?_⟩
    cases he

/-- What was seen of a nested call: it changed nothing and gave no signature. -/
def Observation.Harmless (o : Observation K Pid) : Prop :=
  o.after = o.before ∧ ∀ bytes, o.reply ≠ .signature bytes

/-- All nested calls since then were harmless. -/
def Heard (p p' : Process K Pid (Captured K Pid)) : Prop :=
  ∃ seen : List (Observation K Pid), p'.captured.log = p.captured.log ++ seen ∧
    ∀ o ∈ seen, o.Harmless

theorem Heard.of_eq {p p' : Process K Pid (Captured K Pid)}
    (hlog : p'.captured.log = p.captured.log) : Heard p p' :=
  ⟨[], by rw [hlog, List.append_nil], fun _ ho => absurd ho List.not_mem_nil⟩

theorem Heard.refl (p : Process K Pid (Captured K Pid)) : Heard p p := .of_eq rfl

theorem Heard.trans {p p' p'' : Process K Pid (Captured K Pid)} (h : Heard p p')
    (h' : Heard p' p'') : Heard p p'' := by
  obtain ⟨seen, hlog, hseen⟩ := h
  obtain ⟨seen', hlog', hseen'⟩ := h'
  refine ⟨seen ++ seen', ?_, fun o ho => (List.mem_append.mp ho).elim (hseen o) (hseen' o)⟩
  rw [hlog', hlog, List.append_assoc]

/-- The signer and the files are as they were, and so did every nested call in between find them. -/
structure Silent (p p' : Process K Pid (Captured K Pid)) : Prop where
  unchanged : Unchanged p p'
  log : Heard p p'

theorem Silent.of_eq {p p' : Process K Pid (Captured K Pid)} (hself : p'.self = p.self)
    (hworld : p'.world = p.world) (hlog : p'.captured.log = p.captured.log) : Silent p p' :=
  ⟨⟨hself, hworld⟩, .of_eq hlog⟩

theorem Silent.refl (p : Process K Pid (Captured K Pid)) : Silent p p := .of_eq rfl rfl rfl

theorem Silent.trans {p p' p'' : Process K Pid (Captured K Pid)} (h : Silent p p')
    (h' : Silent p' p'') : Silent p p'' := ⟨h.unchanged.trans h'.unchanged, h.log.trans h'.log⟩

theorem silent_observe {x : Reentrant K Pid Reply} {p : Process K Pid (Captured K Pid)}
    (h : Harmless x p) : ∃ reply p', observe x p = (.ok reply, p') ∧ Silent p p' := by
  obtain ⟨reply, p', hrun, hsame, hreply⟩ := h
  unfold observe
  rw [look_bind, bind_ok hrun, assign_bind]
  refine ⟨reply, _, rfl, ⟨hsame.self, hsame.world⟩,
    [⟨(p.self, p.world), (p'.self, p'.world), reply⟩], ?_, ?_⟩
  · show p'.captured.log ++ _ = p.captured.log ++ _
    rw [hsame.captured]
  · intro o ho
    rw [List.mem_singleton.mp ho]
    exact ⟨Prod.ext hsame.self hsame.world, hreply⟩

variable [Keccak] [OneTime K]

/-- A nested attempt is refused, and the round of the outer one is restored. -/
theorem NestedCall.harmless_signWithRng (message : Ref) (callbacks : Nat → Callback)
    {p : Process K Pid (Captured K Pid)} (h : p.Sampling) :
    Harmless (NestedCall.run (.signWithRng message callbacks)) p := by
  let p₀ : Process K Pid (Captured K Pid) := { p with captured := { p.captured with round := 0 } }
  have hp₀ : p₀.Sampling := ⟨h.closed, h.sampling, h.locked⟩
  obtain ⟨e, hrun⟩ : ∃ e, Ts.signWithRng message (fillWith fun i => (callbacks i).run) p₀
      = (.error e, p₀) := ⟨_, signWithRng_sampling hp₀ message _⟩
  refine ⟨.thrown e, p, ?_, .refl p, fun bytes he => ?_⟩
  · have hbind : (do pure (Reply.signature (OneTime.toBytes (← Ts.signWithRng message
        (fillWith fun i => (callbacks i).run)))) : Reentrant K Pid Reply) p₀ = (.error e, p₀) :=
      bind_error hrun
    have hsettle : settle (fun sig => Reply.signature (OneTime.toBytes sig)) (Ts.signWithRng message
        (fillWith fun i => (callbacks i).run)) p₀ = (.ok (.thrown e), p₀) := onThrow_error hbind
    rw [NestedCall.run, look_bind]
    unfold setRound
    rw [assign_bind, bind_ok hsettle]
    rfl
  · cases he

/-- **No nested call changes the signer or a file, and none returns a signature.** -/
theorem NestedCall.harmless (c : NestedCall) {p : Process K Pid (Captured K Pid)}
    (h : p.Sampling) : Harmless c.run p := by
  have hdone : ∀ bytes, Reply.done ≠ .signature bytes := fun bytes he => by cases he
  cases c with
  | sign message =>
    have hrun := signWithRng_sampling h message fillRandom
    rw [NestedCall.run]
    refine harmless_settle ?_ fun a p' hok => ?_
    · unfold Quiet Moves
      rw [Ts.sign, hrun]
      exact .refl p
    · rw [Ts.sign, hrun] at hok
      cases hok
  | signWithRng message callbacks => exact NestedCall.harmless_signWithRng message callbacks h
  | close =>
    rw [NestedCall.run]
    exact harmless_settle (quiet_close h) fun _ _ _ => hdone
  | dispose =>
    rw [NestedCall.run]
    exact harmless_settle (quiet_close h) fun _ _ _ => hdone
  | requireNextLeafAtLeast minimum =>
    rw [NestedCall.run]
    exact harmless_settle (quiet_requireNextLeafAtLeast h minimum) fun _ _ _ => hdone
  | nextLeaf =>
    rw [NestedCall.run]
    exact harmless_settle (.refl p) fun _ _ _ bytes he => by cases he
  | remaining =>
    rw [NestedCall.run]
    exact harmless_settle (.refl p) fun _ _ _ bytes he => by cases he
  | verifyingKey =>
    rw [NestedCall.run]
    exact harmless_settle (quiet_ofExcept _ _ p) fun _ _ _ bytes he => by cases he
  | openFile =>
    have hsettle := harmless_settle (quiet_openFile h.locked) fun _ _ _ => hdone
    unfold Harmless at hsettle ⊢
    rw [NestedCall.run, look_bind]
    exact hsettle
  | create =>
    have hsettle := harmless_settle (quiet_create h.locked) fun _ _ _ => hdone
    unfold Harmless at hsettle ⊢
    rw [NestedCall.run, look_bind]
    exact hsettle

/-! ## Callbacks -/

/-- **A whole callback changes nothing**, whatever it calls and however it ends. -/
theorem Callback.silent : ∀ (c : Callback) {p : Process K Pid (Captured K Pid)}, p.Sampling →
    Moves Silent c.run p
  | .call c next, p, h => by
    obtain ⟨reply, p', hrun, hsilent⟩ := silent_observe (c.harmless h)
    have hrest := (next reply).silent (hsilent.unchanged.sampling h)
    unfold Moves
    rw [Callback.run, bind_ok hrun]
    exact hsilent.trans hrest
  | .overwrite buffer data next, p, h => by
    let p' : Process K Pid (Captured K Pid) :=
      { p with buffers := Function.update p.buffers buffer data }
    have hp' : p'.Sampling := ⟨h.closed, h.sampling, h.locked⟩
    have hstart : Silent p p' := .of_eq rfl rfl rfl
    unfold Moves
    rw [Callback.run, assign_bind]
    exact hstart.trans (next.silent hp')
  | .fill data, p, _ => by
    unfold Moves
    rw [Callback.run]
    exact .refl p
  | .raise e, p, _ => by
    unfold Moves
    rw [Callback.run]
    exact .refl p

/-- A source that changes nothing during an attempt. -/
def SilentFill (fill : FillRandom (Process K Pid (Captured K Pid))) : Prop :=
  ∀ n {p : Process K Pid (Captured K Pid)}, p.Sampling → Moves Silent (fill n) p

/-- One call of the callback. -/
theorem silent_callbackFill (callbacks : Nat → Callback) :
    SilentFill (callbackFill callbacks : FillRandom (Process K Pid (Captured K Pid))) := by
  intro n p h
  let p' : Process K Pid (Captured K Pid) :=
    { p with captured := { p.captured with round := p.captured.round + 1 } }
  have hp' : p'.Sampling := ⟨h.closed, h.sampling, h.locked⟩
  have hstart : Silent p p' := .of_eq rfl rfl rfl
  have hrest := moves_bind .trans (f := fun data => pure (fit n data))
    ((callbacks p.captured.round).silent hp') fun _ p'' _ => Silent.refl p''
  unfold Moves callbackFill fillWith setRound
  rw [look_bind, assign_bind]
  exact hstart.trans hrest

omit [Keccak] [OneTime K] in
theorem silent_fillRandom :
    SilentFill (fillRandom : FillRandom (Process K Pid (Captured K Pid))) := by
  intro n p _
  have hrandom : Moves Silent (orThrow (fun code => .cause (.random code)) (invoke (.random n)) :
      Reentrant K Pid (Block n)) p := by
    refine moves_bind .trans (Silent.of_eq rfl ?_ rfl) fun r p' _ => Silent.refl p'
    show (p.world.exec p.pid (p.outcomes p.calls.length) (.random n)).2 = p.world
    cases p.outcomes p.calls.length <;> rfl
  exact moves_onThrow .trans hrandom fun e p' _ => Silent.refl p'

variable {fill : FillRandom (Process K Pid (Captured K Pid))}

omit [OneTime K] in
/-- All rounds of an attempt. -/
theorem silent_sampleTrials (hfill : SilentFill fill) (parameter : Bytes) (leaf : Int)
    (message : Bytes) (trials : Nat) : ∀ {p : Process K Pid (Captured K Pid)}, p.Sampling →
      Moves Silent (sampleTrials parameter leaf message fill trials) p := by
  induction trials with
  | zero =>
    intro p _
    exact Silent.refl p
  | succ trials ih =>
    intro p h
    have hround := moves_onThrow .trans (g := fun e => Js.raise (rethrow .random e))
      (hfill saltLength h) fun _ p' _ => Silent.refl p'
    rw [sampleTrials]
    refine moves_bind .trans hround fun salt p' hrun => ?_
    have hsame : Silent p p' := hround.along hrun
    by_cases hx : (encode salt.toList parameter leaf message).isSome = true
    · rw [if_pos hx]
      exact Silent.refl p'
    · rw [if_neg hx]
      exact ih (hsame.unchanged.sampling h)

/-! ## A call of `signWithRng` -/

/-- What a call of `signWithRng` on the message `value` did. -/
structure Settled (value : Bytes) (p p' : Process K Pid (Captured K Pid))
    (r : Except Thrown (OneTime.Signature K)) : Prop where
  idle : p'.Idle
  key : p'.self.key = p.self.key
  path : p'.self.path = p.self.path
  log : Heard p p'
  /-- No leaf and no callback, or one leaf. -/
  spent : p'.self = p.self ∧ p'.captured = p.captured ∨
    p'.self.nextLeaf = p.self.nextLeaf + 1
  signed : ∀ sig, r = .ok sig → p'.self.lastMessage = some value ∧
    OneTime.signAtWithSalt p.self.key (.integer (p'.self.nextLeaf - 1)) value p'.self.lastSalt
      = .ok sig

omit [Keccak] in
/-- A call that leaves all as it was and signs nothing. -/
theorem Settled.refused {value : Bytes} {p : Process K Pid (Captured K Pid)}
    (h : p.Idle) (e : Thrown) : Settled value p p (.error e) where
  idle := h
  key := rfl
  path := rfl
  log := .refl p
  spent := Or.inl ⟨rfl, rfl⟩
  signed sig hsig := by cases hsig

/-- The `catch` of an attempt takes every throw. -/
theorem trySalt_apply (hfill : SilentFill fill) (leaf : Int) (message : Bytes)
    {p : Process K Pid (Captured K Pid)} (h : p.Sampling) :
    ∃ sampled p', trySalt fill leaf message p = (.ok sampled, p') ∧ Silent p p' := by
  have hmoves : Moves Silent (trySalt fill leaf message) p := by
    refine moves_onThrow .trans ?_ fun e p' _ => Silent.refl p'
    refine moves_bind .trans (Silent.refl p) fun key p' hkey => ?_
    have hp : p' = p := (congrArg Prod.snd hkey).symm
    subst hp
    exact moves_bind .trans (silent_sampleTrials hfill _ leaf message maxTrials h)
      fun _ p' _ => Silent.refl p'
  rcases hr : trySalt fill leaf message p with ⟨r, p'⟩
  have hsilent : Silent p p' := hmoves.along hr
  cases r with
  | ok sampled => exact ⟨sampled, p', rfl, hsilent⟩
  | error e =>
    exfalso
    unfold trySalt Js.onThrow at hr
    split at hr
    · cases hr
    · cases hr

/-- The process after the record was written or not. -/
theorem writeOrClose_apply {p : Process K Pid (Captured K Pid)} (hopen : p.self.closed = false)
    (hsampling : p.self.sampling = false) (hlocked : p.Locked) :
    (∃ p', writeOrClose p.self p = (.ok (), p') ∧ p'.self = p.self ∧ p'.captured = p.captured ∧
      p'.Locked) ∨
    ∃ e p', writeOrClose p.self p = (.error e, p') ∧ p'.self = { p.self with closed := true } ∧
      p'.captured = p.captured := by
  rcases hr : (p.self.write : Reentrant K Pid Unit) p with ⟨r, p'⟩
  cases r with
  | ok _ =>
    have hbeside : Beside s!"{p.self.path}.lock" p p' := (beside_write p.self p).along hr
    exact Or.inl ⟨p', onThrow_ok hr, hbeside.self, hbeside.captured, hbeside.locked hlocked⟩
  | error e => exact Or.inr (writeOrClose_error hopen hsampling hr)

/-- An attempt, once its callbacks have run. -/
theorem attempt_apply (hfill : SilentFill fill) (value : Bytes)
    {p : Process K Pid (Captured K Pid)} (hopen : p.self.closed = false)
    (hsampling : p.self.sampling = false) (hlocked : p.Locked) :
    ∃ sampled p', trySalt fill p.self.nextLeaf value
        { p with self := { p.self with sampling := true } } = (.ok sampled, p') ∧
      Silent { p with self := { p.self with sampling := true } } p' ∧
      Process.Locked { p' with self := p.self.spent value sampled } ∧
      attempt value fill p = (do
          writeOrClose (p.self.spent value sampled)
          released (p.self.spent value sampled) p.self.nextLeaf value sampled)
        { p' with self := p.self.spent value sampled } := by
  obtain ⟨sampled, p', hsampled, hsilent⟩ := trySalt_apply hfill p.self.nextLeaf value
    (p := { p with self := { p.self with sampling := true } }) ⟨hopen, rfl, hlocked⟩
  refine ⟨sampled, p', hsampled, hsilent, ?_, attempt_eq hsampling hsampled hsilent.unchanged.self⟩
  have hkept := hsilent.unchanged.locked hlocked
  unfold Process.Locked at hkept ⊢
  rw [hsilent.unchanged.self] at hkept
  exact hkept

/-- **An attempt spends one leaf**, whatever its callbacks do. -/
theorem attempt_settled (hfill : SilentFill fill) (value : Bytes)
    {p : Process K Pid (Captured K Pid)} (hopen : p.self.closed = false)
    (hsampling : p.self.sampling = false) (hlocked : p.Locked) :
    (attempt value fill p).2.self.nextLeaf = p.self.nextLeaf + 1 ∧
      Settled value p (attempt value fill p).2 (attempt value fill p).1 := by
  obtain ⟨sampled, p', -, hsilent, hlocked', hattempt⟩ :=
    attempt_apply hfill value hopen hsampling hlocked
  rw [hattempt]
  rcases writeOrClose_apply (p := { p' with self := p.self.spent value sampled }) hopen hsampling
    hlocked' with ⟨p'', hrun, hself, hcaptured, hlocked''⟩ | ⟨e, p'', hrun, hself, hcaptured⟩
  · have hnext : p''.self.nextLeaf = p.self.nextLeaf + 1 := by
      rw [hself]
      rfl
    have hsettled : ∀ r : Except Thrown (OneTime.Signature K), (∀ sig, r = .ok sig →
        ∃ salt, sampled = .ok salt ∧ OneTime.signAtWithSalt p.self.key (.integer p.self.nextLeaf)
          value salt = .ok sig) → Settled value p p'' r := by
      intro r hr
      refine ⟨⟨?_, fun _ => hlocked''⟩, ?_, ?_, hsilent.log.trans (.of_eq (by rw [hcaptured])),
        Or.inr hnext, fun sig hsig => ?_⟩
      · rw [hself]
        exact hsampling
      · rw [hself]
        rfl
      · rw [hself]
        rfl
      · obtain ⟨salt, rfl, hsign⟩ := hr sig hsig
        rw [hself]
        refine ⟨rfl, ?_⟩
        show OneTime.signAtWithSalt p.self.key (.integer (p.self.nextLeaf + 1 - 1)) value salt = _
        rw [Int.add_sub_cancel]
        exact hsign
    rw [bind_ok hrun]
    cases sampled with
    | error failure => exact ⟨hnext, hsettled _ fun sig hsig => by cases hsig⟩
    | ok salt => exact ⟨hnext, hsettled _ fun sig hsig => ⟨salt, rfl, mapError_eq_ok hsig⟩⟩
  · have hnext : p''.self.nextLeaf = p.self.nextLeaf + 1 := by
      rw [hself]
      rfl
    rw [bind_error hrun]
    refine ⟨hnext, ⟨?_, fun hclosed => ?_⟩, ?_, ?_,
      hsilent.log.trans (.of_eq (by rw [hcaptured])), Or.inr hnext, fun sig hsig => ?_⟩
    · rw [hself]
      exact hsampling
    · rw [hself] at hclosed
      cases hclosed
    · rw [hself]
      rfl
    · rw [hself]
      rfl
    · cases hsig

theorem signWithRng_settled (hfill : SilentFill fill) (message : Ref)
    {p : Process K Pid (Captured K Pid)} (h : p.Idle) :
    Settled (p.buffers message) p (signWithRng message fill p).2
      (signWithRng message fill p).1 := by
  rcases signWithRng_cases h.sampling message with
    ⟨e, hrun⟩ | ⟨hopen, ⟨hretry, hrun⟩ | ⟨-, -, hrun⟩⟩ <;> rw [hrun fill]
  · exact .refused h e
  · exact ⟨h, rfl, rfl, .refl p, Or.inl ⟨rfl, rfl⟩, fun sig hsig => ⟨hretry, mapError_eq_ok hsig⟩⟩
  · exact (attempt_settled hfill _ hopen h.sampling (h.held hopen)).2

/-- **A call of `signWithRng` withstands its callbacks.** They find and leave the signer and the
files as they are, a leaf is spent before a signature is returned, and what is signed is the message
as it was at the start of the call. -/
theorem signWithRng_reentrant (message : Ref) (callbacks : Nat → Callback)
    (p : Process K Pid (Captured K Pid)) (h : p.Idle) :
    Settled (p.buffers message) p (signWithRng message (callbackFill callbacks) p).2
      (signWithRng message (callbackFill callbacks) p).1 :=
  signWithRng_settled (silent_callbackFill callbacks) message h

/-- A signer with a key of zeros that was just opened, and a second message. -/
def justOpened : Process Winternitz.SecretKey Unit (Captured Winternitz.SecretKey Unit) where
  self :=
    { key := ⟨zeros _, zeros _⟩, path := "key", lock := 1, nextLeaf := 0, lastMessage := none,
      lastSalt := (zeros saltLength).toList }
  buffers message := if message = 0 then (zeros messageLen).toList else []
  captured := ⟨0, []⟩
  world :=
    { dir := fun name => if name = "key" then some 0 else if name = "key.lock" then some 1 else none
      older := []
      file := fun _ => ⟨[], true⟩
      next := 2
      locks := fun fd => if fd = 1 then some () else none }
  pid := ()
  outcomes _ := .ok []
  calls := []

omit [Keccak] in
theorem idle_justOpened : justOpened.Idle := ⟨rfl, fun _ => ⟨rfl, (), rfl⟩⟩

/-- A callback that closes the signer, signs and overwrites the message that is being signed. -/
def meddle : Callback :=
  .call .close fun _ => .call (.sign 1) fun _ => .overwrite 0 [] (.fill (zeros saltLength).toList)

omit [Keccak] in
theorem signWithRng_reentrant_meddle :
    letI := constantHash
    Settled (zeros messageLen).toList justOpened
      (signWithRng 0 (callbackFill fun _ => meddle) justOpened).2
      (signWithRng 0 (callbackFill fun _ => meddle) justOpened).1 := by
  let _ := constantHash
  exact signWithRng_reentrant 0 (fun _ => meddle) justOpened idle_justOpened

end SolanaWinternitz.Ts
