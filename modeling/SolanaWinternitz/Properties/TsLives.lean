import SolanaWinternitz.Properties.Durability
import SolanaWinternitz.Properties.TsStart

/-!
# Lives of a TypeScript signer

A life: a process creates or opens the key file and runs a script on the signer. Then it goes on to
the next life, exits or is killed, or power is lost. Any call may fail, before or after its effect;
a kill or a power loss in the middle of a call is one after calls that fail without effect.

* `Alive` — while a script runs, the visible file holds the record of the signer if that is open,
  and once something was signed every file that can come back accounts for all of it
  (`Callback.alive`)
* `Dormant` — the same of the files between two lives
* `lives_sign_once` — **no leaf signs twice over any number of lives**, and a signature is returned
  when its record is durable, if retries are made only when the key file is
* `retry_reuses_leaf` — the condition on retries is needed
-/

namespace SolanaWinternitz.Ts

open Infra Infra.Os Infra.Js

variable [Keccak] {K K' Pid : Type} [SolanaWinternitz.OneTime K] [OneTime K'] [SameOneTime K K']
  [LawfulOneTime K] {r : Record K} {s s' : SigningKey K'}

/-! ## A life -/

/-- A call that asks for the recorded message is made only when the key file is durable. -/
def NestedCall.RetrySettled (path : String) (c : NestedCall)
    (p : Process K' Pid (Captured K' Pid)) : Prop :=
  ∀ message, c.message = some message → p.self.closed = false →
    p.self.lastMessage = some (p.buffers message) → Machine.Settled path p.world

/-- So it is at every call of a script. -/
def Callback.RetriesSettled (path : String) :
    Callback → Process K' Pid (Captured K' Pid) → Prop
  | .call c next, p => c.RetrySettled path p ∧
    ∀ reply p', Ts.observe c.run p = (.ok reply, p') → (next reply).RetriesSettled path p'
  | .overwrite buffer data next, p =>
    next.RetriesSettled path { p with buffers := Function.update p.buffers buffer data }
  | .fill _, _ => True
  | .raise _, _ => True

/-- What the log says of the records of a path. -/
def Accounts (path : String) (log : List (Observation K' Pid)) (r : Record K) : Prop :=
  ∃ s : SigningKey K', Corresponds r s ∧ s.path = path ∧ Account s.key s log

/-- When a signature was returned, only the record of its signer could come back. -/
def Durably (path : String) (log : List (Observation K' Pid)) : Prop :=
  ∀ o ∈ log, ∀ bytes, o.reply = .signature bytes →
    ∃ f, o.after.1.Writes f ∧ o.after.2.Durable path f

/-- No signature was returned. -/
def Unsigned (log : List (Observation K' Pid)) : Prop := ∀ o ∈ log, ¬ o.reply.Signed

/-- Once something was signed, every file that can come back holds a record that accounts for it. -/
def Recalls (K : Type) [SolanaWinternitz.OneTime K] (path : String)
    (log : List (Observation K' Pid)) (w : World String Pid) : Prop :=
  Unsigned log ∨ w.Sound (decode K) (Accounts path log) path

omit [Keccak] in
theorem Unsigned.account {log : List (Observation K' Pid)} (h : Unsigned log)
    (hquiet : ∀ o ∈ log, o.before.1.sampling = true → o.Harmless) (s : SigningKey K') :
    Account s.key s log where
  same := rfl
  quiet := hquiet
  signs o ho bytes hbytes := absurd ⟨bytes, hbytes⟩ (h o ho)
  once o ho _ _ bytes _ hbytes := absurd ⟨bytes, hbytes⟩ (h o ho)

omit [Keccak] [OneTime K'] in
/-- More calls that gave no signature. -/
theorem Unsigned.append {log seen : List (Observation K' Pid)} (h : Unsigned log)
    (hseen : Unsigned seen) : Unsigned (log ++ seen) := fun o ho =>
  (List.mem_append.mp ho).elim (h o) (hseen o)

omit [LawfulOneTime K] [SameOneTime K K'] in
/-- The records that can come back account for a call that gave no signature. -/
theorem Accounts.note {path : String} {log seen : List (Observation K' Pid)}
    {o : Observation K' Pid} (h : Accounts path log r) (hseen : ∀ o ∈ seen, o.Harmless)
    (hbefore : o.before.1.sampling = false) (hreply : ¬ o.reply.Signed) :
    Accounts path (log ++ seen ++ [o]) r := by
  obtain ⟨s, hcorr, hpath, haccount⟩ := h
  exact ⟨s, hcorr, hpath, (haccount.append hseen).note hbefore fun bytes he => hreply ⟨bytes, he⟩⟩

/-- The visible file holds the record of the signer. -/
def Shows (K : Type) [SolanaWinternitz.OneTime K] (p : Process K' Pid (Captured K' Pid)) : Prop :=
  ∃ (f : File) (r : Record K), p.world.content p.self.path = some f ∧
    decode K f.bytes = some r ∧ Corresponds r p.self

/-- If it is durable, the record is saved. -/
theorem Shows.saved {p : Process K' Pid (Captured K' Pid)} (h : Shows K p)
    (hsettled : Machine.Settled p.self.path p.world) : p.Saved := by
  obtain ⟨f, r, hf, hr, hcorr⟩ := h
  obtain ⟨f', hdurable⟩ := hsettled
  obtain rfl : f = f' := Option.some.inj (hf.symm.trans hdurable.content)
  obtain ⟨header, hheader, hwritten⟩ := hcorr.written
  have hsigner : decode K f.bytes = some (r.signer "" 0).record := hr
  have hencoded : r.encoded = f.bytes := SolanaWinternitz.SigningKey.encoded_of_decode hsigner
  exact ⟨f, ⟨header, hheader, by rw [hwritten, hencoded, ← hdurable.synced]⟩, hdurable⟩

/-- A record that is saved is visible. -/
theorem Shows.of_saved {p : Process K' Pid (Captured K' Pid)} (h : p.Saved)
    (hstands : Stands K p.self) : Shows K p := by
  obtain ⟨f, hf, hdurable⟩ := h
  obtain ⟨-, r, hr, hcorr⟩ := hstands.writes hf
  exact ⟨f, r, hdurable.content, hr, hcorr⟩

/-- A signer between two calls of its script. -/
structure Alive (K : Type) [SolanaWinternitz.OneTime K] (path : String)
    (p : Process K' Pid (Captured K' Pid)) : Prop where
  idle : p.Idle
  name : p.self.path = path
  stands : Stands K p.self
  account : Account p.self.key p.self p.captured.log
  writable : Writable path p.world
  present : p.world.content path ≠ none
  shows : p.self.closed = false → Shows K p
  recalls : Recalls K path p.captured.log p.world
  durably : Durably path p.captured.log

/-- **A call keeps every record that can come back accounted.** -/
theorem Alive.observe {path : String} {p : Process K' Pid (Captured K' Pid)} (h : Alive K path p)
    (c : NestedCall) (hretry : c.RetrySettled path p) :
    ∃ reply p', Ts.observe c.run p = (.ok reply, p') ∧ Alive K path p' := by
  obtain ⟨reply, p', hrun, hstep, hsigns⟩ := c.orderly h.idle
  obtain rfl := h.name
  have hcovered : c.Covered p := fun message hmessage hopen hlast =>
    (h.shows hopen).saved (hretry message hmessage hopen hlast)
  obtain ⟨hsaves, hchanges, hsigned⟩ :=
    (c.leaves_run h.idle h.writable h.present hcovered).along hrun
  obtain ⟨seen, hlog, hseen⟩ := hstep.log
  have hstands : Stands K p'.self := h.stands.changes hchanges
  let o : Observation K' Pid := ⟨(p.self, p.world), (p'.self, p'.world), reply⟩
  let p'' : Process K' Pid (Captured K' Pid) :=
    { p' with captured := { p'.captured with log := p'.captured.log ++ [o] } }
  have hobserve : Ts.observe c.run p = (.ok reply, p'') := by
    unfold Ts.observe
    rw [look_bind, bind_ok hrun, assign_bind]
    rfl
  have haccount : Account p'.self.key p'.self (p'.captured.log ++ [o]) := by
    rw [hlog, hstep.later.key]
    exact ((h.account.later hstep.later).append hseen).enter h.idle.sampling rfl hsigns
  have hpresent : p'.world.content p.self.path ≠ none := by
    rcases hsaves.content with he | ⟨f, -, he⟩
    · rw [he]
      exact h.present
    · rw [he]
      exact Option.some_ne_none f
  have hshows : p'.self.closed = false → Shows K p'' := by
    intro hopen
    rcases hsaves.shows hopen with hsaved | ⟨hself, hcontent⟩
    · exact .of_saved hsaved hstands
    · obtain ⟨f, r, hf, hr, hcorr⟩ := h.shows (hself ▸ hopen)
      refine ⟨f, r, ?_, hr, ?_⟩
      · show p'.world.content p'.self.path = some f
        rw [hsaves.path, hcontent]
        exact hf
      · show Corresponds r p'.self
        rw [hself]
        exact hcorr
  refine ⟨reply, p'', hobserve, ⟨hstep.idle.sampling, hstep.idle.held⟩, hsaves.path, hstands,
    haccount, hsaves.writable, hpresent, hshows, ?_, ?_⟩
  · by_cases hreply : reply.Signed
    · -- The record of the signer is the only one left, and it accounts for the signature.
      obtain ⟨f, hf, hdurable⟩ := hsigned reply rfl hreply
      obtain ⟨-, r, hr, hcorr⟩ := hstands.writes hf
      rw [hsaves.path] at hdurable
      exact Or.inr (hdurable.sound hr ⟨p'.self, hcorr, hsaves.path, haccount⟩)
    · have hlog' : p''.captured.log = p.captured.log ++ seen ++ [o] := congrArg (· ++ [o]) hlog
      rcases h.recalls with hunsigned | hsound
      · have hseen' : Unsigned seen := fun o ho hsigned => by
          obtain ⟨bytes, hbytes⟩ := hsigned
          exact (hseen o ho).2 bytes hbytes
        have hlast : Unsigned [o] := fun o' ho' => List.mem_singleton.mp ho' ▸ hreply
        exact Or.inl (hlog' ▸ (hunsigned.append hseen').append hlast)
      · refine Or.inr fun x hx => ?_
        rcases hsaves.survives x hx with hx | ⟨f, hf, rfl⟩
        · obtain ⟨f, r, rfl, hsynced, hr, haccounts⟩ := hsound x hx
          exact ⟨f, r, rfl, hsynced, hr, hlog' ▸ haccounts.note hseen h.idle.sampling hreply⟩
        · obtain ⟨hsynced, r, hr, hcorr⟩ := hstands.writes hf
          exact ⟨f, r, rfl, hsynced, hr, p'.self, hcorr, hsaves.path, haccount⟩
  · intro o' ho' bytes hbytes
    change o' ∈ p'.captured.log ++ [o] at ho'
    rw [hlog, List.append_assoc] at ho'
    rcases List.mem_append.mp ho' with ho' | ho'
    · exact h.durably o' ho' bytes hbytes
    · rcases List.mem_append.mp ho' with ho' | ho'
      · exact absurd hbytes ((hseen o' ho').2 bytes)
      · obtain rfl := List.mem_singleton.mp ho'
        obtain ⟨f, hf, hdurable⟩ := hsigned reply rfl ⟨bytes, hbytes⟩
        rw [hsaves.path] at hdurable
        exact ⟨f, hf, hdurable⟩

/-- **A script keeps every record that can come back accounted**, step by step. -/
theorem Callback.alive {path : String} : ∀ (script : Callback)
    {p : Process K' Pid (Captured K' Pid)}, Alive K path p → script.RetriesSettled path p →
      Alive K path (script.run p).2
  | .call c next, p, h, hretries => by
    rw [Callback.RetriesSettled] at hretries
    obtain ⟨reply, p', hrun, halive⟩ := h.observe c hretries.1
    rw [Callback.run, bind_ok hrun]
    exact (next reply).alive halive (hretries.2 reply p' hrun)
  | .overwrite buffer data next, p, h, hretries => by
    rw [Callback.RetriesSettled] at hretries
    let p' : Process K' Pid (Captured K' Pid) :=
      { p with buffers := Function.update p.buffers buffer data }
    have hp' : Alive K path p' := ⟨⟨h.idle.sampling, h.idle.held⟩, h.name, h.stands, h.account,
      h.writable, h.present, h.shows, h.recalls, h.durably⟩
    rw [Callback.run, assign_bind]
    exact next.alive hp' hretries
  | .fill data, p, h, _ => by
    rw [Callback.run]
    exact h
  | .raise e, p, h, _ => by
    rw [Callback.run]
    exact h

/-! ## One life after the other -/

/-- How a life ends. -/
inductive Ending where
  /-- The process goes on. A signer that it has not closed keeps its lock. -/
  | stays
  /-- The process exits or is killed. -/
  | exits
  | powerLoss (version : Nat) (left : Nat → Bytes)

/-- A process that creates or opens the key file and runs a script on the signer. -/
structure Life (Pid : Type) where
  pid : Pid
  creates : Bool
  outcomes : Nat → Outcome Thrown
  buffers : Ref → Bytes
  script : Callback
  ending : Ending

section

variable [DecidableEq Pid] (path : String) (unset : SigningKey K')

/-- The files after a life. -/
def Ending.apply (pid : Pid) (w : World String Pid) : Ending → World String Pid
  | .stays => w
  | .exits => w.unlock pid
  | .powerLoss version left => w.powerLoss version left

/-- The signer of a life on these files; the log is that of the lives before. `unset` is in the
variable of the process before there is a signer. -/
def Life.start (life : Life Pid) (t : World String Pid × List (Observation K' Pid)) :
    Except Thrown (SigningKey K') × Process K' Pid (Captured K' Pid) :=
  let p : Process K' Pid (Captured K' Pid) :=
    { self := unset, buffers := life.buffers, captured := ⟨0, t.2⟩, world := t.1, pid := life.pid
      outcomes := life.outcomes, calls := [] }
  if life.creates then SigningKey.create path p else SigningKey.openFile path p

def Life.run (life : Life Pid) (t : World String Pid × List (Observation K' Pid)) :
    World String Pid × List (Observation K' Pid) :=
  let last :=
    match life.start path unset t with
    | (.ok signer, p) => (life.script.run { p with self := signer }).2
    | (.error _, p) => p
  (life.ending.apply life.pid last.world, last.captured.log)

def runLives : List (Life Pid) → World String Pid × List (Observation K' Pid) →
    World String Pid × List (Observation K' Pid)
  | [], t => t
  | life :: rest, t => runLives rest (life.run path unset t)

/-- Retries are made only when the key file is durable. -/
def Life.RetriesSettled (life : Life Pid) (t : World String Pid × List (Observation K' Pid)) :
    Prop :=
  ∀ signer p, life.start path unset t = (.ok signer, p) →
    life.script.RetriesSettled path { p with self := signer }

/-- So it is in every life. -/
def RetriesSettled : List (Life Pid) → World String Pid × List (Observation K' Pid) → Prop
  | [], _ => True
  | life :: rest, t =>
    life.RetriesSettled path unset t ∧ RetriesSettled rest (life.run path unset t)

end

/-- What a caller saw of all its calls over all lives. -/
structure SignsSafely (path : String) (log : List (Observation K' Pid)) : Prop where
  /-- A call during an attempt changed nothing and gave no signature. -/
  quiet : ∀ o ∈ log, o.before.1.sampling = true → o.Harmless
  /-- Two signatures at one leaf are equal, and for one message. -/
  once : ∀ o ∈ log, ∀ o' ∈ log, ∀ bytes bytes', o.reply = .signature bytes →
    o'.reply = .signature bytes' → o.after.1.nextLeaf = o'.after.1.nextLeaf →
    o.after.1.lastMessage = o'.after.1.lastMessage ∧ bytes = bytes'
  durably : Durably path log

/-- The files between two lives. -/
structure Dormant (K : Type) [SolanaWinternitz.OneTime K] (path : String)
    (t : World String Pid × List (Observation K' Pid)) : Prop where
  writable : Writable path t.1
  recalls : Recalls K path t.2 t.1
  safely : SignsSafely path t.2

section

variable {path : String} {p p' : Process K' Pid (Captured K' Pid)} {ts : SigningKey K'}

omit [LawfulOneTime K] [SameOneTime K K'] in
theorem Recalls.kept {log : List (Observation K' Pid)} (h : Recalls K path log p.world)
    (hfewer : World.Fewer (sibling path ".tmp") path p.world p'.world) :
    Recalls K path log p'.world :=
  h.imp id fun hsound x hx => hsound x (hfewer.survives x hx)

omit [LawfulOneTime K] [SameOneTime K K'] in
/-- **The end of a life.** -/
theorem Dormant.ends [DecidableEq Pid] {t : World String Pid × List (Observation K' Pid)}
    (h : Dormant K path t) (ending : Ending) (pid : Pid) :
    Dormant K path (ending.apply pid t.1, t.2) := by
  cases ending with
  | stays => exact h
  | exits => exact ⟨⟨⟨h.writable.ok.1, h.writable.ok.2⟩, h.writable.apart⟩, h.recalls, h.safely⟩
  | powerLoss version left =>
    exact ⟨⟨h.writable.ok.powerLoss version left,
        h.writable.ok.powerLoss_apart version left (sibling_ne (by decide))⟩,
      h.recalls.imp id fun hsound => hsound.powerLoss version left, h.safely⟩

omit [LawfulOneTime K] [SameOneTime K K'] in
/-- After a script. -/
theorem Alive.dormant (h : Alive K path p) : Dormant K path (p.world, p.captured.log) :=
  ⟨h.writable, h.recalls, h.account.quiet, h.account.signsOnce.once, h.durably⟩

omit [LawfulOneTime K] [SameOneTime K K'] in
/-- After calls that put no file in place. -/
theorem Dormant.kept (h : Dormant K path (p.world, p.captured.log)) (hkept : Kept path p p')
    (helsewhere : Elsewhere p p') : Dormant K path (p'.world, p'.captured.log) := by
  have hfewer := hkept h.writable
  rw [helsewhere.captured]
  exact ⟨.of_fewer hfewer, h.recalls.kept hfewer, h.safely⟩

omit [LawfulOneTime K] [SameOneTime K K'] in
/-- After `create` has failed there may be a file if there was none, but then nothing was signed. -/
theorem Dormant.create_failed (h : Dormant K path (p.world, p.captured.log)) {e : Thrown}
    (hcreate : SigningKey.create path p = (.error e, p')) :
    Dormant K path (p'.world, p'.captured.log) := by
  have helsewhere := (elsewhere_create path p).along hcreate
  rcases h.recalls with hunsigned | hsound
  · rw [helsewhere.captured]
    exact ⟨(writable_create h.writable).along hcreate, Or.inl hunsigned, h.safely⟩
  · have hpresent : p.world.content path ≠ none := by
      obtain ⟨f, -, hf, -⟩ := hsound _ (World.survives_content p.world path)
      rw [hf]
      exact Option.some_ne_none f
    exact h.kept ((kept_create h.writable hpresent).along hcreate) helsewhere

/-- A signer that was just created. -/
theorem Dormant.created (h : Dormant K path (p.world, p.captured.log))
    (hcreate : SigningKey.create path p = (.ok ts, p')) : Alive K path { p' with self := ts } := by
  obtain ⟨hnone, lock, holder, key, hdir, hlock, hkey, rfl, f, hf, hdurable⟩ :=
    (create_created h.writable).along hcreate ts rfl
  have hlog : p'.captured = p.captured := ((elsewhere_create path p).along hcreate).captured
  have hwritable : Writable path p'.world := (writable_create h.writable).along hcreate
  -- There was no file, so nothing was signed.
  have hunsigned : Unsigned p.captured.log := by
    rcases h.recalls with hunsigned | hsound
    · exact hunsigned
    · obtain ⟨f, -, hf, -⟩ := hsound _ (World.survives_content p.world path)
      cases hnone.symm.trans hf
  let ts := SigningKey.fresh path lock key
  let p'' : Process K' Pid (Captured K' Pid) := { p' with self := ts }
  have hstands : Stands K ts := stands_fresh hkey path lock
  have hsaved : p''.Saved := ⟨f, hf, hdurable⟩
  have haccount : Account ts.key ts p'.captured.log := by
    rw [hlog]
    exact hunsigned.account h.safely.quiet ts
  have hpresent : p'.world.content path ≠ none := by
    rw [hdurable.content]
    exact Option.some_ne_none f
  refine ⟨⟨rfl, fun _ => ⟨hdir, holder, hlock⟩⟩, rfl, hstands, haccount, hwritable, hpresent,
    fun _ => .of_saved hsaved hstands, Or.inl (hlog ▸ hunsigned), ?_⟩
  show Durably path p'.captured.log
  rw [hlog]
  exact h.safely.durably

/-- **A signer that is opened goes on where the log ends.** -/
theorem Dormant.opened (h : Dormant K path (p.world, p.captured.log))
    (hopen : SigningKey.openFile path p = (.ok ts, p')) :
    Alive K path { p' with self := ts } := by
  have hfewer := (moves_openFile .refl .trans kept_invoke p).along hopen h.writable
  have hlog : p'.captured = p.captured := ((elsewhere_openFile path p).along hopen).captured
  obtain ⟨lock, holder, f, hdir, hlock, hf, hrecord⟩ := (openFile_opened path p).along hopen ts rfl
  cases hr : decode K f.bytes with
  | none =>
    rw [ofRecord_of_none hr] at hrecord
    cases hrecord
  | some r =>
    obtain ⟨ts', hts, hcorr, hpath, hts_lock, hclosed, hsampling⟩ : ∃ ts : SigningKey K', _ :=
      ofRecord_of_some hr path lock
    cases hts.symm.trans hrecord
    -- The record accounts for what was signed, if anything was.
    have haccount : Account ts.key ts p.captured.log := by
      rcases h.recalls with hunsigned | hsound
      · exact hunsigned.account h.safely.quiet ts
      · obtain ⟨f', r', hf', -, hr', s, hs, hspath, haccount⟩ :=
          hsound _ (hfewer.survives _ (World.survives_content p'.world path))
        cases hf.symm.trans hf'
        cases hr.symm.trans hr'
        have hlater : Later s ts := later_of_corresponds hs hcorr (hpath.trans hspath.symm)
        rw [hlater.key]
        exact haccount.later hlater
    have hlocked : Process.Locked { p' with self := ts } := by
      refine ⟨?_, holder, ?_⟩
      · show p'.world.dir (sibling ts.path ".lock") = some ts.lock
        rw [hpath, hts_lock]
        exact hdir
      · show p'.world.locks ts.lock = some holder
        rw [hts_lock]
        exact hlock
    have hpresent : p'.world.content path ≠ none := by
      rw [hf]
      exact Option.some_ne_none f
    refine ⟨⟨hsampling, fun _ => hlocked⟩, hpath, ⟨r, valid_of_decode hr, hcorr⟩, ?_,
      .of_fewer hfewer, hpresent, fun _ => ⟨f, r, hpath.symm ▸ hf, hr, hcorr⟩, ?_, ?_⟩
    · show Account ts.key ts p'.captured.log
      rw [hlog]
      exact haccount
    · show Recalls K path p'.captured.log p'.world
      rw [hlog]
      exact h.recalls.kept hfewer
    · show Durably path p'.captured.log
      rw [hlog]
      exact h.safely.durably

variable [DecidableEq Pid] (unset : SigningKey K')

/-- A whole life. -/
theorem Dormant.life (life : Life Pid) {t : World String Pid × List (Observation K' Pid)}
    (h : Dormant K path t) (hretries : life.RetriesSettled path unset t) :
    Dormant K path (life.run path unset t) := by
  unfold Life.run
  rcases hstart : life.start path unset t with ⟨r, p⟩
  have hscript : ∀ signer, r = .ok signer →
      life.script.RetriesSettled path { p with self := signer } :=
    fun signer hr => hretries signer p (hr ▸ hstart)
  unfold Life.start at hstart
  cases hcreates : life.creates with
  | true =>
    rw [hcreates, if_pos rfl] at hstart
    cases r with
    | ok signer =>
      exact (life.script.alive (h.created hstart) (hscript signer rfl)).dormant.ends _ _
    | error e => exact (h.create_failed hstart).ends _ _
  | false =>
    rw [hcreates, if_neg Bool.false_ne_true] at hstart
    cases r with
    | ok signer =>
      exact (life.script.alive (h.opened hstart) (hscript signer rfl)).dormant.ends _ _
    | error e =>
      exact (h.kept ((moves_openFile .refl .trans kept_invoke _).along hstart)
        ((elsewhere_openFile path _).along hstart)).ends _ _

theorem Dormant.lives (lives : List (Life Pid)) :
    ∀ {t : World String Pid × List (Observation K' Pid)}, Dormant K path t →
      RetriesSettled path unset lives t → Dormant K path (runLives path unset lives t) := by
  induction lives with
  | nil => exact fun h _ => h
  | cons life rest ih => exact fun h hretries => ih (h.life unset life hretries.1) hretries.2

omit [LawfulOneTime K] [SameOneTime K K'] [DecidableEq Pid] in
/-- The disk before the first life. -/
theorem dormant_boot (path : String) (files : List (String × Bytes)) :
    Dormant K path ((World.boot files : World String Pid), ([] : List (Observation K' Pid))) where
  writable := ⟨World.ok_boot files, World.apart_boot files (sibling_ne (by decide))⟩
  recalls := Or.inl fun o ho => absurd ho List.not_mem_nil
  safely := ⟨by simp, by simp, fun o ho => absurd ho List.not_mem_nil⟩

end

/-- **No leaf signs twice over any number of lives.** Each life creates or opens the key file and
runs any script, with any callbacks; then the process goes on, exits or is killed, or power is lost
and any version of the directory may come back. What is on the disk at first is arbitrary. Retries
are made only when the key file is durable. When a signature was returned, only the record of its
signer could come back. -/
theorem lives_sign_once (k : Instance) {Pid : Type} [DecidableEq Pid] (path : String)
    (files : List (String × Bytes)) (unset : SigningKey (SecretKey k)) (lives : List (Life Pid))
    (hretries : RetriesSettled path unset lives (World.boot files, [])) :
    SignsSafely path (runLives path unset lives (World.boot files, [])).2 :=
  ((dormant_boot (K := k.SecretKey) path files).lives unset lives hretries).safely

/-! ## Lives that sign -/

/-- Sign a message of zeros, or another one; salts and keys are made of `data`. -/
def signing (creates : Bool) (message : Ref) (outcomes : Nat → Outcome Thrown) (ending : Ending) :
    Life Unit where
  pid := ()
  creates := creates
  outcomes := outcomes
  buffers message := if message = 0 then (zeros messageLen).toList else otherMessage.toList
  script := .call (.sign message) fun _ => .fill []
  ending := ending

/-- The key file is durable when a script of one call starts. -/
theorem Life.settled {path : String} {unset : SigningKey K'} {life : Life Pid} {c : NestedCall}
    {t : World String Pid × List (Observation K' Pid)}
    (hscript : life.script = .call c fun _ => .fill [])
    (h : Machine.Settled path (life.start path unset t).2.world) :
    life.RetriesSettled path unset t := by
  intro signer p hstart
  rw [hstart] at h
  rw [hscript, Callback.RetriesSettled]
  exact ⟨fun _ _ _ _ => h, fun _ _ _ => trivial⟩

/-- A message is signed and the process exits; it is asked for again, and power is lost; then the
next message comes. -/
def threeLives : List (Life Unit) :=
  [signing true 0 (fun _ => .ok []) .exits,
    signing false 0 (fun _ => .ok []) (.powerLoss 0 fun _ => []),
    signing false 1 (fun _ => .ok []) .stays]

omit [Keccak] in
theorem lives_sign_once_threeLives :
    letI := constantHash
    SignsSafely "key" (runLives "key" justOpened.self threeLives (World.boot [], [])).2 ∧
    ((runLives "key" justOpened.self threeLives (World.boot [], [])).2.map fun o =>
      (o.before.1.nextLeaf, o.after.1.nextLeaf, o.after.1.lastMessage))
        = [(0, 1, some (zeros messageLen).toList), (1, 1, some (zeros messageLen).toList),
          (1, 1, some (zeros messageLen).toList)] := by
  let _ := constantHash
  let boot : World String Unit × List (Observation Winternitz.SecretKey Unit) := (World.boot [], [])
  let first := signing true 0 (fun _ => .ok []) .exits
  let second := signing false 0 (fun _ => .ok []) (.powerLoss 0 fun _ => [])
  let third := signing false 1 (fun _ => .ok []) .stays
  have hfirst : first.RetriesSettled "key" justOpened.self boot :=
    Life.settled rfl (Machine.settled_of_older (by decide +kernel) (by decide +kernel))
  have hsecond : second.RetriesSettled "key" justOpened.self
      (first.run "key" justOpened.self boot) :=
    Life.settled rfl (Machine.settled_of_older (by decide +kernel) (by decide +kernel))
  have hthird : third.RetriesSettled "key" justOpened.self
      (runLives "key" justOpened.self [first, second] boot) :=
    Life.settled rfl (Machine.settled_of_older (by decide +kernel) (by decide +kernel))
  have hretries : RetriesSettled "key" justOpened.self [first, second, third] boot :=
    ⟨hfirst, hsecond, hthird, trivial⟩
  exact ⟨lives_sign_once .winternitz "key" [] justOpened.self threeLives hretries,
    by decide +kernel⟩

/-- The directory is not synced after the first attempt, which throws; the process exits. A new
process is asked for the message again, and power is lost; then the next message comes. -/
def unsettledLives : List (Life Unit) :=
  [signing true 0 (fun i => if i = 17 then .fail .other false 0 else .ok [1]) .exits,
    signing false 0 (fun _ => .ok []) (.powerLoss 2 fun _ => []),
    signing false 1 (fun _ => .ok [2]) .stays]

/-- The bytes of a signature. -/
def Reply.bytes : Reply → Option Bytes
  | .signature bytes => some bytes
  | _ => none

omit [Keccak] in
theorem Reply.eq_of_bytes {reply : Reply} {bytes : Bytes} (h : reply.bytes = some bytes) :
    reply = .signature bytes := by
  cases reply with
  | signature b => exact congrArg Reply.signature (Option.some.inj h)
  | _ => cases h

omit [Keccak] in
/-- **One leaf signs two messages** if a retry is made before the directory is synced. -/
theorem retry_reuses_leaf :
    letI := constantHash
    ∃ o ∈ (runLives "key" justOpened.self unsettledLives (World.boot [], [])).2,
      ∃ o' ∈ (runLives "key" justOpened.self unsettledLives (World.boot [], [])).2,
        ∃ bytes bytes', o.reply = .signature bytes ∧ o'.reply = .signature bytes' ∧
          bytes ≠ bytes' ∧ o.after.1.nextLeaf = o'.after.1.nextLeaf ∧
          o.after.1.lastMessage ≠ o'.after.1.lastMessage := by
  let _ := constantHash
  let log := (runLives "key" justOpened.self unsettledLives (World.boot [], [])).2
  let view (o : Observation Winternitz.SecretKey Unit) :=
    (o.reply.bytes.map (·.take 1), o.after.1.nextLeaf, o.after.1.lastMessage)
  have hview : log.map view = [(none, 1, some (zeros messageLen).toList),
      (some [1], 1, some (zeros messageLen).toList), (some [2], 1, some otherMessage.toList)] := by
    decide +kernel
  have hmem : ∀ v ∈ log.map view, ∃ o ∈ log, view o = v := fun v hv => List.mem_map.mp hv
  obtain ⟨o, ho, hov⟩ := hmem (some [1], 1, some (zeros messageLen).toList)
    (by rw [hview]; exact List.mem_cons_of_mem _ List.mem_cons_self)
  obtain ⟨o', ho', hov'⟩ := hmem (some [2], 1, some otherMessage.toList)
    (by rw [hview]; exact List.mem_cons_of_mem _ (List.mem_cons_of_mem _ List.mem_cons_self))
  obtain ⟨hbytes, hafter⟩ := Prod.mk.inj hov
  obtain ⟨hbytes', hafter'⟩ := Prod.mk.inj hov'
  obtain ⟨hleaf, hmessage⟩ := Prod.mk.inj hafter
  obtain ⟨hleaf', hmessage'⟩ := Prod.mk.inj hafter'
  obtain ⟨bytes, hreply, htake⟩ := Option.map_eq_some_iff.mp hbytes
  obtain ⟨bytes', hreply', htake'⟩ := Option.map_eq_some_iff.mp hbytes'
  refine ⟨o, ho, o', ho', bytes, bytes', Reply.eq_of_bytes hreply, Reply.eq_of_bytes hreply',
    fun he => ?_, hleaf.trans hleaf'.symm, ?_⟩
  · rw [he, htake'] at htake
    exact absurd htake (by decide)
  · rw [hmessage, hmessage']
    decide

end SolanaWinternitz.Ts
