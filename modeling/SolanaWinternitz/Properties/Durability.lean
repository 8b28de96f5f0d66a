import SolanaWinternitz.Properties.OneSignature

/-!
# What survives a power loss

`write` syncs the directory before a fresh signature is returned. A retry returns the recorded
signature without a write, so it relies on whoever moved the record to its place: after a kill, or a
failed sync, between the move and the sync of the directory, a reopened signer reads a record that a
power loss takes back.

* `leaf_reused` — a run in which this makes one leaf sign two messages
* `write_ahead` — **no leaf is signed twice, power losses included**, if retries are made only when
  the key file is durable
-/

namespace SolanaWinternitz

open Infra Infra.Os

section

variable [Keccak] {K : Type} [OneTime K] {Pid : Type} {path : String}
  {A : Outcome SigningError → Prop} {m m' : Machine K Pid} {pid : Pid}

namespace Machine

/-- A power loss would bring back the visible key file. -/
def Settled (path : String) (w : World String Pid) : Prop := ∃ f, w.Durable path f

omit [Keccak] in
theorem settled_of_older {w : World String Pid} (h : w.older.length = 0)
    (hf : (w.content path).map File.synced = some true) : Settled path w := by
  obtain ⟨f, hcontent, hs⟩ := Option.map_eq_some_iff.mp hf
  exact ⟨f, World.durable_of_older (List.length_eq_zero_iff.mp h) hcontent hs⟩

/-- Once something was returned, every record that can survive accounts for everything that was. -/
def Secure (path : String) (m : Machine K Pid) : Prop :=
  m.released = [] ∨ m.world.Sound (decode K) (fun r => Consistent r m.released) path

theorem Secure.moved [LawfulOneTime K] (h : Secure path m)
    (hm : Moved path A (Settled path) pid m m') : Secure path m' := by
  have hold : m.released = [] ∨
      m'.world.Sound (decode K) (fun r => Consistent r m.released) path :=
    h.imp id fun hs => hs.evolves hm.turn.evolves fun _ _ hc hafter => hc.after hafter
  rcases hm.log with hlog | ⟨report, hlog, hreport⟩
  · rw [Secure, released, hlog]
    exact hold
  · rw [Secure, released_of_log hlog]
    rcases reported_cases hreport with
      hnone | ⟨message, retry, sig, f, r, rfl, hf, hr, hv, hs, hd, hd'⟩
    · rw [hnone]
      exact hold
    · -- the file is durable after a write, and before a retry
      have hdurable : m'.world.Durable path f := by
        cases retry with
        | false => exact hd rfl
        | true =>
          obtain ⟨f', hf'⟩ := hd' rfl
          obtain rfl := Option.some.inj (hf.symm.trans hf'.content)
          exact hf'
      have hc : Consistent r m.released := by
        rcases hold with hnil | hsound
        · rw [hnil]
          exact consistent_nil r
        · obtain ⟨r', hr', hc⟩ := hsound.visible
          cases hr'.symm.trans ((World.visible_of_content hf).trans hr)
          exact hc
      exact Or.inr (hdurable.sound hr (hc.signed hv hs))

variable [DecidableEq Pid]

/-- A retry of the recorded message is made only when the key file is durable. A signer whose write
has failed does not answer one. -/
def RetrySettled (path : String) (m : Machine K Pid) (e : Event Pid) : Prop :=
  ∀ pid message signer, e = .sign pid message ∨ e = .signWithRng pid message →
    m.client pid = .live signer → signer.failed = false → signer.lastMessage = some message →
      Settled path m.world

theorem secure_run [LawfulOneTime K] (events : List (Event Pid))
    (h : Inv path (fun _ => True) (Settled path) m ∧ Secure path m)
    (he : Along path (RetrySettled path) m events) :
    Inv path (fun _ => True) (Settled path) (m.run path events) ∧
      Secure path (m.run path events) := by
  refine run_rule (Q := fun m => Inv path (fun _ => True) (Settled path) m ∧ Secure path m)
    ?_ events h he
  rintro m e ⟨hinv, hsecure⟩ hretry
  cases he : e.isPowerLoss with
  | false =>
    obtain ⟨pid, hm⟩ := step_moved hinv ⟨fun _ _ _ => trivial, hretry⟩ he
    exact ⟨hinv.moved hm, hsecure.moved hm⟩
  | true =>
    cases e with
    | powerLoss version left =>
      exact ⟨inv_powerLoss hinv version left, hsecure.imp id fun hs => hs.powerLoss version left⟩
    | _ => cases he

end Machine

/--
**No leaf is signed twice, power losses included**, in every run in which retries are made only when
the key file is durable. In every state that is reached, the durable record is past each leaf that
was signed, and so is every signer that may sign again.
-/
theorem write_ahead (k : Instance) [DecidableEq Pid] (files : List (String × Bytes))
    (events : List (Event Pid))
    (hretry : Machine.Along path (Machine.RetrySettled path)
      (Machine.boot files : Machine k.SecretKey Pid) events) :
    let m : Machine k.SecretKey Pid := (Machine.boot files).run path events
    (∀ p ∈ m.released, ∃ f r, m.world.durable path = some f ∧ f.synced = true ∧
      decode k.SecretKey f.bytes = some r ∧ SealedSignature.leaf p.2 < r.nextLeaf) ∧
    (∀ p ∈ m.released, ∀ pid signer, m.client pid = .live signer → signer.failed = false →
      SealedSignature.leaf p.2 < signer.nextLeaf) ∧
    ∀ p ∈ m.released, ∀ q ∈ m.released,
      SealedSignature.leaf p.2 = SealedSignature.leaf q.2 → p = q := by
  obtain ⟨hinv, hsecure⟩ := Machine.secure_run events
    ⟨Machine.inv_boot files, Or.inl rfl⟩ hretry
  dsimp only
  rcases hsecure with hnil | hsound
  · rw [hnil]
    exact ⟨fun p hp => absurd hp List.not_mem_nil, fun p hp => absurd hp List.not_mem_nil,
      fun p hp => absurd hp List.not_mem_nil⟩
  refine ⟨fun p hp => ?_, fun p hp pid signer hlive hfailed => ?_, ?_⟩
  · obtain ⟨f, r, hf, hs, hr, hc⟩ := hsound _ (World.survives_durable _ path)
    exact ⟨f, r, hf, hs, hr, hc.leaf_lt (valid_of_decode hr) hp⟩
  · have howns := hinv.owns hlive
    obtain ⟨r, hr, hc⟩ := hsound.visible
    obtain rfl := Option.some.inj (hr.symm.trans (howns.current hfailed))
    exact hc.leaf_lt howns.valid hp
  · obtain ⟨f, r, hf, hs, hr, hc⟩ := hsound _ (World.survives_durable _ path)
    exact hc.unique

end

/-- Calls that are carried out are not retries. -/
theorem along_calls [Keccak] {K Pid : Type} [OneTime K] [DecidableEq Pid] {path : String}
    (m : Machine K Pid) (pid : Pid) (n : Nat) (data : Bytes) :
    Machine.Along path (Machine.RetrySettled path) m (Machine.calls pid n data) :=
  Machine.along_of_forall m fun e he m pid' message signer hsign => by
    rw [List.eq_of_mem_replicate he] at hsign
    rcases hsign with h | h <;> cases h

/-- Sign, open the file again, and sign the same message again; then power is lost. -/
def retriedEvents : List (Event Nat) :=
  onceEvents ++ .drop 0 :: .openFile 0 :: Machine.calls 0 8 [] ++
  .sign 0 (zeros _) :: Machine.calls 0 1 [] ++ [.powerLoss 0 fun _ => []]

theorem write_ahead_retried :
    letI := constantHash
    let m : Machine Instance.winternitz.SecretKey Nat := (Machine.boot []).run "key" retriedEvents
    m.released.length = 2 ∧
    (∀ p ∈ m.released, ∃ f r, m.world.durable "key" = some f ∧ f.synced = true ∧
      decode Instance.winternitz.SecretKey f.bytes = some r ∧
      SealedSignature.leaf p.2 < r.nextLeaf) ∧
    (∀ p ∈ m.released, ∀ pid signer, m.client pid = .live signer → signer.failed = false →
      SealedSignature.leaf p.2 < signer.nextLeaf) ∧
    ∀ p ∈ m.released, ∀ q ∈ m.released,
      SealedSignature.leaf p.2 = SealedSignature.leaf q.2 → p = q := by
  let _ := constantHash
  let start : Machine Instance.winternitz.SecretKey Nat := Machine.boot []
  -- When the message is signed, and when it is asked for again, the file is durable.
  have hfirst : Machine.Settled "key"
      (start.run "key" (.create 0 :: Machine.calls 0 10 [])).world :=
    Machine.settled_of_older (by decide +kernel) (by decide +kernel)
  have hagain : Machine.Settled "key"
      (start.run "key" (onceEvents ++ .drop 0 :: .openFile 0 :: Machine.calls 0 8 [])).world :=
    Machine.settled_of_older (by decide +kernel) (by decide +kernel)
  have hother : ∀ (m : Machine Instance.winternitz.SecretKey Nat) (e : Event Nat),
      (∀ pid message, e ≠ .sign pid message ∧ e ≠ .signWithRng pid message) →
        Machine.RetrySettled "key" m e := by
    rintro m e hne pid message signer (he | he)
    · exact absurd he (hne pid message).1
    · exact absurd he (hne pid message).2
  have honce : Machine.Along "key" (Machine.RetrySettled "key") start onceEvents :=
    Machine.along_append.mpr ⟨⟨hother _ _ fun _ _ => ⟨nofun, nofun⟩, along_calls _ 0 10 []⟩,
      fun _ _ _ _ _ _ _ => hfirst, along_calls _ 0 10 []⟩
  have halong : Machine.Along "key" (Machine.RetrySettled "key") start retriedEvents :=
    Machine.along_append.mpr ⟨Machine.along_append.mpr ⟨Machine.along_append.mpr ⟨honce,
      hother _ _ fun _ _ => ⟨nofun, nofun⟩, hother _ _ fun _ _ => ⟨nofun, nofun⟩,
      along_calls _ 0 8 []⟩, fun _ _ _ _ _ _ _ => hagain, along_calls _ 0 1 []⟩,
      hother _ _ fun _ _ => ⟨nofun, nofun⟩, trivial⟩
  exact ⟨by decide +kernel, write_ahead .winternitz [] retriedEvents halong⟩

/-! ## The defect -/

/-- A first attempt whose directory sync fails, and a retry by a signer that was opened anew. -/
def retryEvents : List (Event Nat) :=
  .create 0 :: Machine.calls 0 10 [] ++
  .sign 0 (zeros _) :: Machine.calls 0 6 [1]
    ++ [.io 0 (.fail .other false 0), .io 0 (.ok []), .drop 0] ++
  .openFile 0 :: Machine.calls 0 8 [] ++ .sign 0 (zeros _) :: Machine.calls 0 1 []

/-- Another message. -/
def otherMessage : Message := copyInto (zeros _) 0 [1]

/-- A power loss takes the move back, and the same leaf signs another message. -/
def lossEvents : List (Event Nat) :=
  .powerLoss 2 (fun _ => []) :: .openFile 0 :: Machine.calls 0 8 [] ++
  .sign 0 otherMessage :: Machine.calls 0 10 [2]

/-- **One leaf signs two messages.** When the retry returned, the durable record was behind. -/
theorem leaf_reused :
    letI := constantHash
    let m : Machine Instance.winternitz.SecretKey Nat := (Machine.boot []).run "key" retryEvents
    (m.released.map fun p => (p.1, SealedSignature.leaf p.2)) = [(zeros _, 0)] ∧
    ((m.world.durable "key").bind fun f => (decode Instance.winternitz.SecretKey f.bytes).map
      Record.nextLeaf) = some 0 ∧
    ∃ p ∈ (m.run "key" lossEvents).released, ∃ q ∈ (m.run "key" lossEvents).released,
      SealedSignature.leaf p.2 = SealedSignature.leaf q.2 ∧ p.1 ≠ q.1 ∧
        SealedSignature.asBytes p.2 ≠ SealedSignature.asBytes q.2 := by
  let _ := constantHash
  refine ⟨by decide +kernel, by decide +kernel, ?_⟩
  let released := (Machine.run "key" (Machine.run "key" (Machine.boot []) retryEvents :
    Machine Instance.winternitz.SecretKey Nat) lossEvents).released
  let view (p : Message × OneTime.Signature Instance.winternitz.SecretKey) :=
    (p.1, SealedSignature.leaf p.2, (SealedSignature.asBytes p.2).take 1)
  have hview : released.map view
      = [(otherMessage, 0, [2]), (zeros messageLen, 0, [1])] := by decide +kernel
  have hmem : ∀ v ∈ released.map view, ∃ p ∈ released, view p = v := fun v hv =>
    List.mem_map.mp hv
  obtain ⟨p, hp, hpv⟩ := hmem (otherMessage, 0, [2]) (by rw [hview]; exact List.mem_cons_self)
  obtain ⟨q, hq, hqv⟩ := hmem (zeros messageLen, 0, [1])
    (by rw [hview]; exact List.mem_cons_of_mem _ List.mem_cons_self)
  obtain ⟨hp1, hp2⟩ := Prod.mk.inj hpv
  obtain ⟨hq1, hq2⟩ := Prod.mk.inj hqv
  obtain ⟨hp2, hp3⟩ := Prod.mk.inj hp2
  obtain ⟨hq2, hq3⟩ := Prod.mk.inj hq2
  refine ⟨p, hp, q, hq, hp2.trans hq2.symm, fun he => ?_, fun he => ?_⟩
  · rw [hp1, hq1] at he
    exact absurd he (by decide)
  · rw [he, hq3] at hp3
    exact absurd hp3 (by decide)

end SolanaWinternitz
