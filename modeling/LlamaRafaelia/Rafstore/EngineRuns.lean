import LlamaRafaelia.Rafstore.EngineMoves
import Mathlib.Logic.Relation

/-!
# Every run of the engine

A run adds layers, ingests events and ticks, in any order.  Clock readings do not decrease and generated keys are
distinct; write failures, disk contents and callbacks are arbitrary.

* `engine_run`, `counters_run`, `expiry_run` - **what holds after every run**.
-/

namespace Rafstore

open List Linked Relation

/-- The engine and what the run has seen. -/
structure RunState where
  engine : Engine
  used : List EventKey
  clock : ℕ
  log : List Note

/-- The state after `raf_hd_cache_create` on a store file. -/
def RunState.start (file : List UInt8) : RunState where
  engine := engineCreate file
  used := []
  clock := 0
  log := []

def readings (rounds : List Round) : List ℕ := rounds.flatMap fun r => r.clock :: r.nested.map IngestCall.now

def RunState.addLayer (st : RunState) (name : List UInt8) (frequency : ℕ) : RunState :=
  { st with engine := Rafstore.addLayer st.engine name frequency }

def RunState.ingest (st : RunState) (call : IngestCall) : RunState where
  engine := (Rafstore.ingest st.engine call).1
  used := [call.key] ++ st.used
  clock := call.now
  log := st.log ++ (Rafstore.ingest st.engine call).2.2

def RunState.tick (st : RunState) (now : ℕ) (rounds : List Round) : RunState where
  engine := (Rafstore.tick st.engine now rounds).1
  used := (nestedCalls rounds).map IngestCall.key ++ st.used
  clock := (now :: readings rounds).getLast (cons_ne_nil _ _)
  log := st.log ++ (Rafstore.tick st.engine now rounds).2.2

/-- The steps of a run. -/
inductive EngineStep (P : Engine → ℕ → List Round → Prop) : RunState → RunState → Prop
  | addLayer {st : RunState} (name : List UInt8) (frequency : ℕ)
      (hroom : st.engine.scheduler.layers.length < 64) : EngineStep P st (st.addLayer name frequency)
  | ingest {st : RunState} (call : IngestCall) (hclock : st.clock ≤ call.now) (hkey : call.key ∉ st.used) :
      EngineStep P st (st.ingest call)
  | tick {st : RunState} (now : ℕ) (rounds : List Round)
      (hclock : (st.clock :: now :: readings rounds).Pairwise (· ≤ ·))
      (hkeys : ((nestedCalls rounds).map IngestCall.key ++ st.used).Nodup) (hP : P st.engine now rounds) :
      EngineStep P st (st.tick now rounds)

def Reached (P : Engine → ℕ → List Round → Prop) (file : List UInt8) : RunState → Prop :=
  ReflTransGen (EngineStep P) (RunState.start file)

def NoReentry (_ : Engine) (_ : ℕ) (rounds : List Round) : Prop := ∀ r ∈ rounds, r.nested = []

/-! ### The invariant of the runs -/

/-- **The invariant**: the live events are queued, the notes tell the ledger, and every event has a generated key. -/
structure RunInv (X : ℕ → ℕ → ℕ → Prop) (st : RunState) : Prop where
  queues : st.engine.Inv []
  ledger : LedgerInv X st.log st.engine.ledger
  used : ∀ k, (metaGet st.engine.metaStore k).isSome → k ∈ st.used
  nodup : st.used.Nodup

namespace RunInv

variable {X : ℕ → ℕ → ℕ → Prop} {st st' : RunState} {P : Engine → ℕ → List Round → Prop}

theorem start (X : ℕ → ℕ → ℕ → Prop) (file : List UInt8) : RunInv X (RunState.start file) where
  queues := by
    refine ⟨[], ⟨[], ⟨⟨List.Forall₂.nil, nodup_nil⟩, ?_⟩, nodup_nil, ?_, List.Perm.refl _⟩,
      nodup_nil, ?_⟩
    · intro n hn
      cases hn
    · intro n hn
      cases hn
    · intro k
      constructor
      · intro hk
        cases hk
      · rintro ⟨m, hget, -⟩
        cases hget
  ledger := LedgerInv.init X
  used := fun _ h => by cases h
  nodup := nodup_nil

theorem of_moves {keys : List EventKey} {notes : List Note} {e' : Engine} {clock : ℕ} (h : RunInv X st)
    (hinv : e'.Inv []) (hmoves : Moves X st.engine.ledger notes e'.ledger)
    (hkeys : ∀ k ∈ ingestedKeys notes, k ∈ keys) (hnd : (keys ++ st.used).Nodup) :
    RunInv X { engine := e', used := keys ++ st.used, clock := clock, log := st.log ++ notes } := by
  refine ⟨hinv, h.ledger.moves hmoves, ?_, hnd⟩
  intro k hk
  rcases hmoves.known.1 hk with hold | hnew
  · exact mem_append_right _ (h.used k hold)
  · exact mem_append_left _ (hkeys k hnew)

theorem metaGet_of_notMem (h : RunInv X st) {k : EventKey} (hk : k ∉ st.used) :
    metaGet st.engine.metaStore k = none := by
  cases hget : metaGet st.engine.metaStore k with
  | none => rfl
  | some m => exact absurd (h.used k (by rw [hget]; rfl)) hk

theorem freshCalls (h : RunInv X st) {rounds : List Round}
    (hkeys : ((nestedCalls rounds).map IngestCall.key ++ st.used).Nodup) :
    FreshCalls st.engine (nestedCalls rounds) := by
  rw [nodup_append] at hkeys
  refine ⟨hkeys.1, ?_⟩
  intro call hcall
  apply h.metaGet_of_notMem
  intro hmem
  exact hkeys.2.2 call.key (mem_map_of_mem hcall) call.key hmem rfl

theorem addLayer (h : RunInv X st) (name : List UInt8) (frequency : ℕ) :
    RunInv X (st.addLayer name frequency) := by
  refine ⟨?_, h.ledger, h.used, h.nodup⟩
  obtain ⟨keys, ⟨nodes, hq, hnd, hb, hkeys⟩, hrest⟩ := h.queues
  have hflat : (nodes ++ [[]]).flatten = nodes.flatten := by simp
  refine ⟨keys, ⟨nodes ++ [[]], ⟨⟨?_, ?_⟩, ?_⟩, ?_, hb, ?_⟩, hrest⟩
  · show List.Forall₂ _ ((st.engine.scheduler.layers ++ [_]).map _) _
    rw [map_append]
    exact rel_append hq.fifos.each (.cons (Fifo.empty_holds _) .nil)
  · rw [hflat]
    exact hq.fifos.nodup
  · rw [hflat]
    exact hq.bound
  · rw [hflat]
    exact hnd
  · rw [hflat]
    exact hkeys

theorem step (hP : ∀ {st : RunState} {now : ℕ} {rounds : List Round},
      (st.clock :: now :: readings rounds).Pairwise (· ≤ ·) → P st.engine now rounds →
      ExpiryMeets X now st.engine rounds)
    (h : RunInv X st) (hstep : EngineStep P st st') : RunInv X st' := by
  cases hstep with
  | addLayer name frequency _ => exact h.addLayer name frequency
  | ingest call _ hkey =>
    obtain ⟨hinv, hmoves, -, hkeys⟩ := ingest_spec (X := X) h.queues (h.metaGet_of_notMem hkey)
    have hnd : ([call.key] ++ st.used).Nodup := nodup_cons.2 ⟨hkey, h.nodup⟩
    exact h.of_moves hinv hmoves (fun k hk => mem_singleton.2 (hkeys k hk)) hnd
  | tick now rounds hclock hkeys htick =>
    obtain ⟨hinv, hmoves, hnotes⟩ := tick_spec h.queues (h.freshCalls hkeys) (hP hclock htick)
    exact h.of_moves hinv hmoves hnotes hkeys

theorem of_reached {file : List UInt8} (hP : ∀ {st : RunState} {now : ℕ} {rounds : List Round},
      (st.clock :: now :: readings rounds).Pairwise (· ≤ ·) → P st.engine now rounds →
      ExpiryMeets X now st.engine rounds)
    (h : Reached P file st) : RunInv X st := by
  induction h with
  | refl => exact RunInv.start X file
  | tail _ hstep ih => exact ih.step hP hstep

end RunInv

/-! ### The number of queued events -/

section Bound

variable {X : ℕ → ℕ → ℕ → Prop} {e e' : Engine} {notes : List Note}

theorem Moves.live_of_live {L L' : Ledger} {k : EventKey} {m' : EventMeta} (h : Moves X L notes L')
    (hstatus : ∀ m, L.record k = some m → m.status.isLive = true ∨ m.status.isFinal = true)
    (hnone : ingestedKeys notes = []) (hget : L'.record k = some m') (hlive : m'.status.isLive = true) :
    ∃ m, L.record k = some m ∧ m.status.isLive = true := by
  have hknown : (L.record k).isSome := by
    have hsome := h.known.1 (show (L'.record k).isSome by rw [hget]; rfl)
    rw [hnone] at hsome
    exact hsome.resolve_right not_mem_nil
  obtain ⟨m, hm⟩ := Option.isSome_iff_exists.1 hknown
  refine ⟨m, hm, ?_⟩
  rcases hstatus m hm with hl | hf
  · exact hl
  · have hsame := h.final hm hf
    rw [hget] at hsame
    obtain rfl : m' = m := Option.some.inj hsame
    exact hlive

theorem totalQueued_le_of_moves (h : e.Inv []) (h' : e'.Inv []) (hmoves : Moves X e.ledger notes e'.ledger)
    (hstatus : ∀ k m, metaGet e.metaStore k = some m → m.status.isLive = true ∨ m.status.isFinal = true)
    (hnone : ingestedKeys notes = []) : e'.scheduler.totalQueued ≤ e.scheduler.totalQueued := by
  obtain ⟨keys, hcarries, hnd, hmem⟩ := h
  obtain ⟨keys', hcarries', hnd', hmem'⟩ := h'
  have hsub : keys' ⊆ keys := by
    intro k hk
    obtain ⟨m', hget, hlive⟩ := (hmem' k).1 hk
    exact (hmem k).2 (hmoves.live_of_live (hstatus k) hnone hget hlive)
  have hlen := (subperm_of_subset hnd' hsub).length_le
  have htotal := hcarries.total
  have htotal' := hcarries'.total
  rw [length_nil] at htotal htotal'
  omega

theorem dropOldest_total (h : e.Inv []) (hle : e.scheduler.totalQueued ≤ dropQueueSize + 1) :
    (dropOldest e).1.scheduler.totalQueued ≤ dropQueueSize := by
  rw [dropOldest]
  by_cases hover : dropQueueSize < e.scheduler.totalQueued
  · rw [if_pos hover]
    obtain ⟨i, l, hlargest, hl, hpos⟩ := Scheduler.largest_spec (Nat.lt_of_le_of_lt (Nat.zero_le _) hover)
    obtain ⟨keys, hcarries, -⟩ := h
    obtain ⟨s', n, hdeq, hcarries', -⟩ := hcarries.dequeue hl hpos
    rw [hlargest]
    simp only [hdeq]
    show s'.totalQueued ≤ dropQueueSize
    have htotal := hcarries.total
    have htotal' := hcarries'.total
    rw [length_nil] at htotal
    rw [length_singleton] at htotal'
    omega
  · rw [if_neg hover]
    exact Nat.le_of_not_lt hover

/-- **After an ingest no more events are queued than `RAF_HD_DROP_QUEUE_SIZE`.** -/
theorem ingest_total {call : IngestCall} (h : e.Inv []) (hnew : metaGet e.metaStore call.key = none)
    (hle : e.scheduler.totalQueued ≤ dropQueueSize) :
    (ingest e call).1.scheduler.totalQueued ≤ dropQueueSize := by
  rw [ingest]
  by_cases hempty : call.payload.length = 0
  · rw [if_pos hempty]
    exact hle
  rw [if_neg hempty]
  cases hidx : e.scheduler.layers.findIdx? fun l => l.name == call.layer with
  | none => exact hle
  | some layerIdx =>
    have hi : layerIdx < e.scheduler.layers.length := (findIdx?_eq_some_iff_getElem.1 hidx).1
    rcases storeAppend e.store call.payload call.cut with ⟨store, result⟩
    cases result with
    | none => exact hle
    | some offset =>
      have hstored : Engine.Inv { e with store := store } [] := h
      obtain ⟨hinv, -, -⟩ : _ ∧ Moves (fun _ _ _ => True) _ _ _ ∧ _ := accept_spec hstored hnew hi
      apply dropOldest_total hinv
      obtain ⟨keys, hcarries, -⟩ := h
      have hadded := (hcarries.newEntry call.key).enqueue (getElem?_eq_getElem hi)
      have htotal := hcarries.total
      have htotal' := hadded.total
      rw [length_nil] at htotal htotal'
      rw [length_cons] at htotal'
      show ((e.scheduler.newEntry call.key).enqueue layerIdx e.scheduler.fresh).totalQueued ≤ dropQueueSize + 1
      omega

end Bound

theorem Reached.totalQueued_le {file : List UInt8} {st : RunState} (h : Reached NoReentry file st) :
    st.engine.scheduler.totalQueued ≤ dropQueueSize := by
  induction h with
  | refl => exact Nat.zero_le _
  | @tail st st' hreach hstep ih =>
    have hinv : RunInv (fun _ _ _ => True) st :=
      RunInv.of_reached (fun _ _ => ExpiryMeets.of_always fun _ _ _ => trivial) hreach
    cases hstep with
    | addLayer name frequency _ =>
      show ((st.engine.scheduler.layers ++ [_]).map _).sum ≤ dropQueueSize
      rw [map_append, sum_append]
      exact ih
    | ingest call _ hkey => exact ingest_total hinv.queues (hinv.metaGet_of_notMem hkey) ih
    | tick now rounds _ hkeys hnested =>
      have hcalls : nestedCalls rounds = [] := flatMap_eq_nil_iff.2 hnested
      obtain ⟨hinv', hmoves, hnotes⟩ :=
        tick_spec hinv.queues (hinv.freshCalls hkeys) (ExpiryMeets.of_always fun _ _ _ => trivial)
      have hnone : ingestedKeys (tick st.engine now rounds).2.2 = [] := by
        rw [eq_nil_iff_forall_not_mem]
        intro k hk
        have hmem := hnotes k hk
        rw [hcalls] at hmem
        cases hmem
      exact (totalQueued_le_of_moves hinv.queues hinv' hmoves hinv.ledger.status hnone).trans ih

/-! ### What holds after every run -/

def Scheduler.keysOf (s : Scheduler) (nodes : List (List ℕ)) : List EventKey :=
  nodes.flatten.map fun n => (s.entry n).key

theorem RunInv.final_of_steps {X : ℕ → ℕ → ℕ → Prop} {P : Engine → ℕ → List Round → Prop} {st st' : RunState}
    {k : EventKey} {m : EventMeta} (hP : ∀ {st : RunState} {now : ℕ} {rounds : List Round},
      (st.clock :: now :: readings rounds).Pairwise (· ≤ ·) → P st.engine now rounds →
      ExpiryMeets X now st.engine rounds)
    (h : RunInv X st) (hsteps : ReflTransGen (EngineStep P) st st')
    (hget : metaGet st.engine.metaStore k = some m) (hfinal : m.status.isFinal = true) :
    RunInv X st' ∧ metaGet st'.engine.metaStore k = some m := by
  induction hsteps with
  | refl => exact ⟨h, hget⟩
  | tail _ hstep ih =>
    obtain ⟨hinv, hget'⟩ := ih
    refine ⟨hinv.step hP hstep, ?_⟩
    cases hstep with
    | addLayer name frequency _ => exact hget'
    | ingest call _ hkey =>
      obtain ⟨-, hmoves, -⟩ := ingest_spec (X := X) hinv.queues (hinv.metaGet_of_notMem hkey)
      exact hmoves.final hget' hfinal
    | tick now rounds hclock hkeys htick =>
      obtain ⟨-, hmoves, -⟩ := tick_spec hinv.queues (hinv.freshCalls hkeys) (hP hclock htick)
      exact hmoves.final hget' hfinal

/-- **Every run of the engine without re-entry.**  Each ingested event is in exactly one queue exactly once and is
`NEW` or `RETRYING`, or it is in no queue and is `DONE`, `DROPPED` or `EXPIRED`; a settled status never changes again;
the queues are linked lists with the right ends and counts; their total stays within `RAF_HD_DROP_QUEUE_SIZE`; and an
event is handed to the callback at most `1 + RAF_HD_MAX_RETRIES` times, never after it succeeded. -/
theorem engine_run {file : List UInt8} {st : RunState} (h : Reached NoReentry file st) :
    (∃ nodes : List (List ℕ),
      Fifos (fun n => (st.engine.scheduler.entry n).next) (st.engine.scheduler.layers.map fun l => l.queue) nodes ∧
      ∀ k ∈ ingestedKeys st.log, ∃ m, metaGet st.engine.metaStore k = some m ∧
        ((m.status = .new ∨ m.status = .retrying) ∧ (st.engine.scheduler.keysOf nodes).count k = 1 ∨
          (m.status = .done ∨ m.status = .dropped ∨ m.status = .expired) ∧
            (st.engine.scheduler.keysOf nodes).count k = 0)) ∧
    (∀ k m st', ReflTransGen (EngineStep NoReentry) st st' → metaGet st.engine.metaStore k = some m →
      (m.status = .done ∨ m.status = .dropped ∨ m.status = .expired) →
      ∃ m', metaGet st'.engine.metaStore k = some m' ∧ m'.status = m.status) ∧
    st.engine.scheduler.totalQueued ≤ dropQueueSize ∧
    (∀ k, calls st.log k ≤ 1 + maxRetries) ∧
    st.log.Pairwise fun a b => ∀ k, a = .called k 0 → ∀ r, b ≠ .called k r := by
  have hP : ∀ {st : RunState} {now : ℕ} {rounds : List Round},
      (st.clock :: now :: readings rounds).Pairwise (· ≤ ·) → NoReentry st.engine now rounds →
      ExpiryMeets (fun _ _ _ => True) now st.engine rounds :=
    fun _ _ => ExpiryMeets.of_always fun _ _ _ => trivial
  have hinv : RunInv (fun _ _ _ => True) st := RunInv.of_reached hP h
  refine ⟨?_, ?_, h.totalQueued_le, ?_, hinv.ledger.order⟩
  · obtain ⟨keys, ⟨nodes, hq, -, -, hkeys⟩, hnd, hmem⟩ := hinv.queues
    have hperm : (st.engine.scheduler.keysOf nodes).Perm keys := hkeys
    refine ⟨nodes, hq.fifos, ?_⟩
    intro k hk
    obtain ⟨m, hm⟩ := Option.isSome_iff_exists.1 ((hinv.ledger.entered.2.1 k).1 hk)
    have hm' : metaGet st.engine.metaStore k = some m := hm
    refine ⟨m, hm, ?_⟩
    rw [hperm.count_eq]
    rcases hinv.ledger.status k m hm with hlive | hfinal
    · left
      constructor
      · cases hs : m.status <;> rw [hs] at hlive <;> simp_all [Status.isLive]
      · exact count_eq_one_of_mem hnd ((hmem k).2 ⟨m, hm', hlive⟩)
    · right
      constructor
      · cases hs : m.status <;> rw [hs] at hfinal <;> simp_all [Status.isFinal]
      · apply count_eq_zero_of_not_mem
        rw [hmem k]
        rintro ⟨m₁, hget, hlive⟩
        rw [hm'] at hget
        obtain rfl : m = m₁ := Option.some.inj hget
        rw [Status.final_of_not_live hfinal] at hlive
        cases hlive
  · intro k m st' hsteps hget hs
    have hfinal : m.status.isFinal = true := by
      rcases hs with hs | hs | hs <;> rw [hs] <;> rfl
    exact ⟨m, (hinv.final_of_steps hP hsteps hget hfinal).2, rfl⟩
  · intro k
    cases hget : metaGet st.engine.metaStore k with
    | none =>
      rw [LedgerInv.calls_eq_zero (hinv.ledger.notMem_of_none hget)]
      exact Nat.zero_le _
    | some m =>
      have hbudget := hinv.ledger.budget k m hget
      have hcap : (if m.status.isLive then maxRetries else maxRetries + 1) ≤ maxRetries + 1 := by
        split
        · exact Nat.le_succ _
        · exact Nat.le_refl _
      omega

/-- An event of one byte for the layer `a`, with the default time to live. -/
def sampleCall (now : ℕ) : IngestCall :=
  { layer := [97], payload := [1], ttlNs := 0, now := now, rand := 0, cut := ⟨44, 1, 4051⟩ }

/-- The engine with the layer `a` and one event in it. -/
def sampleState : RunState := ((RunState.start []).addLayer [97] 100).ingest (sampleCall 1)

theorem sampleState_reached (P : Engine → ℕ → List Round → Prop) : Reached P [] sampleState := by
  have hlayer : EngineStep P (RunState.start []) _ := EngineStep.addLayer [97] 100 (by decide)
  exact (ReflTransGen.single hlayer).tail (EngineStep.ingest (sampleCall 1) (by decide) (by decide))

def failingRounds : List Round := List.replicate 4 { clock := 1, disk := none, nested := [], result := 1 }

/-- The same after a tick in which the callback fails four times. -/
def tickedState : RunState := sampleState.tick 1 failingRounds

theorem tickedState_reached {P : Engine → ℕ → List Round → Prop} (hP : P sampleState.engine 1 failingRounds) :
    Reached P [] tickedState :=
  (sampleState_reached P).tail (EngineStep.tick 1 failingRounds (by decide +kernel) (by decide +kernel) hP)

theorem failingRounds_plain : NoReentry sampleState.engine 1 failingRounds := by
  intro r hr
  rw [eq_of_mem_replicate hr]

/-- The event is called as often as it may be. -/
theorem engine_run_ticked : Reached NoReentry [] tickedState ∧ (∀ k, calls tickedState.log k ≤ 1 + maxRetries) ∧
    calls tickedState.log (sampleCall 1).key = 1 + maxRetries := by
  have hrun := tickedState_reached failingRounds_plain
  exact ⟨hrun, (engine_run hrun).2.2.2.1, by decide +kernel⟩

/-- **The counters of every run**, also with callbacks that ingest: `total_events` counts the ingested events and
`dropped_events` those dropped on overflow; the other dropped events ran out of retries. -/
theorem counters_run {file : List UInt8} {st : RunState} (h : Reached (fun _ _ _ => True) file st) :
    st.engine.totalEvents = (ingestedKeys st.log).length ∧ (ingestedKeys st.log).Nodup ∧
    (∀ k, k ∈ ingestedKeys st.log ↔ (metaGet st.engine.metaStore k).isSome) ∧
    st.engine.droppedEvents = (overflowKeys st.log).length ∧
    (overflowKeys st.log ++ exhaustedKeys st.log).Nodup ∧
    ∀ k m, metaGet st.engine.metaStore k = some m →
      (m.status = .dropped ↔ k ∈ overflowKeys st.log ∨ k ∈ exhaustedKeys st.log) := by
  have hinv : RunInv (fun _ _ _ => True) st :=
    RunInv.of_reached (fun _ _ => ExpiryMeets.of_always fun _ _ _ => trivial) h
  obtain ⟨hnd, hmem, htotal⟩ := hinv.ledger.entered
  refine ⟨htotal, hnd, hmem, hinv.ledger.counter, hinv.ledger.once, ?_⟩
  intro k m hget
  rw [hinv.ledger.dropped k m hget, mem_append]

theorem counters_run_ticked : tickedState.engine.totalEvents = (ingestedKeys tickedState.log).length ∧
    tickedState.engine.droppedEvents = (overflowKeys tickedState.log).length ∧
    exhaustedKeys tickedState.log = [(sampleCall 1).key] := by
  have hall := counters_run (tickedState_reached trivial)
  exact ⟨hall.1, hall.2.2.2.1, by decide +kernel⟩

/-- An event whose callback fails four times is dropped and not counted. -/
theorem retries_not_counted :
    ¬∀ (file : List UInt8) (st : RunState), Reached NoReentry file st →
      st.engine.totalEvents = (ingestedKeys st.log).length ∧
      st.engine.droppedEvents = ((ingestedKeys st.log).filter fun k =>
        (metaGet st.engine.metaStore k).any fun m => m.status == .dropped).length := by
  intro h
  have hcount := (h [] _ (tickedState_reached failingRounds_plain)).2
  have hnone : tickedState.engine.droppedEvents = 0 := by decide +kernel
  have hone : ((ingestedKeys tickedState.log).filter fun k =>
      (metaGet tickedState.engine.metaStore k).any fun m => m.status == .dropped).length = 1 := by decide +kernel
  have habsurd : 0 = 1 := hnone.symm.trans (hcount.trans hone)
  cases habsurd

/-! ### Expiry -/

/-- The tick examines no event that was created after it read the clock. -/
def ExaminedInTime : Engine → ℕ → List Round → Prop
  | _, _, [] => True
  | e, now, r :: rounds =>
    (∀ m, examined e = some m → m.createdNs ≤ now) ∧ ExaminedInTime (tickRound e now r).1 now rounds

theorem elapsed_le {now created : ℕ} (h : created ≤ now) : elapsed now created ≤ now - created := by
  have hsum : now + 2 ^ 64 - created = now - created + 2 ^ 64 := by omega
  rw [elapsed, hsum, Nat.add_mod_right]
  exact Nat.mod_le _ _

theorem ExaminedInTime.expiryMeets {e : Engine} {now : ℕ} {rounds : List Round} (h : ExaminedInTime e now rounds)
    (hclock : ∀ r ∈ rounds, now ≤ r.clock) :
    ExpiryMeets (fun created ttl clock => created + ttl < clock) now e rounds := by
  induction rounds generalizing e with
  | nil => trivial
  | cons r rounds ih =>
    refine ⟨?_, ih h.2 fun r' hr' => hclock r' (mem_cons_of_mem r hr')⟩
    intro m hm hexp
    have hcreated := h.1 m hm
    have htime : m.ttlNs < elapsed now m.createdNs := by
      rw [EventMeta.isExpired, Bool.and_eq_true] at hexp
      exact of_decide_eq_true hexp.2
    have hle := elapsed_le hcreated
    have hnow := hclock r mem_cons_self
    omega

theorem le_clock_of_readings {clock now : ℕ} {rounds : List Round}
    (h : (clock :: now :: readings rounds).Pairwise (· ≤ ·)) : ∀ r ∈ rounds, now ≤ r.clock := by
  intro r hr
  rw [pairwise_cons, pairwise_cons] at h
  apply h.2.1
  exact mem_flatMap.2 ⟨r, hr, mem_cons_self⟩

/-- **Expiry in every run whose ticks examine no event created after they read the clock**, also with callbacks that
ingest: an event is expired only after more than its time to live had passed when it was examined. -/
theorem expiry_run {file : List UInt8} {st : RunState} (h : Reached ExaminedInTime file st) :
    (∀ k clock, Note.expired k clock ∈ st.log → ∃ m, metaGet st.engine.metaStore k = some m ∧
      m.status = .expired ∧ m.createdNs + m.ttlNs < clock) ∧
    ∀ k m, metaGet st.engine.metaStore k = some m → m.status = .expired → ∃ clock, Note.expired k clock ∈ st.log := by
  have hinv : RunInv (fun created ttl clock => created + ttl < clock) st :=
    RunInv.of_reached (fun hclock htick => htick.expiryMeets (le_clock_of_readings hclock)) h
  exact ⟨hinv.ledger.found, hinv.ledger.expired⟩

/-- A tick thirty seconds and one nanosecond after the event was created. -/
theorem expiry_run_sample :
    Reached ExaminedInTime [] (sampleState.tick (defaultTtlNs + 2)
      [{ clock := defaultTtlNs + 2, disk := none, nested := [], result := 0 }]) ∧
    ∃ m, metaGet (sampleState.tick (defaultTtlNs + 2)
        [{ clock := defaultTtlNs + 2, disk := none, nested := [], result := 0 }]).engine.metaStore (sampleCall 1).key
        = some m ∧ m.status = .expired ∧ m.createdNs + m.ttlNs < defaultTtlNs + 2 := by
  have hexamined : (examined sampleState.engine).map (fun m => m.createdNs) = some 1 := by decide +kernel
  have htime : ExaminedInTime sampleState.engine (defaultTtlNs + 2)
      [{ clock := defaultTtlNs + 2, disk := none, nested := [], result := 0 }] := by
    refine ⟨?_, trivial⟩
    intro m hm
    rw [hm, Option.map_some, Option.some.injEq] at hexamined
    rw [hexamined]
    decide
  have hrun := (sampleState_reached ExaminedInTime).tail
    (EngineStep.tick (defaultTtlNs + 2) _ (by decide +kernel) (by decide +kernel) htime)
  exact ⟨hrun, (expiry_run hrun).1 (sampleCall 1).key (defaultTtlNs + 2) (by decide +kernel)⟩

/-- Two turns: the callback of the first ingests an event at clock 2, the second examines it. -/
def reentrantRounds : List Round :=
  [{ clock := 1, disk := none, nested := [sampleCall 2], result := 0 },
   { clock := 2, disk := none, nested := [], result := 0 }]

/-- An event that a callback ingests during a tick expires at once. -/
theorem expired_at_once :
    ¬∀ (file : List UInt8) (st : RunState), Reached (fun _ _ _ => True) file st →
      ∀ k clock, Note.expired k clock ∈ st.log → ∃ m, metaGet st.engine.metaStore k = some m ∧
        m.createdNs + m.ttlNs < clock := by
  intro h
  have hrun := (sampleState_reached fun _ _ _ => True).tail
    (EngineStep.tick 1 reentrantRounds (by decide +kernel) (by decide +kernel) trivial)
  obtain ⟨m, hget, hlt⟩ := h [] _ hrun (sampleCall 2).key 2 (by decide +kernel)
  have hmeta : (metaGet (tick sampleState.engine 1 reentrantRounds).1.metaStore (sampleCall 2).key).map
      (fun m => (m.createdNs, m.ttlNs)) = some (2, defaultTtlNs) := by decide +kernel
  have hm : (metaGet (tick sampleState.engine 1 reentrantRounds).1.metaStore (sampleCall 2).key) = some m := hget
  rw [hm, Option.map_some, Option.some.injEq, Prod.mk.injEq] at hmeta
  rw [hmeta.1, hmeta.2] at hlt
  exact absurd hlt (by decide)

end Rafstore
