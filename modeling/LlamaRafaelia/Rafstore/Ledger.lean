import LlamaRafaelia.Rafstore.Engine

/-!
# The ledger of events

What the engine is for: a **ledger** records for each event what is known of it.  An event enters once; while it is
live it may be retried, and it leaves that state for good by succeeding, expiring or being dropped.

* `LedgerInv` - what the notes of a whole run say about the ledger, kept by every move (`LedgerInv.moves`).
-/

namespace Rafstore

open List Function Note

/-- Waiting in a queue: `NEW` or `RETRYING`. -/
def Status.isLive : Status → Bool
  | .new => true
  | .retrying => true
  | _ => false

/-- Settled: `DONE`, `DROPPED` or `EXPIRED`. -/
def Status.isFinal : Status → Bool
  | .done => true
  | .dropped => true
  | .expired => true
  | _ => false

namespace Note

def key : Note → EventKey
  | ingested k => k
  | overflow k => k
  | expired k _ => k
  | called k _ => k
  | exhausted k => k

def ingestedKey : Note → Option EventKey
  | ingested k => some k
  | _ => none

def overflowKey : Note → Option EventKey
  | overflow k => some k
  | _ => none

def exhaustedKey : Note → Option EventKey
  | exhausted k => some k
  | _ => none

def calledKey : Note → Option EventKey
  | called k _ => some k
  | _ => none

end Note

def ingestedKeys (log : List Note) : List EventKey := log.filterMap ingestedKey

def overflowKeys (log : List Note) : List EventKey := log.filterMap overflowKey

def exhaustedKeys (log : List Note) : List EventKey := log.filterMap exhaustedKey

def calls (log : List Note) (k : EventKey) : ℕ := (log.filterMap calledKey).count k

@[simp] theorem ingestedKeys_append (l l' : List Note) : ingestedKeys (l ++ l') = ingestedKeys l ++ ingestedKeys l' :=
  filterMap_append

@[simp] theorem overflowKeys_append (l l' : List Note) : overflowKeys (l ++ l') = overflowKeys l ++ overflowKeys l' :=
  filterMap_append

@[simp] theorem exhaustedKeys_append (l l' : List Note) :
    exhaustedKeys (l ++ l') = exhaustedKeys l ++ exhaustedKeys l' :=
  filterMap_append

@[simp] theorem calls_append (l l' : List Note) (k : EventKey) : calls (l ++ l') k = calls l k + calls l' k := by
  rw [calls, filterMap_append, count_append]
  rfl

/-- What is recorded of the events, and the two counters. -/
structure Ledger where
  record : EventKey → Option EventMeta
  total : ℕ
  dropped : ℕ

/-- The notes of a turn that failed: none for a failed read, one for a failed callback. -/
def Failure (k : EventKey) (notes : List Note) : Prop := notes = [] ∨ ∃ r : ℤ, r ≠ 0 ∧ notes = [.called k r]

/-- The moves of a live event. -/
inductive Change (X : ℕ → ℕ → ℕ → Prop) (k : EventKey) (m : EventMeta) : List Note → EventMeta → Prop
  | overflow : Change X k m [.overflow k] { m with status := .dropped }
  | expire {clock : ℕ} (hx : X m.createdNs m.ttlNs clock) :
      Change X k m [.expired k clock] { m with status := .expired }
  | succeed : Change X k m [.called k 0] { m with status := .done }
  | retry {notes : List Note} (hf : Failure k notes) (hleft : 0 < m.retriesLeft) :
      Change X k m notes { m with retriesLeft := m.retriesLeft - 1, status := .retrying }
  | exhaust {notes : List Note} (hf : Failure k notes) :
      Change X k m (notes ++ [.exhausted k]) { m with status := .dropped }

/-- The moves of the ledger. -/
inductive Move (X : ℕ → ℕ → ℕ → Prop) : Ledger → List Note → Ledger → Prop
  | enter {L : Ledger} {k : EventKey} {m : EventMeta} (hnew : L.record k = none) (hstatus : m.status = .new)
      (hretries : m.retriesLeft = maxRetries) :
      Move X L [.ingested k] { L with record := update L.record k (some m), total := L.total + 1 }
  | change {L : Ledger} {k : EventKey} {m m' : EventMeta} {notes : List Note} (hget : L.record k = some m)
      (hlive : m.status.isLive = true) (hc : Change X k m notes m') :
      Move X L notes { L with
        record := update L.record k (some m'), dropped := L.dropped + (overflowKeys notes).length }

/-- Sequences of moves. -/
inductive Moves (X : ℕ → ℕ → ℕ → Prop) : Ledger → List Note → Ledger → Prop
  | nil {L : Ledger} : Moves X L [] L
  | cons {L L' L'' : Ledger} {notes notes' : List Note} (h : Move X L notes L') (hs : Moves X L' notes' L'') :
      Moves X L (notes ++ notes') L''

section Basics

variable {X : ℕ → ℕ → ℕ → Prop} {L L' L'' : Ledger} {k : EventKey} {m m' : EventMeta} {notes notes' : List Note}

theorem Move.moves (h : Move X L notes L') : Moves X L notes L' := by
  have hcons := Moves.cons h Moves.nil
  rwa [append_nil] at hcons

theorem Moves.trans (h : Moves X L notes L') (h' : Moves X L' notes' L'') : Moves X L (notes ++ notes') L'' := by
  induction h with
  | nil => exact h'
  | cons hm _ ih =>
    rw [append_assoc]
    exact Moves.cons hm (ih h')

theorem Status.final_of_not_live {s : Status} (h : s.isFinal = true) : s.isLive = false := by
  cases s <;> first | rfl | cases h

theorem Change.key_eq (hc : Change X k m notes m') : ∀ note ∈ notes, note.key = k := by
  have hfail : ∀ {l : List Note}, Failure k l → ∀ note ∈ l, note.key = k := by
    rintro l (rfl | ⟨r, -, rfl⟩) note hnote
    · cases hnote
    · rw [mem_singleton.1 hnote]
      rfl
  intro note hnote
  cases hc with
  | overflow =>
    rw [mem_singleton.1 hnote]
    rfl
  | expire _ =>
    rw [mem_singleton.1 hnote]
    rfl
  | succeed =>
    rw [mem_singleton.1 hnote]
    rfl
  | retry hf _ => exact hfail hf note hnote
  | exhaust hf =>
    rcases mem_append.1 hnote with hnote | hnote
    · exact hfail hf note hnote
    · rw [mem_singleton.1 hnote]
      rfl

theorem Change.ingestedKeys_eq (hc : Change X k m notes m') : ingestedKeys notes = [] := by
  cases hc with
  | overflow => rfl
  | expire _ => rfl
  | succeed => rfl
  | retry hf _ =>
    obtain rfl | ⟨r, -, rfl⟩ := hf
    · rfl
    · rfl
  | exhaust hf =>
    obtain rfl | ⟨r, -, rfl⟩ := hf
    · rfl
    · rfl

theorem Change.status (hc : Change X k m notes m') : m'.status.isLive = true ∨ m'.status.isFinal = true := by
  cases hc with
  | overflow => exact Or.inr rfl
  | expire _ => exact Or.inr rfl
  | succeed => exact Or.inr rfl
  | retry _ _ => exact Or.inl rfl
  | exhaust _ => exact Or.inr rfl

theorem Change.budget (hc : Change X k m notes m') :
    calls notes k + m'.retriesLeft ≤ if m'.status.isLive then m.retriesLeft else m.retriesLeft + 1 := by
  cases hc with
  | overflow =>
    show 0 + m.retriesLeft ≤ m.retriesLeft + 1
    omega
  | expire _ =>
    show 0 + m.retriesLeft ≤ m.retriesLeft + 1
    omega
  | succeed =>
    have hone : calls [.called k 0] k = 1 := by simp [calls, calledKey]
    rw [hone]
    exact Nat.le_of_eq (Nat.add_comm _ _)
  | retry hf hleft =>
    show calls notes k + (m.retriesLeft - 1) ≤ m.retriesLeft
    obtain rfl | ⟨r, -, rfl⟩ := hf
    · simp [calls]
    · have hone : calls [.called k r] k = 1 := by simp [calls, calledKey]
      omega
  | @exhaust ns hf =>
    show calls (ns ++ [.exhausted k]) k + m.retriesLeft ≤ m.retriesLeft + 1
    obtain rfl | ⟨r, -, rfl⟩ := hf
    · have hzero : calls ([] ++ [.exhausted k]) k = 0 := by simp [calls, calledKey, filterMap_cons]
      omega
    · have hone : calls ([.called k r] ++ [.exhausted k]) k = 1 := by simp [calls, calledKey, filterMap_cons]
      omega

theorem Change.success (hc : Change X k m notes m') :
    (called k 0 ∈ notes → m'.status = .done) ∧
      notes.Pairwise fun a b => ∀ k, a = .called k 0 → ∀ r, b ≠ .called k r := by
  cases hc with
  | overflow => simp
  | expire _ => simp
  | succeed => simp
  | retry hf _ =>
    obtain rfl | ⟨r, hr, rfl⟩ := hf
    · simp
    · simp [Ne.symm hr]
  | exhaust hf =>
    obtain rfl | ⟨r, hr, rfl⟩ := hf
    · simp
    · simp [Ne.symm hr]

theorem Change.dropped (hc : Change X k m notes m') :
    (m'.status = .dropped ↔ k ∈ overflowKeys notes ++ exhaustedKeys notes) ∧
      (overflowKeys notes ++ exhaustedKeys notes).Nodup := by
  cases hc with
  | overflow => simp [overflowKeys, exhaustedKeys, overflowKey, exhaustedKey, filterMap_cons]
  | expire _ => simp [overflowKeys, exhaustedKeys, overflowKey, exhaustedKey, filterMap_cons]
  | succeed => simp [overflowKeys, exhaustedKeys, overflowKey, exhaustedKey, filterMap_cons]
  | retry hf _ =>
    obtain rfl | ⟨r, -, rfl⟩ := hf <;>
      simp [overflowKeys, exhaustedKeys, overflowKey, exhaustedKey, filterMap_cons]
  | exhaust hf =>
    obtain rfl | ⟨r, -, rfl⟩ := hf <;>
      simp [overflowKeys, exhaustedKeys, overflowKey, exhaustedKey, filterMap_cons]

theorem Change.expired (hc : Change X k m notes m') (hexp : m'.status = .expired) :
    ∃ clock, expired k clock ∈ notes := by
  cases hc with
  | overflow => cases hexp
  | expire hx => exact ⟨_, mem_singleton_self _⟩
  | succeed => cases hexp
  | retry _ _ => cases hexp
  | exhaust _ => cases hexp

theorem Change.found {clock : ℕ} (hc : Change X k m notes m') (hnote : Note.expired k clock ∈ notes) :
    m'.status = .expired ∧ X m'.createdNs m'.ttlNs clock := by
  cases hc with
  | overflow => simp at hnote
  | expire hx =>
    obtain rfl : clock = _ := by simpa using hnote
    exact ⟨rfl, hx⟩
  | succeed => simp at hnote
  | retry hf _ =>
    obtain rfl | ⟨r, -, rfl⟩ := hf
    · simp at hnote
    · simp at hnote
  | exhaust hf =>
    obtain rfl | ⟨r, -, rfl⟩ := hf
    · simp at hnote
    · simp at hnote

theorem Move.final (h : Move X L notes L') (hget : L.record k = some m) (hfinal : m.status.isFinal = true) :
    L'.record k = some m := by
  cases h with
  | @enter k' m' hnew _ _ =>
    have hne : k ≠ k' := by
      rintro rfl
      rw [hnew] at hget
      cases hget
    exact (update_of_ne hne _ _).trans hget
  | @change k' m₁ m₂ _ hget' hlive _ =>
    have hne : k ≠ k' := by
      rintro rfl
      rw [hget'] at hget
      obtain rfl : m₁ = m := Option.some.inj hget
      rw [Status.final_of_not_live hfinal] at hlive
      cases hlive
    exact (update_of_ne hne _ _).trans hget

theorem Moves.final (h : Moves X L notes L') (hget : L.record k = some m) (hfinal : m.status.isFinal = true) :
    L'.record k = some m := by
  induction h with
  | nil => exact hget
  | cons hm _ ih => exact ih (hm.final hget hfinal)

theorem Moves.known (h : Moves X L notes L') :
    (L'.record k).isSome ↔ (L.record k).isSome ∨ k ∈ ingestedKeys notes := by
  induction h with
  | nil => simp [ingestedKeys]
  | @cons L L₁ L₂ ns ns' hm _ ih =>
    have hstep : (L₁.record k).isSome ↔ (L.record k).isSome ∨ k ∈ ingestedKeys ns := by
      cases hm with
      | @enter k' m' hnew _ _ =>
        by_cases hk : k = k'
        · subst hk
          simp [ingestedKeys, ingestedKey]
        · simp [ingestedKeys, ingestedKey, hk]
      | @change k' m₁ m₂ _ hget _ hc =>
        rw [hc.ingestedKeys_eq]
        by_cases hk : k = k'
        · subst hk
          simp [hget]
        · simp [hk]
    rw [ih, hstep, ingestedKeys_append, mem_append, or_assoc]

end Basics

/-! ### What the notes say -/

/-- **The invariant of a ledger and the notes of the run that led to it.** -/
structure LedgerInv (X : ℕ → ℕ → ℕ → Prop) (log : List Note) (L : Ledger) : Prop where
  /-- every event is live or settled -/
  status : ∀ k m, L.record k = some m → m.status.isLive = true ∨ m.status.isFinal = true
  /-- the notes are about known events -/
  known : ∀ note ∈ log, (L.record note.key).isSome
  /-- every call of the callback that did not settle the event has used up a retry -/
  budget : ∀ k m, L.record k = some m →
    calls log k + m.retriesLeft ≤ if m.status.isLive then maxRetries else maxRetries + 1
  /-- an event that succeeded is done -/
  success : ∀ k, called k 0 ∈ log → ∃ m, L.record k = some m ∧ m.status = .done
  /-- no call after a success -/
  order : log.Pairwise fun a b => ∀ k, a = .called k 0 → ∀ r, b ≠ .called k r
  /-- the events are those ingested, each of them once -/
  entered : (ingestedKeys log).Nodup ∧ (∀ k, k ∈ ingestedKeys log ↔ (L.record k).isSome) ∧
    L.total = (ingestedKeys log).length
  /-- each event was dropped at most once, on one of the two paths -/
  once : (overflowKeys log ++ exhaustedKeys log).Nodup
  /-- the dropped events are those of the two paths -/
  dropped : ∀ k m, L.record k = some m →
    (m.status = .dropped ↔ k ∈ overflowKeys log ++ exhaustedKeys log)
  /-- the counter counts the first path -/
  counter : L.dropped = (overflowKeys log).length
  /-- an expired event was found so -/
  expired : ∀ k m, L.record k = some m → m.status = .expired → ∃ clock, Note.expired k clock ∈ log
  /-- an event found expired is so, and `X` held -/
  found : ∀ k clock, Note.expired k clock ∈ log →
    ∃ m, L.record k = some m ∧ m.status = .expired ∧ X m.createdNs m.ttlNs clock

namespace LedgerInv

variable {X : ℕ → ℕ → ℕ → Prop} {L L' : Ledger} {k : EventKey} {m m' : EventMeta} {log notes : List Note}

theorem notMem_of_none (h : LedgerInv X log L) (hk : L.record k = none) : ∀ note ∈ log, note.key ≠ k := by
  rintro note hnote rfl
  have hsome := h.known note hnote
  rw [hk] at hsome
  cases hsome

theorem filterMap_notMem {f : Note → Option EventKey} (hf : ∀ note k, f note = some k → note.key = k)
    (hlog : ∀ note ∈ log, note.key ≠ k) : k ∉ log.filterMap f := by
  intro hk
  obtain ⟨note, hnote, hkey⟩ := mem_filterMap.1 hk
  exact hlog note hnote (hf note k hkey)

theorem ingestedKey_key (note : Note) (k : EventKey) (h : note.ingestedKey = some k) : note.key = k := by
  cases note <;> cases h
  rfl

theorem overflowKey_key (note : Note) (k : EventKey) (h : note.overflowKey = some k) : note.key = k := by
  cases note <;> cases h
  rfl

theorem exhaustedKey_key (note : Note) (k : EventKey) (h : note.exhaustedKey = some k) : note.key = k := by
  cases note <;> cases h
  rfl

theorem calledKey_key (note : Note) (k : EventKey) (h : note.calledKey = some k) : note.key = k := by
  cases note <;> cases h
  rfl

theorem calls_eq_zero (hlog : ∀ note ∈ log, note.key ≠ k) : calls log k = 0 :=
  count_eq_zero_of_not_mem (filterMap_notMem calledKey_key hlog)

theorem record_cases {record : EventKey → Option EventMeta} {k' : EventKey}
    (hget : update record k (some m) k' = some m') : k' = k ∧ m' = m ∨ k' ≠ k ∧ record k' = some m' := by
  by_cases hk : k' = k
  · subst hk
    rw [update_self] at hget
    exact Or.inl ⟨rfl, (Option.some.inj hget).symm⟩
  · rw [update_of_ne hk] at hget
    exact Or.inr ⟨hk, hget⟩

theorem init (X : ℕ → ℕ → ℕ → Prop) : LedgerInv X [] { record := fun _ => none, total := 0, dropped := 0 } where
  status := fun _ _ h => absurd h (by simp)
  known := fun _ h => absurd h not_mem_nil
  budget := fun _ _ h => absurd h (by simp)
  success := fun _ h => absurd h not_mem_nil
  order := List.Pairwise.nil
  entered := ⟨nodup_nil, fun k => by simp [ingestedKeys], rfl⟩
  once := nodup_nil
  dropped := fun _ _ h => absurd h (by simp)
  counter := rfl
  expired := fun _ _ h => absurd h (by simp)
  found := fun _ _ h => absurd h not_mem_nil

theorem enter (h : LedgerInv X log L) (hnew : L.record k = none) (hstatus : m.status = .new)
    (hretries : m.retriesLeft = maxRetries) : LedgerInv X (log ++ [.ingested k])
      { L with record := update L.record k (some m), total := L.total + 1 } := by
  have hnotes := h.notMem_of_none hnew
  have hkeep : ∀ k', (L.record k').isSome → update L.record k (some m) k' = L.record k' := by
    intro k' hk'
    apply update_of_ne
    rintro rfl
    rw [hnew] at hk'
    cases hk'
  have hover : overflowKeys (log ++ [.ingested k]) = overflowKeys log := by
    rw [overflowKeys_append]
    exact append_nil _
  have hexh : exhaustedKeys (log ++ [.ingested k]) = exhaustedKeys log := by
    rw [exhaustedKeys_append]
    exact append_nil _
  have hing : ingestedKeys (log ++ [.ingested k]) = ingestedKeys log ++ [k] := ingestedKeys_append _ _
  have hcalls : ∀ k', calls (log ++ [.ingested k]) k' = calls log k' := fun k' => by
    rw [calls_append]
    rfl
  refine ⟨?_, ?_, ?_, ?_, ?_, ?_, ?_, ?_, ?_, ?_, ?_⟩
  · intro k' m' hget
    rcases record_cases hget with ⟨-, rfl⟩ | ⟨-, hget⟩
    · rw [hstatus]
      exact Or.inl rfl
    · exact h.status k' m' hget
  · intro note hnote
    rcases mem_append.1 hnote with hnote | hnote
    · have hsome := h.known note hnote
      show (update L.record k (some m) note.key).isSome
      rw [hkeep _ hsome]
      exact hsome
    · rw [mem_singleton.1 hnote]
      show (update L.record k (some m) k).isSome
      rw [update_self]
      rfl
  · intro k' m' hget
    rw [hcalls]
    rcases record_cases hget with ⟨rfl, rfl⟩ | ⟨-, hget⟩
    · rw [calls_eq_zero hnotes, hretries, hstatus]
      exact Nat.le_of_eq (Nat.zero_add _)
    · exact h.budget k' m' hget
  · intro k' hmem
    rcases mem_append.1 hmem with hmem | hmem
    · obtain ⟨m', hget, hdone⟩ := h.success k' hmem
      refine ⟨m', ?_, hdone⟩
      rw [← hget]
      exact hkeep k' (by rw [hget]; rfl)
    · cases mem_singleton.1 hmem
  · rw [pairwise_append]
    refine ⟨h.order, pairwise_singleton _ _, ?_⟩
    intro a _ b hb k' _ r hr
    rw [mem_singleton.1 hb] at hr
    cases hr
  · rw [hing]
    obtain ⟨hnd, hmem, htotal⟩ := h.entered
    have hk : k ∉ ingestedKeys log := filterMap_notMem ingestedKey_key hnotes
    refine ⟨?_, ?_, ?_⟩
    · rw [nodup_append]
      refine ⟨hnd, nodup_singleton k, ?_⟩
      intro a ha b hb
      rw [mem_singleton.1 hb]
      rintro rfl
      exact hk ha
    · intro k'
      rw [mem_append, mem_singleton, hmem]
      show (L.record k').isSome ∨ k' = k ↔ (update L.record k (some m) k').isSome
      by_cases hk' : k' = k
      · subst hk'
        simp
      · simp [hk']
    · rw [length_append, ← htotal]
      rfl
  · rw [hover, hexh]
    exact h.once
  · intro k' m' hget
    rw [hover, hexh]
    rcases record_cases hget with ⟨rfl, rfl⟩ | ⟨-, hget⟩
    · rw [hstatus]
      have hno : k' ∉ overflowKeys log ++ exhaustedKeys log := by
        rw [mem_append, not_or]
        exact ⟨filterMap_notMem overflowKey_key hnotes, filterMap_notMem exhaustedKey_key hnotes⟩
      constructor
      · intro hs
        cases hs
      · intro hs
        exact absurd hs hno
    · exact h.dropped k' m' hget
  · rw [hover]
    exact h.counter
  · intro k' m' hget hexp
    rcases record_cases hget with ⟨-, rfl⟩ | ⟨-, hget⟩
    · rw [hstatus] at hexp
      cases hexp
    · obtain ⟨clock, hmem⟩ := h.expired k' m' hget hexp
      exact ⟨clock, mem_append_left _ hmem⟩
  · intro k' clock hmem
    rcases mem_append.1 hmem with hmem | hmem
    · obtain ⟨m', hget, hexp, hx⟩ := h.found k' clock hmem
      refine ⟨m', ?_, hexp, hx⟩
      rw [← hget]
      exact hkeep k' (by rw [hget]; rfl)
    · cases mem_singleton.1 hmem

theorem mem_filterMap_change {f : Note → Option EventKey} (hf : ∀ note k, f note = some k → note.key = k)
    (hc : Change X k m notes m') {k' : EventKey} (hk' : k' ∈ notes.filterMap f) : k' = k := by
  obtain ⟨note, hnote, hkey⟩ := mem_filterMap.1 hk'
  rw [← hf note k' hkey]
  exact hc.key_eq note hnote

theorem change (h : LedgerInv X log L) (hget : L.record k = some m) (hlive : m.status.isLive = true)
    (hc : Change X k m notes m') : LedgerInv X (log ++ notes) { L with
      record := update L.record k (some m'), dropped := L.dropped + (overflowKeys notes).length } := by
  have hisSome : ∀ k', (update L.record k (some m') k').isSome ↔ (L.record k').isSome := by
    intro k'
    by_cases hk : k' = k
    · subst hk
      simp [hget]
    · simp [hk]
  have hother : ∀ {f : Note → Option EventKey}, (∀ note k, f note = some k → note.key = k) →
      ∀ k', k' ≠ k → k' ∉ notes.filterMap f := by
    intro f hf k' hk hmem
    exact hk (mem_filterMap_change hf hc hmem)
  -- a live event has neither succeeded nor been dropped
  have hnotDone : Note.called k 0 ∉ log := by
    intro hmem
    obtain ⟨m₁, hget₁, hdone⟩ := h.success k hmem
    rw [hget] at hget₁
    obtain rfl : m = m₁ := Option.some.inj hget₁
    rw [hdone] at hlive
    cases hlive
  have hnotDropped : k ∉ overflowKeys log ++ exhaustedKeys log := by
    rw [← h.dropped k m hget]
    intro hdropped
    rw [hdropped] at hlive
    cases hlive
  refine ⟨?_, ?_, ?_, ?_, ?_, ?_, ?_, ?_, ?_, ?_, ?_⟩
  · intro k' m₁ hget'
    rcases record_cases hget' with ⟨-, rfl⟩ | ⟨-, hget'⟩
    · exact hc.status
    · exact h.status k' m₁ hget'
  · intro note hnote
    rcases mem_append.1 hnote with hnote | hnote
    · exact (hisSome _).2 (h.known note hnote)
    · rw [hc.key_eq note hnote]
      exact (hisSome k).2 (by rw [hget]; rfl)
  · intro k' m₁ hget'
    rw [calls_append]
    rcases record_cases hget' with ⟨rfl, rfl⟩ | ⟨hk, hget'⟩
    · have hb := h.budget k' m hget
      have hb' := hc.budget
      rw [hlive] at hb
      simp only [if_true] at hb
      split at hb'
      · rename_i hlive'
        rw [if_pos hlive']
        omega
      · rename_i hlive'
        rw [if_neg hlive']
        omega
    · have hzero : calls notes k' = 0 := count_eq_zero_of_not_mem (hother calledKey_key k' hk)
      rw [hzero]
      exact h.budget k' m₁ hget'
  · intro k' hmem
    rcases mem_append.1 hmem with hmem | hmem
    · obtain ⟨m₁, hget₁, hdone⟩ := h.success k' hmem
      have hne : k' ≠ k := by
        rintro rfl
        exact hnotDone hmem
      exact ⟨m₁, (update_of_ne hne _ _).trans hget₁, hdone⟩
    · obtain rfl : k' = k := hc.key_eq _ hmem
      exact ⟨m', update_self _ _ _, hc.success.1 hmem⟩
  · rw [pairwise_append]
    refine ⟨h.order, hc.success.2, ?_⟩
    rintro a ha b hb k' rfl r rfl
    obtain rfl : k' = k := hc.key_eq _ hb
    exact hnotDone ha
  · obtain ⟨hnd, hmem, htotal⟩ := h.entered
    rw [ingestedKeys_append, hc.ingestedKeys_eq, append_nil]
    exact ⟨hnd, fun k' => (hmem k').trans (hisSome k').symm, htotal⟩
  · have hperm : (overflowKeys (log ++ notes) ++ exhaustedKeys (log ++ notes)).Perm
        ((overflowKeys log ++ exhaustedKeys log) ++ (overflowKeys notes ++ exhaustedKeys notes)) := by
      rw [overflowKeys_append, exhaustedKeys_append, append_assoc, append_assoc]
      apply List.Perm.append_left
      rw [← append_assoc, ← append_assoc]
      exact perm_append_comm.append_right _
    rw [hperm.nodup_iff, nodup_append]
    refine ⟨h.once, hc.dropped.2, ?_⟩
    rintro a ha b hb rfl
    have hak : a = k := by
      rcases mem_append.1 hb with hb | hb
      · exact mem_filterMap_change overflowKey_key hc hb
      · exact mem_filterMap_change exhaustedKey_key hc hb
    exact hnotDropped (hak ▸ ha)
  · intro k' m₁ hget'
    have hsplit : k' ∈ overflowKeys (log ++ notes) ++ exhaustedKeys (log ++ notes) ↔
        k' ∈ overflowKeys log ++ exhaustedKeys log ∨ k' ∈ overflowKeys notes ++ exhaustedKeys notes := by
      simp only [overflowKeys_append, exhaustedKeys_append, mem_append]
      tauto
    rw [hsplit]
    rcases record_cases hget' with ⟨rfl, rfl⟩ | ⟨hk, hget'⟩
    · rw [hc.dropped.1]
      exact ⟨Or.inr, fun hor => hor.resolve_left hnotDropped⟩
    · have hno : k' ∉ overflowKeys notes ++ exhaustedKeys notes := by
        rw [mem_append, not_or]
        exact ⟨hother overflowKey_key k' hk, hother exhaustedKey_key k' hk⟩
      rw [h.dropped k' m₁ hget']
      exact ⟨Or.inl, fun hor => hor.resolve_right hno⟩
  · show L.dropped + _ = _
    rw [overflowKeys_append, length_append, h.counter]
  · intro k' m₁ hget' hexp
    rcases record_cases hget' with ⟨rfl, rfl⟩ | ⟨-, hget'⟩
    · obtain ⟨clock, hmem⟩ := hc.expired hexp
      exact ⟨clock, mem_append_right _ hmem⟩
    · obtain ⟨clock, hmem⟩ := h.expired k' m₁ hget' hexp
      exact ⟨clock, mem_append_left _ hmem⟩
  · intro k' clock hmem
    rcases mem_append.1 hmem with hmem | hmem
    · obtain ⟨m₁, hget₁, hexp, hx⟩ := h.found k' clock hmem
      have hne : k' ≠ k := by
        rintro rfl
        rw [hget] at hget₁
        obtain rfl : m = m₁ := Option.some.inj hget₁
        rw [hexp] at hlive
        cases hlive
      exact ⟨m₁, (update_of_ne hne _ _).trans hget₁, hexp, hx⟩
    · obtain rfl : k' = k := hc.key_eq _ hmem
      exact ⟨m', update_self _ _ _, hc.found hmem⟩

theorem moves (h : LedgerInv X log L) (hm : Moves X L notes L') : LedgerInv X (log ++ notes) L' := by
  induction hm generalizing log with
  | nil =>
    rw [append_nil]
    exact h
  | cons hmove _ ih =>
    rw [← append_assoc]
    apply ih
    cases hmove with
    | enter hnew hstatus hretries => exact h.enter hnew hstatus hretries
    | change hget hlive hc => exact h.change hget hlive hc

end LedgerInv

end Rafstore
