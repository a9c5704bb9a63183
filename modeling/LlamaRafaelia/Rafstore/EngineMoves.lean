import LlamaRafaelia.Rafstore.Ledger

/-!
# The engine makes moves of the ledger

`Engine.ledger` forgets everything but the metadata and the two counters.  `EngineInv e hand`: the keys in the queues
and those of the entries `hand`, taken out and not yet disposed of, are exactly the live events, each once.

* `EngineInv.ingest`, `EngineInv.tick` - **the simulation**: each operation keeps the invariant and makes moves of the
  ledger whose notes are the notes it returns.
-/

namespace Rafstore

open List Linked Function Scheduler Engine

/-! ### Queues and entries in hand -/

/-- The entries of the queues and those in `hand` are distinct, and their keys are `keys` up to order. -/
def Scheduler.Carries (s : Scheduler) (hand : List ℕ) (keys : List EventKey) : Prop :=
  ∃ nodes, s.Queues nodes ∧ (hand ++ nodes.flatten).Nodup ∧ (∀ n ∈ hand, n < s.fresh) ∧
    ((hand ++ nodes.flatten).map fun n => (s.entry n).key).Perm keys

namespace Scheduler.Carries

variable {s : Scheduler} {hand : List ℕ} {keys keys' : List EventKey} {i n : ℕ} {key : EventKey} {l : Layer}

theorem total (h : s.Carries hand keys) : hand.length + s.totalQueued = keys.length := by
  obtain ⟨nodes, hq, -, -, hkeys⟩ := h
  rw [← hkeys.length_eq, length_map, length_append, hq.totalQueued_eq]

theorem setTick (h : s.Carries hand keys) (tick : ℕ) : { s with tick := tick }.Carries hand keys := by
  obtain ⟨nodes, hq, hrest⟩ := h
  exact ⟨nodes, ⟨hq.fifos, hq.bound⟩, hrest⟩

theorem dequeue (h : s.Carries hand keys) (hl : s.layers[i]? = some l) (hpos : 0 < l.queue.count) :
    ∃ s' n, s.dequeue i = some (s', n) ∧ s'.Carries (n :: hand) keys ∧ ∃ l', s'.layers[i]? = some l' := by
  obtain ⟨nodes, hq, hnd, hb, hkeys⟩ := h
  obtain ⟨s', n, nodes', hdeq, hq', hperm, hentry, hfresh, hl'⟩ := hq.dequeue hl hpos
  have hmove : (n :: hand ++ nodes'.flatten).Perm (hand ++ nodes.flatten) :=
    (perm_middle.symm).trans (hperm.symm.append_left hand)
  refine ⟨s', n, hdeq, ⟨nodes', hq', hmove.nodup_iff.2 hnd, ?_, ?_⟩, hl'⟩
  · intro k hk
    rw [hfresh]
    rcases mem_cons.1 hk with rfl | hk
    · exact hq.bound k (hperm.mem_iff.2 mem_cons_self)
    · exact hb k hk
  · rw [hentry]
    exact (hmove.map _).trans hkeys

theorem discard (h : s.Carries (n :: hand) keys) (hkey : (s.entry n).key = key) :
    ∃ keys', keys.Perm (key :: keys') ∧ s.Carries hand keys' := by
  obtain ⟨nodes, hq, hnd, hb, hkeys⟩ := h
  rw [cons_append, map_cons, hkey] at hkeys
  rw [cons_append, nodup_cons] at hnd
  refine ⟨(hand ++ nodes.flatten).map fun n => (s.entry n).key, hkeys.symm, nodes, hq, hnd.2, ?_, List.Perm.refl _⟩
  intro k hk
  exact hb k (mem_cons_of_mem n hk)

theorem enqueue (h : s.Carries (n :: hand) keys) (hl : s.layers[i]? = some l) :
    (s.enqueue i n).Carries hand keys := by
  obtain ⟨nodes, hq, hnd, hb, hkeys⟩ := h
  have hn : n ∉ nodes.flatten := by
    intro hmem
    rw [cons_append, nodup_cons] at hnd
    exact hnd.1 (mem_append_right hand hmem)
  obtain ⟨nodes', hq', hperm⟩ := hq.enqueue hl hn (hb n mem_cons_self)
  have hmove : (hand ++ nodes'.flatten).Perm (n :: hand ++ nodes.flatten) :=
    (hperm.append_left hand).trans perm_middle
  refine ⟨nodes', hq', hmove.nodup_iff.2 hnd, ?_, ?_⟩
  · intro k hk
    exact hb k (mem_cons_of_mem n hk)
  · simp only [enqueue_key]
    exact (hmove.map _).trans hkeys

theorem requeue (h : s.Carries (n :: hand) keys) (hl : s.layers[i]? = some l) :
    (s.requeue i n).Carries hand keys := by
  have htail : s.tailOf i ≠ some n := by
    obtain ⟨nodes, hq, hnd, -, -⟩ := h
    have hget : (s.layers.map fun l => l.queue)[i]? = some l.queue := by
      rw [getElem?_map, hl]
      rfl
    obtain ⟨ids, hids, hhold⟩ := hq.fifos.get hget
    have htail : s.tailOf i = ids.getLast? := by
      rw [tailOf, hl, ← hhold.tail]
      rfl
    rw [htail]
    intro hlast
    rw [cons_append, nodup_cons] at hnd
    exact hnd.1 (mem_append_right hand (Fifos.mem_flatten hids (mem_of_getLast? hlast)))
  rw [requeue_eq_enqueue htail]
  exact h.enqueue hl

theorem newEntry (h : s.Carries hand keys) (key : EventKey) :
    (s.newEntry key).Carries (s.fresh :: hand) (key :: keys) := by
  obtain ⟨nodes, hq, hnd, hb, hkeys⟩ := h
  have hlt : ∀ n ∈ hand ++ nodes.flatten, n < s.fresh := by
    intro n hn
    rcases mem_append.1 hn with hn | hn
    · exact hb n hn
    · exact hq.bound n hn
  have hold : ∀ n ∈ hand ++ nodes.flatten, ((s.newEntry key).entry n).key = (s.entry n).key := by
    intro n hn
    show (update s.entry s.fresh _ n).key = _
    rw [update_of_ne (Nat.ne_of_lt (hlt n hn))]
  have hnew : ((s.newEntry key).entry s.fresh).key = key := by
    show (update s.entry s.fresh _ s.fresh).key = _
    rw [update_self]
  refine ⟨nodes, hq.newEntry key, ?_, ?_, ?_⟩
  · rw [cons_append, nodup_cons]
    exact ⟨fun hmem => Nat.lt_irrefl _ (hlt _ hmem), hnd⟩
  · intro n hn
    show n < s.fresh + 1
    rcases mem_cons.1 hn with rfl | hn
    · exact Nat.lt_succ_self _
    · exact Nat.lt_succ_of_lt (hb n hn)
  · rw [cons_append, map_cons, hnew, map_congr_left hold]
    exact hkeys.cons key

end Scheduler.Carries

/-! ### Live events are queued or in hand -/

/-- The keys of the queues and of the entries in hand are the live events, each of them once. -/
def Sound (s : Scheduler) (record : EventKey → Option EventMeta) (hand : List ℕ) : Prop :=
  ∃ keys, s.Carries hand keys ∧ keys.Nodup ∧ ∀ k, k ∈ keys ↔ ∃ m, record k = some m ∧ m.status.isLive = true

namespace Sound

variable {s : Scheduler} {record : EventKey → Option EventMeta} {hand : List ℕ} {i n : ℕ} {key : EventKey}
  {m m' : EventMeta}

theorem live (h : Sound s record (n :: hand)) (hkey : (s.entry n).key = key) :
    ∃ m, record key = some m ∧ m.status.isLive = true := by
  obtain ⟨keys, hcarries, -, hmem⟩ := h
  obtain ⟨keys', hperm, -⟩ := hcarries.discard hkey
  exact (hmem key).1 (hperm.mem_iff.2 mem_cons_self)

theorem bound (h : Sound s record (n :: hand)) : n < s.fresh := by
  obtain ⟨keys, ⟨nodes, -, -, hb, -⟩, -⟩ := h
  exact hb n mem_cons_self

theorem settle (h : Sound s record (n :: hand)) (hkey : (s.entry n).key = key) (hm : m'.status.isLive = false) :
    Sound s (update record key (some m')) hand := by
  obtain ⟨keys, hcarries, hnd, hmem⟩ := h
  obtain ⟨keys', hperm, hcarries'⟩ := hcarries.discard hkey
  have hnd' := hperm.nodup_iff.1 hnd
  rw [nodup_cons] at hnd'
  refine ⟨keys', hcarries', hnd'.2, ?_⟩
  intro k
  by_cases hk : k = key
  · subst hk
    simp [hnd'.1, hm]
  · have hk' : k ∈ keys' ↔ k ∈ keys := by
      rw [hperm.mem_iff, mem_cons, or_iff_right hk]
    rw [hk', hmem, update_of_ne hk]

theorem record_live (h : Sound s record hand) (hget : record key = some m) (hm : m.status.isLive = true)
    (hm' : m'.status.isLive = true) : Sound s (update record key (some m')) hand := by
  obtain ⟨keys, hcarries, hnd, hmem⟩ := h
  refine ⟨keys, hcarries, hnd, ?_⟩
  intro k
  rw [hmem]
  by_cases hk : k = key
  · subst hk
    simp [hget, hm, hm']
  · rw [update_of_ne hk]

theorem enqueue (h : Sound s record (n :: hand)) (hi : i < s.layers.length) : Sound (s.enqueue i n) record hand := by
  obtain ⟨keys, hcarries, hrest⟩ := h
  exact ⟨keys, hcarries.enqueue (getElem?_eq_getElem hi), hrest⟩

theorem requeue (h : Sound s record (n :: hand)) (hi : i < s.layers.length) : Sound (s.requeue i n) record hand := by
  obtain ⟨keys, hcarries, hrest⟩ := h
  exact ⟨keys, hcarries.requeue (getElem?_eq_getElem hi), hrest⟩

theorem newEntry (h : Sound s record hand) (hnew : record key = none) (hm : m.status.isLive = true) :
    Sound (s.newEntry key) (update record key (some m)) (s.fresh :: hand) := by
  obtain ⟨keys, hcarries, hnd, hmem⟩ := h
  have hkey : key ∉ keys := by
    rw [hmem, hnew]
    rintro ⟨m', hget, -⟩
    cases hget
  refine ⟨key :: keys, hcarries.newEntry key, nodup_cons.2 ⟨hkey, hnd⟩, ?_⟩
  intro k
  rw [mem_cons, hmem]
  by_cases hk : k = key
  · subst hk
    simp [hm]
  · simp [hk]

theorem dequeue {l : Layer} (h : Sound s record hand) (hl : s.layers[i]? = some l) (hpos : 0 < l.queue.count) :
    ∃ s' n, s.dequeue i = some (s', n) ∧ Sound s' record (n :: hand) ∧ i < s'.layers.length := by
  obtain ⟨keys, hcarries, hrest⟩ := h
  obtain ⟨s', n, hdeq, hcarries', l', hl'⟩ := hcarries.dequeue hl hpos
  exact ⟨s', n, hdeq, ⟨keys, hcarries', hrest⟩, (List.getElem?_eq_some_iff.1 hl').1⟩

end Sound

/-! ### The engine's ledger -/

namespace Engine

def ledger (e : Engine) : Ledger where
  record := metaGet e.metaStore
  total := e.totalEvents
  dropped := e.droppedEvents

def Inv (e : Engine) (hand : List ℕ) : Prop := Sound e.scheduler (metaGet e.metaStore) hand

theorem record_setMeta {e : Engine} {key : EventKey} {m : EventMeta} {f : EventMeta → EventMeta}
    (hf : ∀ m, (f m).key = m.key) (hget : metaGet e.metaStore key = some m) :
    metaGet (e.setMeta key f).metaStore = update (metaGet e.metaStore) key (some (f m)) := by
  funext k
  have hmod : metaGet (e.metaStore.modify key f) k = _ := metaGet_modify (fun m hm => (hf m).trans hm) k
  rw [setMeta, hmod]
  by_cases hk : k = key
  · subst hk
    rw [if_pos rfl, hget, update_self]
    rfl
  · rw [if_neg hk, update_of_ne hk]

theorem ledger_setMeta {e : Engine} {key : EventKey} {m : EventMeta} {f : EventMeta → EventMeta}
    (hf : ∀ m, (f m).key = m.key) (hget : metaGet e.metaStore key = some m) :
    (e.setMeta key f).ledger = { e.ledger with record := update e.ledger.record key (some (f m)) } := by
  rw [ledger, record_setMeta hf hget]
  rfl

theorem record_setStatus {e : Engine} {key : EventKey} {m : EventMeta} (status : Status)
    (hget : metaGet e.metaStore key = some m) : metaGet (e.setStatus key status).metaStore
      = update (metaGet e.metaStore) key (some { m with status := status }) :=
  record_setMeta (fun _ => rfl) hget

theorem ledger_setStatus {e : Engine} {key : EventKey} {m : EventMeta} (status : Status)
    (hget : metaGet e.metaStore key = some m) : (e.setStatus key status).ledger
      = { e.ledger with record := update e.ledger.record key (some { m with status := status }) } :=
  ledger_setMeta (fun _ => rfl) hget

/-- The record of an entry that is in no queue does not change its key, and no layer is lost. -/
structure Frame (e e' : Engine) : Prop where
  layers : e'.scheduler.layers.length = e.scheduler.layers.length
  fresh : e.scheduler.fresh ≤ e'.scheduler.fresh
  key : ∀ n, n < e.scheduler.fresh → (e'.scheduler.entry n).key = (e.scheduler.entry n).key

theorem Frame.refl (e : Engine) : Frame e e := ⟨rfl, Nat.le_refl _, fun _ _ => rfl⟩

theorem Frame.trans {e e' e'' : Engine} (h : Frame e e') (h' : Frame e' e'') : Frame e e'' :=
  ⟨h'.layers.trans h.layers, h.fresh.trans h'.fresh,
    fun n hn => (h'.key n (Nat.lt_of_lt_of_le hn h.fresh)).trans (h.key n hn)⟩

end Engine

/-! ### Ingest -/

section Ingest

variable {X : ℕ → ℕ → ℕ → Prop} {e : Engine} {hand : List ℕ} {call : IngestCall}

theorem Scheduler.dequeue_frame {s s' : Scheduler} {i n : ℕ} (h : s.dequeue i = some (s', n)) :
    s'.layers.length = s.layers.length ∧ s'.fresh = s.fresh ∧ s'.entry = s.entry := by
  rw [dequeue, Option.map_eq_some_iff] at h
  obtain ⟨m, -, heq⟩ := h
  rw [Prod.mk.injEq] at heq
  obtain ⟨rfl, rfl⟩ := heq
  exact ⟨length_modify _ _ _, rfl, rfl⟩

theorem dropOldest_spec (h : e.Inv hand) :
    (dropOldest e).1.Inv hand ∧ Moves X e.ledger (dropOldest e).2 (dropOldest e).1.ledger ∧
      Engine.Frame e (dropOldest e).1 ∧ ingestedKeys (dropOldest e).2 = [] := by
  rw [dropOldest]
  by_cases hover : dropQueueSize < e.scheduler.totalQueued
  · rw [if_pos hover]
    obtain ⟨i, l, hlargest, hl, hpos⟩ := largest_spec (Nat.lt_of_le_of_lt (Nat.zero_le _) hover)
    obtain ⟨s', n, hdeq, hsound, -⟩ := h.dequeue hl hpos
    obtain ⟨hlen, hfresh, hentry⟩ := dequeue_frame hdeq
    obtain ⟨m, hget, hlive⟩ := hsound.live rfl
    rw [hlargest]
    simp only [hdeq]
    have hget' : metaGet { e with scheduler := s', droppedEvents := e.droppedEvents + 1 }.metaStore
        (s'.entry n).key = some m := hget
    refine ⟨?_, ?_, ⟨hlen, Nat.le_of_eq hfresh.symm, fun k _ => by rw [← hentry]; rfl⟩, rfl⟩
    · show Sound s' (metaGet (setStatus _ _ _).metaStore) hand
      rw [record_setStatus .dropped hget']
      exact hsound.settle rfl rfl
    · rw [ledger_setStatus .dropped hget']
      exact (Move.change (L := e.ledger) hget hlive Change.overflow).moves
  · rw [if_neg hover]
    exact ⟨h, Moves.nil, Engine.Frame.refl e, rfl⟩

theorem accept_spec {layerIdx offset : ℕ} (h : e.Inv hand) (hnew : metaGet e.metaStore call.key = none)
    (hi : layerIdx < e.scheduler.layers.length) :
    (accept e call layerIdx offset).Inv hand ∧
      Moves X e.ledger [.ingested call.key] (accept e call layerIdx offset).ledger ∧
      Engine.Frame e (accept e call layerIdx offset) := by
  have hrecord : metaGet (metaPut e.metaStore (call.newMeta offset))
      = update (metaGet e.metaStore) call.key (some (call.newMeta offset)) := by
    funext k
    rw [metaGet_put]
    show (if k = call.key then _ else _) = _
    by_cases hk : k = call.key
    · subst hk
      rw [if_pos rfl, update_self]
    · rw [if_neg hk, update_of_ne hk]
  refine ⟨?_, ?_, ?_⟩
  · show Sound ((e.scheduler.newEntry call.key).enqueue layerIdx e.scheduler.fresh)
      (metaGet (metaPut e.metaStore (call.newMeta offset))) hand
    rw [hrecord]
    exact (Sound.newEntry h hnew rfl).enqueue hi
  · have hledger : (accept e call layerIdx offset).ledger = { e.ledger with
        record := update e.ledger.record call.key (some (call.newMeta offset))
        total := e.ledger.total + 1 } := by
      rw [ledger, accept, hrecord]
      rfl
    rw [hledger]
    exact (Move.enter hnew rfl rfl).moves
  · refine ⟨length_modify _ _ _, Nat.le_succ _, ?_⟩
    intro n hn
    show (((e.scheduler.newEntry call.key).enqueue layerIdx e.scheduler.fresh).entry n).key = _
    rw [enqueue_key]
    show (update e.scheduler.entry e.scheduler.fresh _ n).key = _
    rw [update_of_ne (Nat.ne_of_lt hn)]

theorem ingest_spec (h : e.Inv hand) (hnew : metaGet e.metaStore call.key = none) :
    (ingest e call).1.Inv hand ∧ Moves X e.ledger (ingest e call).2.2 (ingest e call).1.ledger ∧
      Engine.Frame e (ingest e call).1 ∧ ∀ k ∈ ingestedKeys (ingest e call).2.2, k = call.key := by
  have hsame : ∀ e' : Engine, e'.scheduler = e.scheduler → e'.ledger = e.ledger → e'.Inv hand ∧
      Moves X e.ledger [] e'.ledger ∧ Engine.Frame e e' ∧ ∀ k ∈ ingestedKeys [], k = call.key := by
    intro e' hs hl
    refine ⟨?_, ?_, ⟨by rw [hs], by rw [hs], fun n _ => by rw [hs]⟩, fun k hk => absurd hk not_mem_nil⟩
    · have hrecord : metaGet e'.metaStore = metaGet e.metaStore := congrArg Ledger.record hl
      show Sound e'.scheduler (metaGet e'.metaStore) hand
      rw [hs, hrecord]
      exact h
    · rw [hl]
      exact Moves.nil
  rw [ingest]
  by_cases hempty : call.payload.length = 0
  · rw [if_pos hempty]
    exact hsame e rfl rfl
  rw [if_neg hempty]
  cases hidx : e.scheduler.layers.findIdx? fun l => l.name == call.layer with
  | none => exact hsame e rfl rfl
  | some layerIdx =>
    have hi : layerIdx < e.scheduler.layers.length := (findIdx?_eq_some_iff_getElem.1 hidx).1
    rcases happend : storeAppend e.store call.payload call.cut with ⟨store, result⟩
    cases result with
    | none =>
      exact hsame { e with store := store } rfl rfl
    | some offset =>
      obtain ⟨hinv, hmoves, hframe⟩ : _ ∧ Moves X _ _ (accept { e with store := store } call layerIdx offset).ledger ∧ _ :=
        accept_spec h hnew hi
      obtain ⟨hinv', hmoves', hframe', hnone⟩ := dropOldest_spec (X := X) hinv
      refine ⟨hinv', hmoves.trans hmoves', Engine.Frame.trans ⟨hframe.layers, hframe.fresh, hframe.key⟩ hframe', ?_⟩
      intro k hk
      have hone : ingestedKeys (.ingested call.key :: (dropOldest (accept { e with store := store } call layerIdx
          offset)).2) = [call.key] := by
        have hcons : ingestedKeys (.ingested call.key :: (dropOldest (accept { e with store := store } call layerIdx
            offset)).2) = call.key :: ingestedKeys (dropOldest (accept { e with store := store } call layerIdx
            offset)).2 := rfl
        rw [hcons, hnone]
      rw [hone] at hk
      exact mem_singleton.1 hk

def FreshCalls (e : Engine) (calls : List IngestCall) : Prop :=
  (calls.map IngestCall.key).Nodup ∧ ∀ call ∈ calls, metaGet e.metaStore call.key = none

theorem FreshCalls.of_moves {e' : Engine} {calls : List IngestCall} {notes : List Note} (h : FreshCalls e calls)
    (hmoves : Moves X e.ledger notes e'.ledger) (hnotes : ∀ call ∈ calls, call.key ∉ ingestedKeys notes) :
    FreshCalls e' calls := by
  refine ⟨h.1, ?_⟩
  intro call hcall
  have hiff := hmoves.known (k := call.key)
  have hnone : ¬(e'.ledger.record call.key).isSome := by
    rw [hiff, not_or]
    refine ⟨?_, hnotes call hcall⟩
    show ¬(metaGet e.metaStore call.key).isSome
    rw [h.2 call hcall]
    simp
  exact Option.not_isSome_iff_eq_none.1 hnone

theorem ingestAll_spec {calls : List IngestCall} (h : e.Inv hand) (hfresh : FreshCalls e calls) :
    (ingestAll e calls).1.Inv hand ∧ Moves X e.ledger (ingestAll e calls).2 (ingestAll e calls).1.ledger ∧
      Engine.Frame e (ingestAll e calls).1 ∧
      ∀ k ∈ ingestedKeys (ingestAll e calls).2, k ∈ calls.map IngestCall.key := by
  induction calls generalizing e with
  | nil => exact ⟨h, Moves.nil, Engine.Frame.refl e, fun k hk => absurd hk not_mem_nil⟩
  | cons call calls ih =>
    obtain ⟨hinv, hmoves, hframe, hkeys⟩ := ingest_spec (X := X) h (hfresh.2 call mem_cons_self)
    have hnd := hfresh.1
    rw [map_cons, nodup_cons] at hnd
    have hrest : FreshCalls e calls := ⟨hnd.2, fun c hc => hfresh.2 c (mem_cons_of_mem call hc)⟩
    have hrest' : FreshCalls (ingest e call).1 calls := by
      apply hrest.of_moves hmoves
      intro c hc hmem
      rw [← hkeys c.key hmem] at hnd
      exact hnd.1 (mem_map_of_mem hc)
    obtain ⟨hinv', hmoves', hframe', hkeys'⟩ := ih hinv hrest'
    refine ⟨hinv', hmoves.trans hmoves', hframe.trans hframe', ?_⟩
    intro k hk
    show k ∈ call.key :: calls.map IngestCall.key
    have hsplit : k ∈ ingestedKeys ((ingest e call).2.2 ++ (ingestAll (ingest e call).1 calls).2) := hk
    rw [ingestedKeys_append, mem_append] at hsplit
    rcases hsplit with hk | hk
    · rw [hkeys k hk]
      exact mem_cons_self
    · exact mem_cons_of_mem _ (hkeys' k hk)

end Ingest

/-! ### Tick -/

section Tick

variable {X : ℕ → ℕ → ℕ → Prop} {e : Engine} {now i n : ℕ} {r : Round} {key : EventKey} {m : EventMeta}

theorem retryOrDrop_spec {put : Scheduler → Scheduler} {failed : List Note} (h : e.Inv [n])
    (hkey : (e.scheduler.entry n).key = key) (hget : metaGet e.metaStore key = some m)
    (hlive : m.status.isLive = true) (hfailed : Failure key failed)
    (hput : ∀ record, Sound e.scheduler record [n] → Sound (put e.scheduler) record []) :
    (retryOrDrop e key m put).1.Inv [] ∧
      Moves X e.ledger (failed ++ (retryOrDrop e key m put).2) (retryOrDrop e key m put).1.ledger := by
  rw [retryOrDrop]
  by_cases hleft : 0 < m.retriesLeft
  · rw [if_pos hleft]
    let f : EventMeta → EventMeta := fun m => { m with retriesLeft := m.retriesLeft - 1, status := .retrying }
    have hrecord : metaGet (e.setMeta key f).metaStore = _ := record_setMeta (fun _ => rfl) hget
    have hledger : (e.setMeta key f).ledger = _ := ledger_setMeta (fun _ => rfl) hget
    constructor
    · show Sound (put e.scheduler) (metaGet (e.setMeta key f).metaStore) []
      rw [hrecord]
      exact hput _ (h.record_live hget hlive rfl)
    · show Moves X e.ledger (failed ++ []) (e.setMeta key f).ledger
      rw [hledger, append_nil]
      have hmove := Move.change (X := X) (L := e.ledger) hget hlive (Change.retry hfailed hleft)
      have hzero : (overflowKeys failed).length = 0 := by
        obtain rfl | ⟨r, -, rfl⟩ := hfailed
        · rfl
        · rfl
      rw [hzero] at hmove
      exact hmove.moves
  · rw [if_neg hleft]
    constructor
    · show Sound e.scheduler (metaGet (e.setStatus key .dropped).metaStore) []
      rw [record_setStatus .dropped hget]
      exact h.settle hkey rfl
    · rw [ledger_setStatus .dropped hget]
      have hmove := Move.change (X := X) (L := e.ledger) hget hlive (Change.exhaust hfailed)
      have hzero : (overflowKeys (failed ++ [.exhausted key])).length = 0 := by
        obtain rfl | ⟨r, -, rfl⟩ := hfailed
        · rfl
        · rfl
      rw [hzero] at hmove
      exact hmove.moves

theorem process_spec (h : e.Inv [n]) (hkey : (e.scheduler.entry n).key = key) (hi : i < e.scheduler.layers.length)
    (hn : n < e.scheduler.fresh) (hfresh : FreshCalls e r.nested) :
    (process e i n key m r).1.Inv [] ∧ Moves X e.ledger (process e i n key m r).2 (process e i n key m r).1.ledger ∧
      ∀ k ∈ ingestedKeys (process e i n key m r).2, k ∈ r.nested.map IngestCall.key := by
  obtain ⟨hinv, hmoves, hframe, hkeys⟩ := ingestAll_spec (X := X) h hfresh
  have hkey' : ((ingestAll e r.nested).1.scheduler.entry n).key = key := (hframe.key n hn).trans hkey
  obtain ⟨m', hget, hlive⟩ := hinv.live hkey'
  have hgetD : (metaGet (ingestAll e r.nested).1.metaStore key).getD m = m' := by
    rw [hget]
    rfl
  have hi' : i < (ingestAll e r.nested).1.scheduler.layers.length := hframe.layers.symm ▸ hi
  rw [process]
  simp only [hgetD]
  by_cases hresult : r.result = 0
  · simp only [if_pos hresult]
    refine ⟨?_, ?_, ?_⟩
    · show Sound (ingestAll e r.nested).1.scheduler
        (metaGet ((ingestAll e r.nested).1.setStatus key .done).metaStore) []
      rw [record_setStatus .done hget]
      exact hinv.settle hkey' rfl
    · apply hmoves.trans
      rw [ledger_setStatus .done hget, hresult]
      exact (Move.change (L := (ingestAll e r.nested).1.ledger) hget hlive Change.succeed).moves
    · intro k hk
      rw [ingestedKeys_append, mem_append] at hk
      rcases hk with hk | hk
      · exact hkeys k hk
      · cases hk
  · simp only [if_neg hresult]
    have hfailed : Failure key [.called key r.result] := Or.inr ⟨r.result, hresult, rfl⟩
    obtain ⟨hinv', hmoves'⟩ : (retryOrDrop (ingestAll e r.nested).1 key m' fun s => s.requeue i n).1.Inv [] ∧ _ :=
      retryOrDrop_spec (X := X) hinv hkey' hget hlive hfailed fun record hs => hs.requeue hi'
    refine ⟨hinv', hmoves.trans hmoves', ?_⟩
    intro k hk
    rw [ingestedKeys_append, mem_append] at hk
    rcases hk with hk | hk
    · exact hkeys k hk
    · exfalso
      rw [retryOrDrop] at hk
      split at hk
      · cases hk
      · cases hk

/-- What is known when the event that `raf_hd_cache_tick` examines next is found expired. -/
def examined (e : Engine) : Option EventMeta :=
  (schedulerNext e.scheduler).2.bind fun i =>
    ((schedulerNext e.scheduler).1.dequeue i).bind fun p => metaGet e.metaStore (p.1.entry p.2).key

theorem examine_spec (h : e.Inv [n]) (hi : i < e.scheduler.layers.length) (hn : n < e.scheduler.fresh)
    (hfresh : FreshCalls e r.nested)
    (hx : ∀ m, metaGet e.metaStore (e.scheduler.entry n).key = some m → m.isExpired now = true →
      X m.createdNs m.ttlNs r.clock) :
    (examine e now i n r).1.Inv [] ∧ Moves X e.ledger (examine e now i n r).2.2 (examine e now i n r).1.ledger ∧
      ∀ k ∈ ingestedKeys (examine e now i n r).2.2, k ∈ r.nested.map IngestCall.key := by
  obtain ⟨m, hget, hlive⟩ := h.live rfl
  rw [examine]
  simp only [hget]
  by_cases hexp : m.isExpired now = true
  · rw [if_pos hexp]
    refine ⟨?_, ?_, fun k hk => by cases hk⟩
    · show Sound e.scheduler (metaGet (e.setStatus _ .expired).metaStore) []
      rw [record_setStatus .expired hget]
      exact h.settle rfl rfl
    · rw [ledger_setStatus .expired hget]
      exact (Move.change (L := e.ledger) hget hlive (Change.expire (hx m hget hexp))).moves
  rw [if_neg hexp]
  have hnotFinal : ¬(m.status = .done ∨ m.status = .dropped ∨ m.status = .expired) := by
    rintro (hs | hs | hs) <;> rw [hs] at hlive <;> cases hlive
  rw [if_neg hnotFinal]
  cases hfetch : (cacheGet e.cache (e.scheduler.entry n).key).or r.disk with
  | none =>
    obtain ⟨hinv, hmoves⟩ : (retryOrDrop e _ m fun s => s.enqueue i n).1.Inv [] ∧ _ :=
      retryOrDrop_spec (X := X) h rfl hget hlive (Or.inl rfl) fun record hs => hs.enqueue hi
    refine ⟨hinv, hmoves, ?_⟩
    intro k hk
    exfalso
    simp only [retryOrDrop] at hk
    split at hk
    · cases hk
    · cases hk
  | some payload => exact process_spec h rfl hi hn hfresh

theorem tickRound_spec (h : e.Inv []) (hfresh : FreshCalls e r.nested)
    (hx : ∀ m, examined e = some m → m.isExpired now = true → X m.createdNs m.ttlNs r.clock) :
    (tickRound e now r).1.Inv [] ∧
      Moves X e.ledger (tickRound e now r).2.2.2 (tickRound e now r).1.ledger ∧
      ∀ k ∈ ingestedKeys (tickRound e now r).2.2.2, k ∈ r.nested.map IngestCall.key := by
  obtain ⟨tick, hfst⟩ := schedulerNext_fst e.scheduler
  have hinv : Sound (schedulerNext e.scheduler).1 (metaGet e.metaStore) [] := by
    rw [hfst]
    obtain ⟨keys, hcarries, hrest⟩ := h
    exact ⟨keys, hcarries.setTick tick, hrest⟩
  rw [tickRound]
  cases hnext : (schedulerNext e.scheduler).2 with
  | none => exact ⟨hinv, Moves.nil, fun k hk => by cases hk⟩
  | some i =>
    obtain ⟨l, hl, hpos⟩ := schedulerNext_spec hnext
    have hl' : (schedulerNext e.scheduler).1.layers[i]? = some l := by
      rw [hfst]
      exact hl
    obtain ⟨s', n, hdeq, hsound, hi⟩ := hinv.dequeue hl' hpos
    simp only [hdeq]
    have hinv' : Engine.Inv { e with scheduler := s' } [n] := hsound
    apply examine_spec hinv' hi hsound.bound hfresh
    intro m hget hexp
    apply hx m _ hexp
    rw [examined, hnext, Option.bind_some, hdeq]
    exact hget

def ExpiryMeets (X : ℕ → ℕ → ℕ → Prop) (now : ℕ) : Engine → List Round → Prop
  | _, [] => True
  | e, r :: rounds =>
    (∀ m, examined e = some m → m.isExpired now = true → X m.createdNs m.ttlNs r.clock) ∧
      ExpiryMeets X now (tickRound e now r).1 rounds

theorem ExpiryMeets.of_always (hX : ∀ a b c, X a b c) {rounds : List Round} : ExpiryMeets X now e rounds := by
  induction rounds generalizing e with
  | nil => trivial
  | cons r rounds ih => exact ⟨fun m _ _ => hX _ _ _, ih⟩

def nestedCalls (rounds : List Round) : List IngestCall := rounds.flatMap Round.nested

theorem tickLoop_spec {rounds : List Round} (h : e.Inv []) (hfresh : FreshCalls e (nestedCalls rounds))
    (hx : ExpiryMeets X now e rounds) :
    (tickLoop now e rounds).1.Inv [] ∧
      Moves X e.ledger (tickLoop now e rounds).2.2 (tickLoop now e rounds).1.ledger ∧
      ∀ k ∈ ingestedKeys (tickLoop now e rounds).2.2, k ∈ (nestedCalls rounds).map IngestCall.key := by
  induction rounds generalizing e with
  | nil => exact ⟨h, Moves.nil, fun k hk => by cases hk⟩
  | cons r rounds ih =>
    have hnested : nestedCalls (r :: rounds) = r.nested ++ nestedCalls rounds := rfl
    rw [hnested] at hfresh ⊢
    have hnd := hfresh.1
    rw [map_append, nodup_append] at hnd
    have hfirst : FreshCalls e r.nested :=
      ⟨hnd.1, fun c hc => hfresh.2 c (mem_append_left _ hc)⟩
    have hlater : FreshCalls e (nestedCalls rounds) :=
      ⟨hnd.2.1, fun c hc => hfresh.2 c (mem_append_right _ hc)⟩
    obtain ⟨hinv, hmoves, hkeys⟩ := tickRound_spec h hfirst hx.1
    have hkeys' : ∀ k ∈ ingestedKeys (tickRound e now r).2.2.2,
        k ∈ (r.nested ++ nestedCalls rounds).map IngestCall.key := by
      intro k hk
      rw [map_append]
      exact mem_append_left _ (hkeys k hk)
    rw [tickLoop]
    cases hmore : (tickRound e now r).2.1 with
    | false => exact ⟨hinv, hmoves, hkeys'⟩
    | true =>
      have hlater' : FreshCalls (tickRound e now r).1 (nestedCalls rounds) := by
        apply hlater.of_moves hmoves
        intro c hc hmem
        exact hnd.2.2 c.key (hkeys c.key hmem) c.key (mem_map_of_mem hc) rfl
      obtain ⟨hinv', hmoves', hkeys''⟩ := ih hinv hlater' hx.2
      simp only [if_true]
      refine ⟨hinv', hmoves.trans hmoves', ?_⟩
      intro k hk
      rw [ingestedKeys_append, mem_append] at hk
      rcases hk with hk | hk
      · exact hkeys' k hk
      · rw [map_append]
        exact mem_append_right _ (hkeys'' k hk)

theorem tick_spec {rounds : List Round} (h : e.Inv []) (hfresh : FreshCalls e (nestedCalls rounds))
    (hx : ExpiryMeets X now e rounds) :
    (tick e now rounds).1.Inv [] ∧ Moves X e.ledger (tick e now rounds).2.2 (tick e now rounds).1.ledger ∧
      ∀ k ∈ ingestedKeys (tick e now rounds).2.2, k ∈ (nestedCalls rounds).map IngestCall.key :=
  tickLoop_spec h hfresh hx

end Tick

end Rafstore
