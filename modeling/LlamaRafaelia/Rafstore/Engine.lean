import LlamaRafaelia.Rafstore.Scheduler
import LlamaRafaelia.Rafstore.Store

/-!
# The event engine of the HD cache

`raf_hd_cache_ingest` stores an event's payload, records its metadata, caches it and queues it, dropping the oldest
event of the largest queue when too many are queued.  `raf_hd_cache_tick` hands queued events to a callback; one that
fails is put back until its retries are used up, and one that waited too long expires.  The clock, the random numbers,
the disk and the callback are arguments; a callback may ingest (`Round.nested`).  The **notes** that the functions
return serve to state results about runs.
-/

namespace Rafstore

open Linked

/-- `RAF_HD_DROP_QUEUE_SIZE`. -/
def dropQueueSize : ℕ := 10000

/-- `RAF_HD_MAX_RETRIES`. -/
def maxRetries : ℕ := 3

/-- `RAF_HD_DEFAULT_TTL_NS`. -/
def defaultTtlNs : ℕ := 30 * 1000000000

/-- `raf_hd_cache_t`. -/
structure Engine where
  store : Store
  cache : TierCache
  scheduler : Scheduler
  metaStore : MetaStore
  totalEvents : ℕ
  droppedEvents : ℕ

/-- `raf_hd_cache_create` on a store file. -/
def engineCreate (file : List UInt8) : Engine where
  store := storeInit file
  cache := cacheInit
  scheduler := schedulerInit
  metaStore := metaInit
  totalEvents := 0
  droppedEvents := 0

/-- `raf_hd_cache_add_layer`. -/
def addLayer (e : Engine) (layer : List UInt8) (frequency : ℕ) : Engine :=
  { e with scheduler := schedulerAddLayer e.scheduler layer frequency }

/-- What an operation did to an event. -/
inductive Note where
  /-- accepted and queued -/
  | ingested (key : EventKey)
  /-- dropped because too many events were queued -/
  | overflow (key : EventKey)
  /-- found expired when the clock read `clock` -/
  | expired (key : EventKey) (clock : ℕ)
  /-- handed to the callback, with its result -/
  | called (key : EventKey) (result : ℤ)
  /-- dropped because no retry was left -/
  | exhausted (key : EventKey)
  deriving DecidableEq, Repr

def Engine.setMeta (e : Engine) (key : EventKey) (f : EventMeta → EventMeta) : Engine :=
  { e with metaStore := e.metaStore.modify key f }

/-- `meta->status = status`. -/
def Engine.setStatus (e : Engine) (key : EventKey) (status : Status) : Engine :=
  e.setMeta key fun m => { m with status := status }

/-! ### Ingest -/

/-- The hexadecimal digits of a number, as `%x` prints them. -/
def hexDigits (x : ℕ) : List UInt8 := (Nat.toDigits 16 x).map fun c => UInt8.ofNat c.toNat

/-- `snprintf(eid, "%llx-%08x", now, rand())`. -/
def eventId (now rand : ℕ) : List UInt8 :=
  hexDigits now ++ [45] ++ List.replicate (8 - (hexDigits rand).length) 48 ++ hexDigits rand

/-- A call of `raf_hd_cache_ingest` with what it reads from outside. -/
structure IngestCall where
  layer : List UInt8
  payload : List UInt8
  ttlNs : ℕ
  now : ℕ
  rand : ℕ
  cut : Cut
  deriving DecidableEq, Repr

def IngestCall.key (call : IngestCall) : EventKey :=
  { layer := call.layer.take 31, eid := eventId call.now call.rand }

def IngestCall.newMeta (call : IngestCall) (offset : ℕ) : EventMeta where
  key := call.key
  createdNs := call.now
  ttlNs := if 0 < call.ttlNs then call.ttlNs else defaultTtlNs
  retriesLeft := maxRetries
  payloadLen := call.payload.length
  payloadHash := sha256 call.payload
  diskOff := offset
  diskLen := alignedSize call.payload
  status := .new

/-- The overflow check at the end of `raf_hd_cache_ingest`. -/
def dropOldest (e : Engine) : Engine × List Note :=
  if dropQueueSize < e.scheduler.totalQueued then
    match e.scheduler.largest with
    | none => (e, [])
    | some maxIdx =>
      match e.scheduler.dequeue maxIdx with
      | none => (e, [])
      | some (s, n) =>
        let key := (s.entry n).key
        let e' := { e with scheduler := s, droppedEvents := e.droppedEvents + 1 }
        (e'.setStatus key .dropped, [.overflow key])
  else (e, [])

/-- What `raf_hd_cache_ingest` does once the payload is stored. -/
def accept (e : Engine) (call : IngestCall) (layerIdx offset : ℕ) : Engine :=
  let s := e.scheduler.newEntry call.key
  { e with
    metaStore := metaPut e.metaStore (call.newMeta offset)
    cache := (putHot e.cache call.key call.payload).1
    scheduler := s.enqueue layerIdx e.scheduler.fresh
    totalEvents := e.totalEvents + 1 }

/-- `raf_hd_cache_ingest`: the engine and whether the event was accepted. -/
def ingest (e : Engine) (call : IngestCall) : Engine × Bool × List Note :=
  if call.payload.length = 0 then (e, false, [])
  else
    match e.scheduler.layers.findIdx? fun l => l.name == call.layer with
    | none => (e, false, [])
    | some layerIdx =>
      match storeAppend e.store call.payload call.cut with
      | (store, none) => ({ e with store := store }, false, [])
      | (store, some offset) =>
        let r := dropOldest (accept { e with store := store } call layerIdx offset)
        (r.1, true, .ingested call.key :: r.2)

/-- Calls of `raf_hd_cache_ingest` one after the other. -/
def ingestAll : Engine → List IngestCall → Engine × List Note
  | e, [] => (e, [])
  | e, call :: calls =>
    let r := ingest e call
    let rest := ingestAll r.1 calls
    (rest.1, r.2.2 ++ rest.2)

/-! ### Tick -/

/-- What one turn of the loop of `raf_hd_cache_tick` meets: the clock when the event is examined, what
`raf_hd_store_read` returns if it is called, and the calls of `raf_hd_cache_ingest` and the result of the callback. -/
structure Round where
  clock : ℕ
  disk : Option (List UInt8)
  nested : List IngestCall
  result : ℤ
  deriving DecidableEq, Repr

/-- The unsigned difference `now - created_ns`. -/
def elapsed (now created : ℕ) : ℕ := (now + 2 ^ 64 - created) % 2 ^ 64

/-- The expiry test of `raf_hd_cache_tick`. -/
def EventMeta.isExpired (m : EventMeta) (now : ℕ) : Bool :=
  m.status != .dropped && m.status != .done && decide (m.ttlNs < elapsed now m.createdNs)

/-- A failed event: back into its queue by `put`, or dropped. -/
def retryOrDrop (e : Engine) (key : EventKey) (m : EventMeta) (put : Scheduler → Scheduler) : Engine × List Note :=
  if 0 < m.retriesLeft then
    let e' := e.setMeta key fun m => { m with retriesLeft := m.retriesLeft - 1, status := .retrying }
    ({ e' with scheduler := put e.scheduler }, [])
  else (e.setStatus key .dropped, [.exhausted key])

def process (e : Engine) (i n : ℕ) (key : EventKey) (m : EventMeta) (r : Round) : Engine × List Note :=
  let inner := ingestAll e r.nested
  -- `meta` still points to the event's entry
  let m' := (metaGet inner.1.metaStore key).getD m
  let after :=
    if r.result = 0 then (inner.1.setStatus key .done, [])
    else retryOrDrop inner.1 key m' fun s => s.requeue i n
  (after.1, inner.2 ++ .called key r.result :: after.2)

/-- An event that was taken out of the queue `i` as the entry `n`: the engine, whether it counts as processed, and
the notes. -/
def examine (e : Engine) (now i n : ℕ) (r : Round) : Engine × Bool × List Note :=
  let key := (e.scheduler.entry n).key
  match metaGet e.metaStore key with
  | none => (e, false, [])
  | some m =>
    if m.isExpired now then (e.setStatus key .expired, true, [.expired key r.clock])
    else if m.status = .done ∨ m.status = .dropped ∨ m.status = .expired then (e, false, [])
    else
      match (cacheGet e.cache key).or r.disk with
      | none =>
        let after := retryOrDrop e key m fun s => s.enqueue i n
        (after.1, true, after.2)
      | some _ =>
        let after := process e i n key m r
        (after.1, true, after.2)

/-- One turn of the loop of `raf_hd_cache_tick`: the engine, whether the loop goes on, whether an event was
processed, and the notes. -/
def tickRound (e : Engine) (now : ℕ) (r : Round) : Engine × Bool × Bool × List Note :=
  let next := schedulerNext e.scheduler
  let e₁ := { e with scheduler := next.1 }
  match next.2 with
  | none => (e₁, false, false, [])
  | some i =>
    match next.1.dequeue i with
    | none => (e₁, true, false, [])
    | some (s, n) =>
      let after := examine { e with scheduler := s } now i n r
      (after.1, true, after.2.1, after.2.2)

/-- The loop of `raf_hd_cache_tick`, one round for each of `max_events`. -/
def tickLoop (now : ℕ) : Engine → List Round → Engine × ℕ × List Note
  | e, [] => (e, 0, [])
  | e, r :: rounds =>
    let turn := tickRound e now r
    if turn.2.1 then
      let rest := tickLoop now turn.1 rounds
      (rest.1, (if turn.2.2.1 then 1 else 0) + rest.2.1, turn.2.2.2 ++ rest.2.2)
    else (turn.1, 0, turn.2.2.2)

/-- `raf_hd_cache_tick` whose own clock reading is `now`: the engine, the number of processed events, and the notes. -/
def tick (e : Engine) (now : ℕ) (rounds : List Round) : Engine × ℕ × List Note :=
  let r := tickLoop now e rounds
  ({ r.1 with cache := demoteCycle r.1.cache }, r.2)

end Rafstore
