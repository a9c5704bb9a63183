import LlamaRafaelia.Lib.Fifo
import LlamaRafaelia.Rafstore.Tiers

/-!
# The scheduler's queues and the metadata store

One linked queue of event keys for each layer.  All queues share an address space of entries (`Scheduler.entry`), and
an entry keeps its address when it is taken out and put back.  The metadata store is a hash table with chained
buckets.

* `metaPut`, `metaGet`, `MetaStore.modify` - the table, which behaves like a finite map (`metaGet_put`,
  `metaGet_modify`).
-/

namespace Rafstore

open List Linked Function

/-! ### The queues -/

/-- `raf_hd_queue_entry_t`. -/
structure QueueEntry where
  key : EventKey
  next : Option ℕ
  deriving DecidableEq, Repr

/-- `raf_hd_layer_t`; the queue is the record `raf_hd_event_queue_t` of its ends and its length. -/
structure Layer where
  name : List UInt8
  frequency : ℕ
  queue : Fifo ℕ

/-- `raf_hd_scheduler_t`, with the address space of the queue entries; `fresh` is the next address that `malloc`
returns. -/
structure Scheduler where
  tick : ℕ
  layers : List Layer
  entry : ℕ → QueueEntry
  fresh : ℕ

/-- `raf_hd_scheduler_init`. -/
def schedulerInit : Scheduler where
  tick := 0
  layers := []
  entry := fun _ => { key := { layer := [], eid := [] }, next := none }
  fresh := 0

/-- `raf_hd_scheduler_add_layer`; a name is cut to 31 characters. -/
def schedulerAddLayer (s : Scheduler) (name : List UInt8) (frequency : ℕ) : Scheduler :=
  { s with layers := s.layers ++ [{ name := name.take 31, frequency := frequency, queue := Fifo.empty }] }

/-- `scheduler_weight`. -/
def schedulerWeight (freq : ℕ) : ℕ :=
  if 100000 ≤ freq then 64
  else if 1000 ≤ freq then 16
  else if 500 ≤ freq then 8
  else if 100 ≤ freq then 4
  else 2

/-- The first loop of `raf_hd_scheduler_next` that looks for a layer, from the layer `i` on. -/
def pickWeighted (target : ℕ) : ℕ → ℕ → List Layer → Option ℕ
  | _, _, [] => none
  | i, cumulative, l :: layers =>
    if target < cumulative + schedulerWeight l.frequency ∧ 0 < l.queue.count then some i
    else pickWeighted target (i + 1) (cumulative + schedulerWeight l.frequency) layers

/-- `raf_hd_scheduler_next`, for at most 64 layers: the scheduler with its tick moved on, and the layer. -/
def schedulerNext (s : Scheduler) : Scheduler × Option ℕ :=
  if s.layers.length = 0 then (s, none)
  else
    let tick := (s.tick + 1) % 2 ^ 64
    let totalWeight := (s.layers.map fun l => schedulerWeight l.frequency).sum
    let target := tick % totalWeight
    match pickWeighted target 0 0 s.layers with
    | some i => ({ s with tick := tick }, some i)
    | none => ({ s with tick := tick }, s.layers.findIdx? fun l => decide (0 < l.queue.count))

namespace Scheduler

def modifyQueue (s : Scheduler) (i : ℕ) (f : Fifo ℕ → Fifo ℕ) : Scheduler :=
  { s with layers := s.layers.modify i fun l => { l with queue := f l.queue } }

def setNext (entry : ℕ → QueueEntry) (n : ℕ) (next : Option ℕ) : ℕ → QueueEntry :=
  update entry n { entry n with next := next }

/-- `if (tail) tail->next = n`. -/
def linkEntry (entry : ℕ → QueueEntry) (tail : Option ℕ) (n : ℕ) : ℕ → QueueEntry :=
  match tail with
  | none => entry
  | some t => setNext entry t (some n)

def tailOf (s : Scheduler) (i : ℕ) : Option ℕ := s.layers[i]?.bind fun l => l.queue.tail

/-- Append the entry `n`, its pointer cleared first: the order of `raf_hd_cache_ingest` and of the retry after a
failed read. -/
def enqueue (s : Scheduler) (i n : ℕ) : Scheduler :=
  { s with entry := linkEntry (setNext s.entry n none) (s.tailOf i) n }.modifyQueue i fun q => q.push n

/-- Append the entry `n`, its pointer cleared last: the order of the retry after a failed callback. -/
def requeue (s : Scheduler) (i n : ℕ) : Scheduler :=
  { s with entry := setNext (linkEntry s.entry (s.tailOf i) n) n none }.modifyQueue i fun q => q.push n

def dequeue (s : Scheduler) (i : ℕ) : Option (Scheduler × ℕ) :=
  (s.layers[i]?.bind fun l => l.queue.head).map fun n =>
    (s.modifyQueue i fun q => q.pop (s.entry n).next, n)

/-- `malloc` of a queue entry for a key. -/
def newEntry (s : Scheduler) (key : EventKey) : Scheduler :=
  { s with entry := update s.entry s.fresh { key := key, next := none }, fresh := s.fresh + 1 }

def totalQueued (s : Scheduler) : ℕ := (s.layers.map fun l => l.queue.count).sum

/-- The first layer with a longest queue, from the layer `i` on; `best` is the longest so far. -/
def largestFrom : ℕ → ℕ → Option ℕ → List Layer → Option ℕ
  | _, _, best, [] => best
  | i, maxCount, best, l :: layers =>
    if maxCount < l.queue.count then largestFrom (i + 1) l.queue.count (some i) layers
    else largestFrom (i + 1) maxCount best layers

/-- The search for the largest queue in `raf_hd_cache_ingest`. -/
def largest (s : Scheduler) : Option ℕ := largestFrom 0 0 none s.layers

/-! ### What the queues consist of -/

/-- The queues consist of the entries `nodes`, layer by layer. -/
structure Queues (s : Scheduler) (nodes : List (List ℕ)) : Prop where
  fifos : Fifos (fun n => (s.entry n).next) (s.layers.map fun l => l.queue) nodes
  bound : ∀ n ∈ nodes.flatten, n < s.fresh

section Pointers

variable {s : Scheduler} {nodes : List (List ℕ)} {i n : ℕ}

theorem setNext_key (entry : ℕ → QueueEntry) (n m : ℕ) (next : Option ℕ) :
    (setNext entry n next m).key = (entry m).key := by
  by_cases hm : m = n
  · subst hm
    simp [setNext]
  · simp [setNext, hm]

theorem setNext_next (entry : ℕ → QueueEntry) (n : ℕ) (next : Option ℕ) :
    (fun m => (setNext entry n next m).next) = update (fun m => (entry m).next) n next := by
  funext m
  by_cases hm : m = n
  · subst hm
    simp [setNext]
  · simp [setNext, hm]

theorem linkEntry_key (entry : ℕ → QueueEntry) (tail : Option ℕ) (n m : ℕ) :
    (linkEntry entry tail n m).key = (entry m).key := by
  cases tail with
  | none => rfl
  | some t => exact setNext_key entry t m (some n)

theorem linkEntry_next (entry : ℕ → QueueEntry) (tail : Option ℕ) (n : ℕ) :
    (fun m => (linkEntry entry tail n m).next) = linkTail (fun m => (entry m).next) tail n := by
  cases tail with
  | none => rfl
  | some t => exact setNext_next entry t (some n)

theorem requeue_eq_enqueue (h : s.tailOf i ≠ some n) : s.requeue i n = s.enqueue i n := by
  have hentry : setNext (linkEntry s.entry (s.tailOf i) n) n none
      = linkEntry (setNext s.entry n none) (s.tailOf i) n := by
    cases htail : s.tailOf i with
    | none => rfl
    | some t =>
      have hne : t ≠ n := by
        rintro rfl
        exact h htail
      funext m
      by_cases hm : m = n
      · subst hm
        simp [linkEntry, setNext, hne.symm]
      · by_cases ht : m = t
        · subst ht
          simp [linkEntry, setNext, hm]
        · simp [linkEntry, setNext, hm, ht]
  rw [requeue, enqueue, hentry]

theorem modifyQueue_queues (s : Scheduler) (i : ℕ) (f : Fifo ℕ → Fifo ℕ) :
    (s.modifyQueue i f).layers.map (fun l => l.queue) = (s.layers.map fun l => l.queue).modify i f := by
  show (s.layers.modify i fun l => { l with queue := f l.queue }).map (fun l => l.queue) = _
  induction s.layers generalizing i with
  | nil => cases i <;> rfl
  | cons l layers ih =>
    cases i with
    | zero => rfl
    | succ i =>
      rw [modify_succ_cons, map_cons, map_cons, modify_succ_cons, ih]

theorem Queues.totalQueued_eq (h : s.Queues nodes) : s.totalQueued = nodes.flatten.length := by
  rw [totalQueued, ← h.fifos.sum_count, map_map]
  rfl

theorem Queues.dequeue {l : Layer} (h : s.Queues nodes) (hl : s.layers[i]? = some l) (hpos : 0 < l.queue.count) :
    ∃ s' n nodes', s.dequeue i = some (s', n) ∧ s'.Queues nodes' ∧ nodes.flatten.Perm (n :: nodes'.flatten) ∧
      s'.entry = s.entry ∧ s'.fresh = s.fresh ∧ (∃ l', s'.layers[i]? = some l') := by
  have hq : (s.layers.map fun l => l.queue)[i]? = some l.queue := by
    rw [getElem?_map, hl]
    rfl
  obtain ⟨n, hhead, hfifos, hperm⟩ := h.fifos.pop hq hpos
  refine ⟨s.modifyQueue i fun q => q.pop (s.entry n).next, n, _, ?_, ⟨?_, ?_⟩, hperm, rfl, rfl, ?_⟩
  · simp [Scheduler.dequeue, hl, hhead]
  · rw [modifyQueue_queues]
    exact hfifos
  · intro m hm
    exact h.bound m (hperm.mem_iff.2 (mem_cons_of_mem n hm))
  · rw [modifyQueue, getElem?_modify, hl]
    exact ⟨_, rfl⟩

theorem Queues.enqueue {l : Layer} (h : s.Queues nodes) (hl : s.layers[i]? = some l) (hn : n ∉ nodes.flatten)
    (hfresh : n < s.fresh) :
    ∃ nodes', (s.enqueue i n).Queues nodes' ∧ nodes'.flatten.Perm (n :: nodes.flatten) := by
  have hq : (s.layers.map fun l => l.queue)[i]? = some l.queue := by
    rw [getElem?_map, hl]
    rfl
  have htail : s.tailOf i = l.queue.tail := by
    rw [tailOf, hl]
    rfl
  obtain ⟨ids, hids, hhold⟩ := h.fifos.get hq
  have hne : l.queue.tail ≠ some n := by
    rw [hhold.tail]
    intro hlast
    exact hn (Fifos.mem_flatten hids (mem_of_getLast? hlast))
  obtain ⟨hfifos, hperm⟩ := h.fifos.push hq hn
  refine ⟨_, ⟨?_, ?_⟩, hperm⟩
  · have hnext : (fun m => ((s.enqueue i n).entry m).next)
        = update (linkTail (fun m => (s.entry m).next) l.queue.tail n) n none := by
      have hrequeue : (fun m => ((s.requeue i n).entry m).next)
          = update (linkTail (fun m => (s.entry m).next) l.queue.tail n) n none := by
        show (fun m => (setNext (linkEntry s.entry (s.tailOf i) n) n none m).next) = _
        rw [setNext_next, linkEntry_next, htail]
      rw [← hrequeue, requeue_eq_enqueue (htail ▸ hne)]
    have hqueues : (s.enqueue i n).layers.map (fun l => l.queue)
        = (s.layers.map fun l => l.queue).modify i fun q => q.push n := modifyQueue_queues _ i _
    rw [hnext, hqueues]
    exact hfifos
  · intro m hm
    rcases mem_cons.1 (hperm.mem_iff.1 hm) with rfl | hm
    · exact hfresh
    · exact h.bound m hm

theorem enqueue_key (s : Scheduler) (i n m : ℕ) : ((s.enqueue i n).entry m).key = (s.entry m).key := by
  show (linkEntry (setNext s.entry n none) (s.tailOf i) n m).key = _
  rw [linkEntry_key, setNext_key]

theorem Queues.newEntry (h : s.Queues nodes) (key : EventKey) : (s.newEntry key).Queues nodes := by
  refine ⟨?_, ?_⟩
  · refine ⟨?_, h.fifos.nodup⟩
    have heach := forall₂_iff_get.1 h.fifos.each
    rw [forall₂_iff_get]
    refine ⟨heach.1, ?_⟩
    intro j hj hj'
    apply (heach.2 j hj hj').congr
    intro m hm
    have hmem : m ∈ nodes.flatten := (List.mem_flatten).2 ⟨_, get_mem nodes ⟨j, hj'⟩, hm⟩
    have hne : m ≠ s.fresh := Nat.ne_of_lt (h.bound m hmem)
    show (update s.entry s.fresh _ m).next = _
    rw [update_of_ne hne]
  · intro m hm
    exact Nat.lt_succ_of_lt (h.bound m hm)

end Pointers

/-! ### Choosing a layer -/

section Choosing

variable {s : Scheduler} {i j : ℕ} {layers : List Layer}

theorem pickWeighted_spec {target cumulative : ℕ} (h : pickWeighted target i cumulative layers = some j) :
    ∃ l, i ≤ j ∧ layers[j - i]? = some l ∧ 0 < l.queue.count := by
  induction layers generalizing i cumulative with
  | nil => cases h
  | cons l layers ih =>
    rw [pickWeighted] at h
    split at h
    · rename_i hpick
      obtain rfl : i = j := Option.some.inj h
      exact ⟨l, Nat.le_refl i, by simp, hpick.2⟩
    · obtain ⟨l', hle, hget, hpos⟩ := ih h
      have hidx : j - i = j - (i + 1) + 1 := by omega
      exact ⟨l', by omega, by rw [hidx, getElem?_cons_succ]; exact hget, hpos⟩

theorem schedulerNext_fst (s : Scheduler) : ∃ tick, (schedulerNext s).1 = { s with tick := tick } := by
  rw [schedulerNext]
  split
  · exact ⟨s.tick, rfl⟩
  · simp only
    split
    · exact ⟨_, rfl⟩
    · exact ⟨_, rfl⟩

theorem schedulerNext_spec (h : (schedulerNext s).2 = some i) :
    ∃ l, s.layers[i]? = some l ∧ 0 < l.queue.count := by
  rw [schedulerNext] at h
  split at h
  · cases h
  · simp only at h
    split at h
    · rename_i j hpick
      obtain rfl : j = i := Option.some.inj h
      obtain ⟨l, -, hget, hpos⟩ := pickWeighted_spec hpick
      exact ⟨l, hget, hpos⟩
    · obtain ⟨hi, hpos, -⟩ := findIdx?_eq_some_iff_getElem.1 h
      exact ⟨s.layers[i], getElem?_eq_getElem hi, of_decide_eq_true hpos⟩

theorem largestFrom_spec {maxCount : ℕ} {best : Option ℕ} (h : largestFrom i maxCount best layers = some j) :
    best = some j ∨ ∃ l, i ≤ j ∧ layers[j - i]? = some l ∧ 0 < l.queue.count := by
  induction layers generalizing i maxCount best with
  | nil => exact Or.inl h
  | cons l layers ih =>
    have hshift : (∃ l', i + 1 ≤ j ∧ layers[j - (i + 1)]? = some l' ∧ 0 < l'.queue.count) →
        ∃ l', i ≤ j ∧ (l :: layers)[j - i]? = some l' ∧ 0 < l'.queue.count := by
      rintro ⟨l', hle, hget, hpos⟩
      have hidx : j - i = j - (i + 1) + 1 := by omega
      exact ⟨l', by omega, by rw [hidx, getElem?_cons_succ]; exact hget, hpos⟩
    rw [largestFrom] at h
    split at h
    · rename_i hlt
      rcases ih h with hbest | hlater
      · obtain rfl : i = j := Option.some.inj hbest
        exact Or.inr ⟨l, Nat.le_refl i, by simp, by omega⟩
      · exact Or.inr (hshift hlater)
    · rcases ih h with hbest | hlater
      · exact Or.inl hbest
      · exact Or.inr (hshift hlater)

theorem largestFrom_isSome {maxCount : ℕ} {best : Option ℕ} (h : best.isSome) :
    (largestFrom i maxCount best layers).isSome := by
  induction layers generalizing i maxCount best with
  | nil => exact h
  | cons l layers ih =>
    rw [largestFrom]
    split
    · exact ih rfl
    · exact ih h

theorem largestFrom_none (h : largestFrom i 0 none layers = none) :
    (layers.map fun l => l.queue.count).sum = 0 := by
  induction layers generalizing i with
  | nil => rfl
  | cons l layers ih =>
    rw [largestFrom] at h
    split at h
    · have hsome : (largestFrom (i + 1) l.queue.count (some i) layers).isSome := largestFrom_isSome rfl
      rw [h] at hsome
      cases hsome
    · rw [map_cons, sum_cons, ih h]
      omega

theorem largest_spec (h : 0 < s.totalQueued) :
    ∃ i l, s.largest = some i ∧ s.layers[i]? = some l ∧ 0 < l.queue.count := by
  cases hl : s.largest with
  | none =>
    have hzero : s.totalQueued = 0 := largestFrom_none hl
    omega
  | some i =>
    rcases largestFrom_spec hl with hbest | ⟨l, -, hget, hpos⟩
    · cases hbest
    · exact ⟨i, l, rfl, hget, hpos⟩

end Choosing

end Scheduler

/-! ### The metadata store -/

/-- `raf_hd_status_t`. -/
inductive Status where
  | new
  | hot
  | cold
  | expired
  | dropped
  | done
  | retrying
  deriving DecidableEq, Repr

/-- `raf_hd_event_meta_t`. -/
structure EventMeta where
  key : EventKey
  createdNs : ℕ
  ttlNs : ℕ
  retriesLeft : ℕ
  payloadLen : ℕ
  payloadHash : List UInt8
  diskOff : ℕ
  diskLen : ℕ
  status : Status
  deriving DecidableEq, Repr

/-- A `char` cast to `uint32_t`, where `char` is signed. -/
def charValue (c : UInt8) : ℕ := if c.toNat < 128 then c.toNat else 2 ^ 32 - 256 + c.toNat

/-- One of the two loops of `raf_hd_key_hash`. -/
def hashChars (hash : ℕ) (chars : List UInt8) : ℕ :=
  chars.foldl (fun h c => (h * 32 + h + charValue c) % 2 ^ 32) hash

/-- `raf_hd_key_hash`. -/
def keyHash (key : EventKey) : ℕ := hashChars (hashChars 5381 key.layer) key.eid

/-- `raf_hd_meta_store_t`. -/
structure MetaStore where
  buckets : ℕ → List EventMeta
  count : ℕ

/-- `raf_hd_meta_init`. -/
def metaInit : MetaStore := { buckets := fun _ => [], count := 0 }

/-- The bucket of a key, among `RAF_HD_META_BUCKETS`. -/
def bucketOf (key : EventKey) : ℕ := keyHash key % 1024

/-- `f` applied to the first entry with the key. -/
def updateFirst (key : EventKey) (f : EventMeta → EventMeta) : List EventMeta → List EventMeta
  | [] => []
  | m :: l => if m.key = key then f m :: l else m :: updateFirst key f l

/-- `raf_hd_meta_put`. -/
def metaPut (store : MetaStore) (event : EventMeta) : MetaStore :=
  let bucket := bucketOf event.key
  if (store.buckets bucket).any fun m => m.key == event.key then
    { store with
      buckets := update store.buckets bucket (updateFirst event.key (fun _ => event) (store.buckets bucket)) }
  else
    { buckets := update store.buckets bucket (event :: store.buckets bucket), count := store.count + 1 }

/-- `raf_hd_meta_get`. -/
def metaGet (store : MetaStore) (key : EventKey) : Option EventMeta :=
  (store.buckets (bucketOf key)).find? fun m => m.key == key

/-- An assignment through the pointer that `raf_hd_meta_get` returned. -/
def MetaStore.modify (store : MetaStore) (key : EventKey) (f : EventMeta → EventMeta) : MetaStore :=
  { store with
    buckets := update store.buckets (bucketOf key) (updateFirst key f (store.buckets (bucketOf key))) }

section Table

variable {store : MetaStore} {key k : EventKey} {f : EventMeta → EventMeta} {event : EventMeta}

theorem find_updateFirst (hf : ∀ m, m.key = key → (f m).key = key) (l : List EventMeta) :
    (updateFirst key f l).find? (fun m => m.key == k)
      = if k = key then (l.find? fun m => m.key == key).map f else l.find? fun m => m.key == k := by
  induction l with
  | nil => simp [updateFirst]
  | cons m l ih =>
    rw [updateFirst]
    by_cases hm : m.key = key
    · rw [if_pos hm]
      have hfm : (f m).key = key := hf m hm
      by_cases hk : k = key
      · simp [hk, hm, hfm]
      · simp [hk, hm, hfm, Ne.symm hk]
    · rw [if_neg hm]
      by_cases hk : k = key
      · rw [if_pos hk] at ih ⊢
        subst hk
        simp [hm, ih]
      · rw [if_neg hk] at ih ⊢
        by_cases hmk : m.key = k
        · simp [hmk]
        · simp [hmk, ih]

theorem metaGet_modify (hf : ∀ m, m.key = key → (f m).key = key) (k : EventKey) :
    metaGet (store.modify key f) k = if k = key then (metaGet store key).map f else metaGet store k := by
  rw [metaGet, MetaStore.modify]
  by_cases hb : bucketOf k = bucketOf key
  · simp only [hb, update_self]
    rw [find_updateFirst hf, metaGet, metaGet, hb]
  · have hk : k ≠ key := by
      rintro rfl
      exact hb rfl
    simp only [update_of_ne hb, if_neg hk]
    rfl

theorem metaGet_put (k : EventKey) :
    metaGet (metaPut store event) k = if k = event.key then some event else metaGet store k := by
  rw [metaPut]
  split
  · rename_i hany
    have hmod : metaGet (store.modify event.key fun _ => event) k = _ := metaGet_modify (fun _ _ => rfl) k
    rw [MetaStore.modify] at hmod
    rw [hmod]
    by_cases hk : k = event.key
    · rw [if_pos hk, if_pos hk]
      cases hget : metaGet store event.key with
      | some m => rfl
      | none =>
        obtain ⟨m, hm, hkey⟩ := any_eq_true.1 hany
        exact absurd hkey (find?_eq_none.1 hget m hm)
    · rw [if_neg hk, if_neg hk]
  · rw [metaGet]
    by_cases hk : k = event.key
    · subst hk
      simp
    · rw [if_neg hk]
      by_cases hb : bucketOf k = bucketOf event.key
      · simp only [hb, update_self]
        rw [find?_cons_of_neg (by simpa using Ne.symm hk), metaGet, hb]
      · simp only [update_of_ne hb]
        rfl

end Table

end Rafstore
