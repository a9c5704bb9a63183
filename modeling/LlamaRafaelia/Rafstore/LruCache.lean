import LlamaRafaelia.Lib.Linked
import LlamaRafaelia.Lib.Lru
import Mathlib.Data.List.Perm.Subperm
import Mathlib.Data.List.Induction
import Mathlib.Data.Int.Notation
import Mathlib.Algebra.GroupWithZero.Nat

/-!
# The LRU cache of RAFSTORE

`raf_lru_cache` keeps its entries in a doubly linked list, the most recently used one first.  The entries live in an
address space of their own; what an entry holds (`LruEntry`) and its pointers (`links`) are kept apart.  Keys are C
strings, so `strcmp` is equality.

* `LruCache.Holds c s` - **the refinement relation**: following the pointers one reads what the policy `Lru` shows
  of the state `s` in a cache of this capacity, with the times modulo `2 ^ 64`;
* **`cache_run`** - what holds after every sequence of operations.
-/

namespace Rafstore

open List Linked Lru Function

/-! ### The operations -/

/-- What a `raf_cache_entry` holds beside its pointers; `data_size` is the length of the data. -/
structure LruEntry where
  key : List UInt8
  data : List UInt8
  accessCount : ℕ
  lastAccess : ℕ

/-- `raf_lru_cache`, with the address space of its entries. -/
structure LruCache where
  entry : ℕ → LruEntry
  links : Links ℕ
  fresh : ℕ
  entries : Option ℕ
  capacity : ℕ
  count : ℕ
  accessCounter : ℕ

/-- `raf_cache_create`. -/
def rafCacheCreate (capacity : ℕ) : LruCache where
  entry := fun _ => { key := [], data := [], accessCount := 0, lastAccess := 0 }
  links := ⟨fun _ => none, fun _ => none⟩
  fresh := 0
  entries := none
  capacity := capacity
  count := 0
  accessCounter := 0

/-- `raf_cache_clear`: the entries are freed, the counter stays. -/
def rafCacheClear (c : LruCache) : LruCache := { c with entries := none, count := 0 }

/-- The entries that the loops `while (entry)` visit, from `cache->entries` on. -/
def LruCache.nodes (c : LruCache) : List ℕ := read c.links.next c.fresh c.entries

/-- `raf_cache_find`. -/
def rafCacheFind (c : LruCache) (key : List UInt8) : Option ℕ := c.nodes.find? fun i => (c.entry i).key == key

/-- `if (ptr) ptr->next = value`. -/
def storeNext (L : Links ℕ) (ptr value : Option ℕ) : Links ℕ :=
  match ptr with
  | none => L
  | some k => { L with next := update L.next k value }

/-- `if (ptr) ptr->prev = value`. -/
def storePrev (L : Links ℕ) (ptr value : Option ℕ) : Links ℕ :=
  match ptr with
  | none => L
  | some k => { L with prev := update L.prev k value }

/-- The last lines of `raf_cache_move_to_front` and the middle of `raf_cache_put`: the entry becomes the first. -/
def LruCache.linkFront (c : LruCache) (i : ℕ) : LruCache :=
  let links₁ : Links ℕ := { c.links with prev := update c.links.prev i none }
  let links₂ : Links ℕ := { links₁ with next := update links₁.next i c.entries }
  { c with links := storePrev links₂ c.entries (some i), entries := some i }

/-- The two lines of `raf_cache_move_to_front` that take the entry out of its place. -/
def detach (L : Links ℕ) (i : ℕ) : Links ℕ :=
  let links₁ := storeNext L (L.prev i) (L.next i)
  storePrev links₁ (links₁.next i) (links₁.prev i)

/-- `raf_cache_move_to_front`. -/
def rafCacheMoveToFront (c : LruCache) (i : ℕ) : LruCache :=
  if c.entries = some i then c else LruCache.linkFront { c with links := detach c.links i } i

/-- `raf_cache_evict_tail`. -/
def rafCacheEvictTail (c : LruCache) : LruCache :=
  match exit none c.nodes with
  | none => c
  | some tail =>
    match c.links.prev tail with
    | some k => { c with links := { c.links with next := update c.links.next k none }, count := c.count - 1 }
    | none => { c with entries := none, count := c.count - 1 }

/-- The entry is used: `access_count++; last_access = ++cache->access_counter`, and it moves to the front. -/
def LruCache.access (c : LruCache) (i : ℕ) : LruCache :=
  let counter := (c.accessCounter + 1) % 2 ^ 64
  rafCacheMoveToFront
    { c with
      entry := update c.entry i
        { c.entry i with accessCount := ((c.entry i).accessCount + 1) % 2 ^ 64, lastAccess := counter }
      accessCounter := counter } i

/-- The branch of `raf_cache_put` for a new key. -/
def LruCache.insert (c : LruCache) (key data : List UInt8) : LruCache :=
  let counter := (c.accessCounter + 1) % 2 ^ 64
  let c₁ : LruCache :=
    { c with
      entry := update c.entry c.fresh { key := key, data := data, accessCount := 1, lastAccess := counter }
      fresh := c.fresh + 1
      accessCounter := counter }
  let c₂ := c₁.linkFront c.fresh
  let c₃ : LruCache := { c₂ with count := c₂.count + 1 }
  if c₃.count > c₃.capacity then rafCacheEvictTail c₃ else c₃

/-- `raf_cache_put`, with its return value; a null pointer is refused like a size of zero. -/
def rafCachePut (c : LruCache) (key data : List UInt8) : ℤ × LruCache :=
  if data = [] then (-1, c)
  else if c.capacity = 0 then (-1, c)
  else
    match rafCacheFind c key with
    | some i => (0, LruCache.access { c with entry := update c.entry i { c.entry i with data := data } } i)
    | none => (0, c.insert key data)

/-- `raf_cache_get`: the data when it returns 0. -/
def rafCacheGet (c : LruCache) (key : List UInt8) : Option (List UInt8) × LruCache :=
  match rafCacheFind c key with
  | none => (none, c)
  | some i => (some (c.entry i).data, c.access i)

/-! ### The refinement relation -/

def LruEntry.item (e : LruEntry) : List UInt8 × List UInt8 × ℕ := (e.key, e.data, e.lastAccess)

def wrapTime (p : List UInt8 × List UInt8 × ℕ) : List UInt8 × List UInt8 × ℕ := (p.1, p.2.1, p.2.2 % 2 ^ 64)

namespace LruCache

/-- The entries `ids` are the list of the cache, linked both ways. -/
structure Lists (c : LruCache) (ids : List ℕ) : Prop where
  head : c.entries = Linked.entry ids none
  seg : Seg c.links none ids none
  nodup : ids.Nodup
  bound : ∀ i ∈ ids, i < c.fresh

/-- The list of the cache is what the policy shows. -/
structure Shows (c : LruCache) (s : State (List UInt8) (List UInt8)) (ids : List ℕ) : Prop extends c.Lists ids where
  count : c.count = ids.length
  items : ids.map (fun i => (c.entry i).item) = (s.visible c.capacity).map wrapTime
  clock : c.accessCounter = s.clock % 2 ^ 64

def Holds (c : LruCache) (s : State (List UInt8) (List UInt8)) : Prop := s.Ok ∧ ∃ ids, c.Shows s ids

theorem Lists.length_le {c : LruCache} {ids : List ℕ} (h : c.Lists ids) : ids.length ≤ c.fresh := by
  have hsub : ids ⊆ List.range c.fresh := fun i hi => List.mem_range.2 (h.bound i hi)
  simpa using (subperm_of_subset h.nodup hsub).length_le

theorem Lists.nodes_eq {c : LruCache} {ids : List ℕ} (h : c.Lists ids) : c.nodes = ids := by
  rw [nodes, h.head]
  exact h.seg.read_eq h.length_le

/-! ### The pointer updates -/

theorem linkFront_links (c : LruCache) (i : ℕ) : (c.linkFront i).links = pushFront c.links c.entries i := by
  unfold linkFront pushFront
  cases c.entries with
  | none => rfl
  | some k => rfl

theorem Lists.linkFront {c : LruCache} {ids : List ℕ} (h : c.Lists ids) {i : ℕ} (hi : i ∉ ids) (hfresh : i < c.fresh) :
    (c.linkFront i).Lists (i :: ids) where
  head := rfl
  seg := by
    rw [linkFront_links, h.head]
    exact h.seg.pushFront h.nodup hi
  nodup := nodup_cons.mpr ⟨hi, h.nodup⟩
  bound := forall_mem_cons.mpr ⟨hfresh, h.bound⟩

theorem detach_eq_unlink {L : Links ℕ} {xs ys : List ℕ} {k i : ℕ} (h : Seg L none (xs ++ k :: i :: ys) none)
    (hnd : (xs ++ k :: i :: ys).Nodup) : detach L i = unlink L k i := by
  have hprev : L.prev i = some k := by
    rw [Seg.append_iff] at h
    exact h.2.2.2.1
  have hki : i ≠ k := by
    rintro rfl
    have hnd' := (nodup_append.mp hnd).2.1
    exact (nodup_cons.mp hnd').1 (mem_cons_self ..)
  simp only [detach, hprev, storeNext, update_of_ne hki]
  unfold unlink Linked.setPrev storePrev
  cases L.next i with
  | none => rfl
  | some j => rfl

theorem Lists.moveToFront {c : LruCache} {xs ys : List ℕ} {i : ℕ} (h : c.Lists (xs ++ i :: ys)) :
    (rafCacheMoveToFront c i).Lists (i :: (xs ++ ys)) := by
  have hi : i < c.fresh := h.bound i (by simp)
  rcases eq_nil_or_concat' xs with rfl | ⟨xs, k, rfl⟩
  · have hhead : c.entries = some i := h.head
    rw [rafCacheMoveToFront, if_pos hhead]
    exact h
  · rw [append_assoc, singleton_append] at h ⊢
    have hnotMem : i ∉ xs ++ k :: ys := by
      have hperm : (xs ++ k :: i :: ys).Perm (i :: (xs ++ k :: ys)) := by
        simpa using @perm_middle _ i (xs ++ [k]) ys
      exact (nodup_cons.mp (hperm.nodup_iff.mp h.nodup)).1
    have hhead : c.entries ≠ some i := by
      rw [h.head]
      cases xs with
      | nil =>
        rintro ⟨⟩
        simp at hnotMem
      | cons x xs =>
        rintro ⟨⟩
        simp at hnotMem
    have hsub : (xs ++ k :: ys).Sublist (xs ++ k :: i :: ys) :=
      ((sublist_cons_self i ys).cons_cons k).append_left xs
    have hrest : LruCache.Lists { c with links := detach c.links i } (xs ++ k :: ys) := by
      refine ⟨?_, ?_, h.nodup.sublist hsub, fun x hx => h.bound x (hsub.subset hx)⟩
      · show c.entries = _
        rw [h.head]
        cases xs with
        | nil => rfl
        | cons x xs => rfl
      · show Seg (detach c.links i) none _ none
        rw [detach_eq_unlink h.seg h.nodup]
        exact h.seg.unlink h.nodup
    rw [rafCacheMoveToFront, if_neg hhead]
    exact hrest.linkFront hnotMem hi

theorem Lists.evictTail {c : LruCache} {ids : List ℕ} {t : ℕ} (h : c.Lists (ids ++ [t])) :
    (rafCacheEvictTail c).Lists ids := by
  have htail : exit none c.nodes = some t := by
    rw [h.nodes_eq]
    exact exit_concat none ids t
  have hsub : ids.Sublist (ids ++ [t]) := sublist_append_left ids [t]
  rw [rafCacheEvictTail, htail]
  rcases eq_nil_or_concat' ids with rfl | ⟨ids, k, rfl⟩
  · have hprev : c.links.prev t = none := h.seg.1
    simp only [hprev]
    exact ⟨rfl, trivial, nodup_nil, by simp⟩
  · have hseg : Seg c.links none (ids ++ k :: [t]) none := by simpa using h.seg
    have hnd : (ids ++ k :: [t]).Nodup := by simpa using h.nodup
    have hprev : c.links.prev t = some k := by
      have hseg' := hseg
      rw [Seg.append_iff] at hseg'
      exact hseg'.2.2.2.1
    simp only [hprev]
    refine ⟨?_, hseg.cutAfter hnd, h.nodup.sublist hsub, fun x hx => h.bound x (hsub.subset hx)⟩
    show c.entries = _
    rw [h.head]
    cases ids with
    | nil => rfl
    | cons x ids => rfl

/-! ### What the updates leave alone -/

/-- The two caches have the same entries and counters; they differ in their lists alone. -/
structure SameStore (c c' : LruCache) : Prop where
  entry : c'.entry = c.entry
  fresh : c'.fresh = c.fresh
  capacity : c'.capacity = c.capacity
  accessCounter : c'.accessCounter = c.accessCounter

theorem sameStore_moveToFront (c : LruCache) (i : ℕ) :
    SameStore c (rafCacheMoveToFront c i) ∧ (rafCacheMoveToFront c i).count = c.count := by
  unfold rafCacheMoveToFront
  split
  · exact ⟨⟨rfl, rfl, rfl, rfl⟩, rfl⟩
  · exact ⟨⟨rfl, rfl, rfl, rfl⟩, rfl⟩

theorem sameStore_evictTail {c : LruCache} {ids : List ℕ} {t : ℕ} (h : c.Lists (ids ++ [t])) :
    SameStore c (rafCacheEvictTail c) ∧ (rafCacheEvictTail c).count = c.count - 1 := by
  have htail : exit none c.nodes = some t := by
    rw [h.nodes_eq]
    exact exit_concat none ids t
  rw [rafCacheEvictTail, htail]
  cases hprev : c.links.prev t with
  | none =>
    simp only [hprev, and_true]
    exact ⟨rfl, rfl, rfl, rfl⟩
  | some k =>
    simp only [hprev, and_true]
    exact ⟨rfl, rfl, rfl, rfl⟩

/-! ### What is found -/

section Refinement

variable {c : LruCache} {s : State (List UInt8) (List UInt8)} {ids xs ys : List ℕ} {key : List UInt8} {i : ℕ}

theorem Shows.keys (h : c.Shows s ids) :
    ids.map (fun i => (c.entry i).key) = (s.visible c.capacity).map Prod.fst := by
  have hitems := congrArg (List.map Prod.fst) h.items
  rw [map_map, map_map] at hitems
  exact hitems

theorem Shows.length (h : c.Shows s ids) : ids.length = (s.visible c.capacity).length := by
  have hlen := congrArg List.length h.keys
  rwa [length_map, length_map] at hlen

theorem Shows.split (h : c.Shows s (xs ++ i :: ys)) (hok : s.Ok) :
    ∃ l₁ t l₂, s.visible c.capacity = l₁ ++ ((c.entry i).key, (c.entry i).data, t) :: l₂ ∧
      xs.map (fun i => (c.entry i).item) = l₁.map wrapTime ∧ ys.map (fun i => (c.entry i).item) = l₂.map wrapTime ∧
      (c.entry i).key ∉ l₁.map Prod.fst ∧ (c.entry i).key ∉ l₂.map Prod.fst := by
  have hitems := h.items
  rw [map_append, map_cons] at hitems
  obtain ⟨l₁, rest, hvisible, hxs, hrest⟩ := map_eq_append_iff.mp hitems.symm
  obtain ⟨⟨k, v, t⟩, l₂, rfl, hp, hys⟩ := map_eq_cons_iff.mp hrest
  obtain ⟨rfl, hp⟩ := Prod.mk.inj hp
  obtain ⟨rfl, -⟩ := Prod.mk.inj hp
  have hnodup : ((s.visible c.capacity).map Prod.fst).Nodup := by
    rw [State.visible, map_take]
    exact hok.nodup.sublist (take_sublist _ _)
  rw [hvisible, map_append, map_cons, nodup_append, nodup_cons] at hnodup
  refine ⟨l₁, t, l₂, hvisible, hxs.symm, hys.symm, fun hmem => ?_, hnodup.2.1.1⟩
  exact hnodup.2.2 _ hmem _ (mem_cons_self ..) rfl

theorem Shows.find_some (h : c.Shows s ids) (hok : s.Ok) (hfind : rafCacheFind c key = some i) :
    ∃ xs ys, ids = xs ++ i :: ys ∧ (c.entry i).key = key ∧ s.find c.capacity key = some (c.entry i).data := by
  rw [rafCacheFind, h.nodes_eq] at hfind
  have hkey : (c.entry i).key = key := beq_iff_eq.mp (by simpa using find?_some hfind)
  obtain ⟨xs, ys, rfl⟩ := append_of_mem (mem_of_find?_eq_some hfind)
  obtain ⟨l₁, t, l₂, hvisible, -, -, h₁, -⟩ := h.split hok
  rw [hkey] at hvisible h₁
  exact ⟨xs, ys, rfl, hkey, State.find_eq_some hvisible h₁⟩

theorem Shows.find_none (h : c.Shows s ids) (hfind : rafCacheFind c key = none) :
    key ∉ (s.visible c.capacity).map Prod.fst := by
  rw [rafCacheFind, h.nodes_eq] at hfind
  rw [← h.keys]
  intro hmem
  obtain ⟨i, hi, rfl⟩ := mem_map.mp hmem
  exact find?_eq_none.mp hfind i hi (beq_self_eq_true _)

/-! ### What a use does -/

theorem Shows.tick (h : c.Shows s ids) : (c.accessCounter + 1) % 2 ^ 64 = (s.clock + 1) % 2 ^ 64 := by
  rw [h.clock, Nat.mod_add_mod]

theorem map_item_update {c : LruCache} {i : ℕ} (e : LruEntry) {l : List ℕ} (hi : i ∉ l) :
    l.map (fun x => (update c.entry i e x).item) = l.map fun x => (c.entry x).item := by
  refine map_congr_left fun x hx => ?_
  have hne : x ≠ i := by
    rintro rfl
    exact hi hx
  rw [update_of_ne hne]

/-- **A use of a key in the cache**: the entry gets the value and the time, and moves to the front. -/
theorem Shows.hit (h : c.Shows s (xs ++ i :: ys)) (hok : s.Ok) (data : List UInt8) :
    (LruCache.access { c with entry := update c.entry i { c.entry i with data := data } } i).Shows
      (s.use (c.entry i).key data) (i :: (xs ++ ys)) := by
  obtain ⟨l₁, t, l₂, hvisible, hxs, hys, h₁, h₂⟩ := h.split hok
  have hperm : (xs ++ i :: ys).Perm (i :: (xs ++ ys)) := perm_middle
  have hnotMem : i ∉ xs ++ ys := (nodup_cons.mp (hperm.nodup_iff.mp h.nodup)).1
  set counter := (c.accessCounter + 1) % 2 ^ 64 with hcounter
  set e : LruEntry :=
    { c.entry i with
      data := data, accessCount := ((c.entry i).accessCount + 1) % 2 ^ 64, lastAccess := counter } with he
  set c₁ : LruCache := { c with entry := update c.entry i e, accessCounter := counter } with hc₁
  have haccess : LruCache.access { c with entry := update c.entry i { c.entry i with data := data } } i =
      rafCacheMoveToFront c₁ i := by
    simp only [LruCache.access, update_self, update_idem, hc₁, he, hcounter]
  have hlists : c₁.Lists (xs ++ i :: ys) := ⟨h.head, h.seg, h.nodup, h.bound⟩
  obtain ⟨hsame, hcount⟩ := sameStore_moveToFront c₁ i
  rw [haccess]
  refine { toLists := hlists.moveToFront, count := ?_, items := ?_, clock := ?_ }
  · rw [hcount]
    show c.count = _
    rw [h.count, hperm.length_eq]
  · have hshown : (s.use (c.entry i).key data).visible c.capacity =
        ((c.entry i).key, data, s.clock + 1) :: (l₁ ++ l₂) := by
      have hmem : (c.entry i).key ∈ (s.recent.take c.capacity).map Prod.fst := by
        show _ ∈ (s.visible c.capacity).map Prod.fst
        rw [hvisible]
        simp
      show (touch _ _ s.recent).take c.capacity = _
      rw [take_touch_of_mem hok.nodup hmem]
      show touch _ _ (s.visible c.capacity) = _
      rw [hvisible, touch_split h₁ h₂]
    rw [hsame.entry, hsame.capacity]
    show (i :: (xs ++ ys)).map (fun x => (update c.entry i e x).item) = _
    rw [hshown, map_cons, map_item_update e hnotMem, update_self, map_append, hxs, hys,
      map_cons, map_append]
    congr 1
    show ((c.entry i).key, data, counter) = ((c.entry i).key, data, (s.clock + 1) % 2 ^ 64)
    rw [hcounter, h.tick]
  · rw [hsame.accessCounter]
    exact h.tick

/-- **A new key** comes to the front, and the last entry goes when there are too many. -/
theorem Shows.insert (h : c.Shows s ids) (hkey : key ∉ (s.visible c.capacity).map Prod.fst) (data : List UInt8) :
    ∃ ids', (c.insert key data).Shows (s.use key data) ids' := by
  have hfresh : c.fresh ∉ ids := fun hmem => Nat.lt_irrefl _ (h.bound _ hmem)
  have hshort : ids.length ≤ c.capacity := by
    rw [h.length, State.visible, length_take]
    exact Nat.min_le_left _ _
  have hshown : (s.use key data).visible c.capacity =
      ((key, data, s.clock + 1) :: s.visible c.capacity).take c.capacity := take_touch_of_notMem hkey _
  set counter := (c.accessCounter + 1) % 2 ^ 64 with hcounter
  set e : LruEntry := { key := key, data := data, accessCount := 1, lastAccess := counter } with he
  set c₁ : LruCache :=
    { c with entry := update c.entry c.fresh e, fresh := c.fresh + 1, accessCounter := counter } with hc₁
  set c₃ : LruCache := { c₁.linkFront c.fresh with count := c.count + 1 } with hc₃
  have hinsert : c.insert key data = if c.count + 1 > c.capacity then rafCacheEvictTail c₃ else c₃ := rfl
  have hlists₁ : c₁.Lists ids := ⟨h.head, h.seg, h.nodup, fun i hi => Nat.lt_succ_of_lt (h.bound i hi)⟩
  have hlinked := hlists₁.linkFront hfresh (Nat.lt_succ_self _)
  have hlists : c₃.Lists (c.fresh :: ids) := ⟨hlinked.head, hlinked.seg, hlinked.nodup, hlinked.bound⟩
  -- what the entries hold, before one of them may go
  have hitems : (c.fresh :: ids).map (fun i => (c₃.entry i).item) =
      ((key, data, s.clock + 1) :: s.visible c.capacity).map wrapTime := by
    show (c.fresh :: ids).map (fun i => (update c.entry c.fresh e i).item) = _
    rw [map_cons, map_item_update e hfresh, update_self, h.items, map_cons]
    congr 1
    show (key, data, counter) = (key, data, (s.clock + 1) % 2 ^ 64)
    rw [hcounter, h.tick]
  have hclock : c₃.accessCounter = (s.use key data).clock % 2 ^ 64 := h.tick
  rw [hinsert]
  by_cases hfull : c.count + 1 > c.capacity
  · rw [if_pos hfull]
    have hlen : ids.length = c.capacity := by
      rw [h.count] at hfull
      omega
    obtain ⟨ids', t, hsplit⟩ : ∃ ids' t, c.fresh :: ids = ids' ++ [t] := by
      rcases eq_nil_or_concat' (c.fresh :: ids) with hnil | hconcat
      · cases hnil
      · exact hconcat
    have hlen' : ids'.length = c.capacity := by
      have := congrArg List.length hsplit
      rw [length_cons, length_append, length_singleton] at this
      omega
    rw [hsplit] at hlists hitems
    obtain ⟨hsame, hcount⟩ := sameStore_evictTail hlists
    refine ⟨ids', { toLists := hlists.evictTail, count := ?_, items := ?_, clock := ?_ }⟩
    · rw [hcount, hlen', ← hlen, ← h.count]
      rfl
    · rw [hsame.entry, hsame.capacity]
      show _ = ((s.use key data).visible c.capacity).map wrapTime
      rw [hshown, map_take, ← hitems, map_append, take_append_of_le_length (by simp [hlen']),
        take_of_length_le (by simp [hlen'])]
    · rw [hsame.accessCounter]
      exact hclock
  · rw [if_neg hfull]
    have hlen : ids.length + 1 ≤ c.capacity := by
      rw [h.count] at hfull
      omega
    refine ⟨c.fresh :: ids, { toLists := hlists, count := ?_, items := ?_, clock := hclock }⟩
    · show c.count + 1 = _
      rw [h.count, length_cons]
    · show _ = ((s.use key data).visible c.capacity).map wrapTime
      rw [hshown, hitems, take_of_length_le]
      rw [length_cons, ← h.length]
      exact hlen

end Refinement

/-! ### Every operation does what the policy does -/

def step (c : LruCache) : Op (List UInt8) (List UInt8) → LruCache
  | .put key data => (rafCachePut c key data).2
  | .get key => (rafCacheGet c key).2
  | .clear => rafCacheClear c

def policyStep (capacity : ℕ) (s : State (List UInt8) (List UInt8)) :
    Op (List UInt8) (List UInt8) → State (List UInt8) (List UInt8)
  | .put _ [] => s
  | op => s.step capacity op

theorem update_data_self (c : LruCache) (i : ℕ) :
    ({ c with entry := update c.entry i { c.entry i with data := (c.entry i).data } } : LruCache) = c := by
  have hsame : update c.entry i (c.entry i) = c.entry := update_eq_self i c.entry
  show ({ c with entry := update c.entry i (c.entry i) } : LruCache) = c
  rw [hsame]

theorem Holds.get_eq {c : LruCache} {s : State (List UInt8) (List UInt8)} (h : c.Holds s) (key : List UInt8) :
    (rafCacheGet c key).1 = s.find c.capacity key := by
  obtain ⟨hok, ids, hshows⟩ := h
  unfold rafCacheGet
  cases hfind : rafCacheFind c key with
  | none =>
    rw [State.find_eq_none (hshows.find_none hfind)]
  | some i =>
    obtain ⟨xs, ys, -, -, hsome⟩ := hshows.find_some hok hfind
    rw [hsome]

theorem Holds.get {c : LruCache} {s : State (List UInt8) (List UInt8)} (h : c.Holds s) (key : List UInt8) :
    (rafCacheGet c key).2.Holds (s.step c.capacity (.get key)) := by
  have hok' := h.1.step c.capacity (.get key)
  obtain ⟨hok, ids, hshows⟩ := h
  refine ⟨hok', ?_⟩
  rw [rafCacheGet]
  cases hfind : rafCacheFind c key with
  | none =>
    rw [State.step_get_of_none (State.find_eq_none (hshows.find_none hfind))]
    exact ⟨ids, hshows⟩
  | some i =>
    obtain ⟨xs, ys, rfl, hkey, hsome⟩ := hshows.find_some hok hfind
    rw [State.step_get_of_some hsome]
    have hhit := hshows.hit hok (c.entry i).data
    rw [update_data_self, hkey] at hhit
    exact ⟨_, hhit⟩

theorem Holds.put {c : LruCache} {s : State (List UInt8) (List UInt8)} (h : c.Holds s) (hcap : 1 ≤ c.capacity)
    (key : List UInt8) {data : List UInt8} (hdata : data ≠ []) :
    (rafCachePut c key data).1 = 0 ∧ (rafCachePut c key data).2.Holds (s.use key data) := by
  obtain ⟨hok, ids, hshows⟩ := h
  rw [rafCachePut, if_neg hdata, if_neg (by omega)]
  cases hfind : rafCacheFind c key with
  | none => exact ⟨rfl, hok.use key data, hshows.insert (hshows.find_none hfind) data⟩
  | some i =>
    obtain ⟨xs, ys, rfl, hkey, -⟩ := hshows.find_some hok hfind
    have hhit := hshows.hit hok data
    rw [hkey] at hhit
    exact ⟨rfl, hok.use key data, _, hhit⟩

theorem evictTail_capacity (c : LruCache) : (rafCacheEvictTail c).capacity = c.capacity := by
  unfold rafCacheEvictTail
  split
  · rfl
  · split <;> rfl

theorem step_capacity (c : LruCache) (op : Op (List UInt8) (List UInt8)) : (c.step op).capacity = c.capacity := by
  have haccess : ∀ (c : LruCache) (i : ℕ), (c.access i).capacity = c.capacity := fun c i =>
    (sameStore_moveToFront _ i).1.capacity
  have hinsert : ∀ key data, (c.insert key data).capacity = c.capacity := by
    intro key data
    rw [LruCache.insert]
    split
    · rw [evictTail_capacity]
      rfl
    · rfl
  cases op with
  | put key data =>
    show (rafCachePut c key data).2.capacity = _
    unfold rafCachePut
    split
    · rfl
    · split
      · rfl
      · split
        · exact haccess _ _
        · exact hinsert key data
  | get key =>
    show (rafCacheGet c key).2.capacity = _
    unfold rafCacheGet
    split
    · rfl
    · exact haccess c _
  | clear => rfl

theorem Holds.step {c : LruCache} {s : State (List UInt8) (List UInt8)} (h : c.Holds s) (hcap : 1 ≤ c.capacity)
    (op : Op (List UInt8) (List UInt8)) : (c.step op).Holds (policyStep c.capacity s op) := by
  cases op with
  | put key data =>
    cases data with
    | nil => exact h
    | cons b data => exact (h.put hcap key (by simp)).2
  | get key => exact h.get key
  | clear =>
    obtain ⟨hok, ids, hshows⟩ := h
    refine ⟨hok.step c.capacity .clear, [], ⟨rfl, trivial, nodup_nil, by simp⟩, rfl, ?_, hshows.clock⟩
    simp [policyStep, State.step, State.visible]

theorem holds_run {capacity : ℕ} (hcap : 1 ≤ capacity) (ops : List (Op (List UInt8) (List UInt8))) :
    (ops.foldl LruCache.step (rafCacheCreate capacity)).capacity = capacity ∧
      (ops.foldl LruCache.step (rafCacheCreate capacity)).Holds (ops.foldl (policyStep capacity) State.init) := by
  induction ops using List.reverseRecOn with
  | nil =>
    refine ⟨rfl, State.ok_init, [], ⟨rfl, trivial, nodup_nil, by simp⟩, rfl, ?_, rfl⟩
    simp [State.visible, State.init]
  | append_singleton ops op ih =>
    obtain ⟨hcapacity, hholds⟩ := ih
    rw [foldl_append, foldl_append, foldl_cons, foldl_nil, foldl_cons, foldl_nil]
    refine ⟨(step_capacity _ op).trans hcapacity, ?_⟩
    have hstep := hholds.step (by rw [hcapacity]; exact hcap) op
    rwa [hcapacity] at hstep

theorem Shows.times {c : LruCache} {s : State (List UInt8) (List UInt8)} {ids : List ℕ} (h : c.Shows s ids)
    (hok : s.Ok) (hclock : s.clock < 2 ^ 64) : (ids.map fun i => (c.entry i).lastAccess).Pairwise (· > ·) := by
  have htimes : ids.map (fun i => (c.entry i).lastAccess) = (s.visible c.capacity).map fun p => p.2.2 := by
    have hitems := congrArg (List.map fun p => p.2.2) h.items
    rw [map_map, map_map] at hitems
    refine hitems.trans (map_congr_left fun p hp => ?_)
    have hle := hok.past p (mem_of_mem_take hp)
    exact Nat.mod_eq_of_lt (by omega)
  rw [htimes, State.visible, map_take]
  exact hok.times.sublist (take_sublist _ _)

end LruCache

open LruCache

/-- **The cache is the policy.**  After every sequence of operations the pointers form a list, linked both ways, of
`count` entries; they hold the keys and the last values of the most recently used distinct keys, at most `capacity`
of them, in order of use; a get finds exactly these; and while fewer than `2 ^ 64` puts and gets succeeded, the times
of last use decrease along the list. -/
theorem cache_run (capacity : ℕ) (hcap : 1 ≤ capacity) (ops : List (Op (List UInt8) (List UInt8))) :
    let c := ops.foldl LruCache.step (rafCacheCreate capacity)
    let s := ops.foldl (policyStep capacity) State.init
    ((s.visible capacity).map Prod.fst).Nodup ∧
      (∃ ids : List ℕ, c.entries = Linked.entry ids none ∧ Seg c.links none ids none ∧ c.count = ids.length ∧
        ids.map (fun i => ((c.entry i).key, (c.entry i).data)) = (s.visible capacity).map (fun p => (p.1, p.2.1)) ∧
        (s.clock < 2 ^ 64 → (ids.map fun i => (c.entry i).lastAccess).Pairwise (· > ·))) ∧
      ∀ key, (rafCacheGet c key).1 = s.find capacity key := by
  obtain ⟨hcapacity, hholds⟩ := holds_run hcap ops
  have hget := hholds.get_eq
  obtain ⟨hok, ids, hshows⟩ := hholds
  refine ⟨?_, ⟨ids, hshows.head, hshows.seg, hshows.count, ?_, hshows.times hok⟩, ?_⟩
  · rw [State.visible, map_take]
    exact hok.nodup.sublist (take_sublist _ _)
  · have hitems := congrArg (List.map fun p : List UInt8 × List UInt8 × ℕ => (p.1, p.2.1)) hshows.items
    rw [map_map, map_map, hcapacity] at hitems
    exact hitems
  · intro key
    have := hget key
    rwa [hcapacity] at this

/-- Two keys in a cache of one: the second put evicts the first key. -/
theorem cache_run_evict :
    (rafCacheGet ([Op.put [97] [1], .put [98] [2]].foldl LruCache.step (rafCacheCreate 1)) [97]).1 = none :=
  ((cache_run 1 (by decide) [.put [97] [1], .put [98] [2]]).2.2 [97]).trans (by decide +kernel)

/-! ### Where the counter wraps -/

theorem policy_replicate_get (n t : ℕ) :
    (List.replicate n (Op.get [98])).foldl (policyStep 2) ⟨[([98], [2], t), ([97], [1], 1)], t⟩ =
      ⟨[([98], [2], t + n), ([97], [1], 1)], t + n⟩ := by
  induction n generalizing t with
  | zero => rfl
  | succ n ih =>
    have hstep : policyStep 2 ⟨[([98], [2], t), ([97], [1], 1)], t⟩ (.get [98]) =
        ⟨[([98], [2], t + 1), ([97], [1], 1)], t + 1⟩ := rfl
    rw [replicate_succ, foldl_cons, hstep, ih, Nat.add_assoc, Nat.add_comm 1 n]

/-- The puts of two keys, `n` gets of the second, then a get of the first. -/
def alternatingOps (n : ℕ) : List (Op (List UInt8) (List UInt8)) :=
  [.put [97] [1], .put [98] [2]] ++ List.replicate n (.get [98]) ++ [.get [97]]

theorem policy_alternatingOps (n : ℕ) : (alternatingOps n).foldl (policyStep 2) State.init =
    ⟨[([97], [1], n + 3), ([98], [2], n + 2)], n + 3⟩ := by
  have hputs : [Op.put [97] [1], .put [98] [2]].foldl (policyStep 2) State.init =
      ⟨[([98], [2], 2), ([97], [1], 1)], 2⟩ := rfl
  rw [alternatingOps, foldl_append, foldl_append, hputs, policy_replicate_get, Nat.add_comm 2 n]
  rfl

theorem times_alternatingOps (n : ℕ) :
    ((alternatingOps n).foldl LruCache.step (rafCacheCreate 2)).nodes.map (fun i =>
      (((alternatingOps n).foldl LruCache.step (rafCacheCreate 2)).entry i).lastAccess) =
        [(n + 3) % 2 ^ 64, (n + 2) % 2 ^ 64] := by
  obtain ⟨hcapacity, -, ids, hshows⟩ := @holds_run 2 (by decide) (alternatingOps n)
  have hitems := congrArg (List.map fun p => p.2.2) hshows.items
  rw [map_map, policy_alternatingOps, hcapacity] at hitems
  rw [hshows.nodes_eq]
  exact hitems

/-- After `2 ^ 64` uses the entry used last has the time zero, in front of the entry used before it. -/
theorem lastAccess_wraps :
    ¬ (((alternatingOps (2 ^ 64 - 3)).foldl LruCache.step (rafCacheCreate 2)).nodes.map fun i =>
      (((alternatingOps (2 ^ 64 - 3)).foldl LruCache.step (rafCacheCreate 2)).entry i).lastAccess).Pairwise (· > ·) := by
  rw [times_alternatingOps]
  simp

end Rafstore
