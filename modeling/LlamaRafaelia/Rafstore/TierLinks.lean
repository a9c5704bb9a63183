import Mathlib.Data.List.Perm.Subperm
import LlamaRafaelia.Lib.Deque
import LlamaRafaelia.Rafstore.Tiers

/-!
# The tiers as linked lists

The entries of the three tiers are allocated one by one and linked both ways; each tier keeps its two ends, the bytes it
uses and a 32-bit counter.  All three share one address space, and an address is not given out twice.

* **`runCalls_ordered`** - after any calls that put no key twice the counters fit the lists, and the tiers split what was
  put by age.
-/

namespace Rafstore

open List Linked CacheEntry

/-- The address space of the entries; `fresh` is the next address that `malloc` returns. -/
structure TierHeap where
  links : Links ℕ
  entry : ℕ → CacheEntry
  fresh : ℕ

/-- `raf_hd_cache_tier_t`.  The data in use fit into the memory; the number of entries is a `uint32_t`. -/
structure TierRecord where
  budget : ℕ
  used : ℕ
  ends : Ends ℕ
  count : ℕ
  deriving DecidableEq, Repr

/-- `tier_init`. -/
def tierInit (budget : ℕ) : TierRecord := { budget := budget, used := 0, ends := Ends.empty, count := 0 }

def tierNodes (h : TierHeap) (r : TierRecord) : List ℕ := Linked.read h.links.next h.fresh r.ends.head

/-- `tier_find`. -/
def tierFind (h : TierHeap) (r : TierRecord) (key : EventKey) : Option ℕ :=
  (tierNodes h r).find? fun i => (h.entry i).key == key

/-- `tier_remove`. -/
def tierRemove (h : TierHeap) (r : TierRecord) (i : ℕ) : TierHeap × TierRecord :=
  ({ h with links := Linked.detach h.links i },
    { r with
      used := r.used - (h.entry i).data.length
      ends := r.ends.detach h.links i
      count := (r.count + (2 ^ 32 - 1)) % 2 ^ 32 })

/-- `tier_add_head`. -/
def tierAddHead (h : TierHeap) (r : TierRecord) (i : ℕ) : TierHeap × TierRecord :=
  ({ h with links := pushFront h.links r.ends.head i },
    { r with
      used := r.used + (h.entry i).data.length
      ends := r.ends.addHead i
      count := (r.count + 1) % 2 ^ 32 })

/-- `malloc` of an entry with its key and a copy of its data. -/
def TierHeap.newEntry (h : TierHeap) (key : EventKey) (data : List UInt8) : TierHeap :=
  { h with entry := Function.update h.entry h.fresh { key := key, data := data }, fresh := h.fresh + 1 }

/-- `tier_put`. -/
def tierPut (h : TierHeap) (r : TierRecord) (key : EventKey) (data : List UInt8) : TierHeap × TierRecord :=
  match tierFind h r key with
  | some existing =>
    let (h, r) := tierRemove h r existing
    tierAddHead h r existing
  | none => tierAddHead (h.newEntry key data) r h.fresh

/-- `tier_pop_tail`. -/
def tierPopTail (h : TierHeap) (r : TierRecord) : Option (ℕ × TierHeap × TierRecord) :=
  r.ends.tail.map fun i => (i, tierRemove h r i)

/-- A demotion loop from the tier `src` to the tier `dst`.  Each turn takes an entry out of `src`. -/
def linkedDemote : ℕ → TierHeap → TierRecord → TierRecord → TierHeap × TierRecord × TierRecord
  | 0, h, src, dst => (h, src, dst)
  | fuel + 1, h, src, dst =>
    if src.budget < src.used then
      match tierPopTail h src with
      | none => (h, src, dst)
      | some (i, h, src) =>
        let (h, dst) := tierPut h dst (h.entry i).key (h.entry i).data
        linkedDemote fuel h src dst
    else (h, src, dst)

def linkedEvict : ℕ → TierHeap → TierRecord → TierHeap × TierRecord
  | 0, h, r => (h, r)
  | fuel + 1, h, r =>
    if r.budget < r.used then
      match tierPopTail h r with
      | none => (h, r)
      | some (_, h, r) => linkedEvict fuel h r
    else (h, r)

/-- `raf_hd_l123_cache_t` with the address space of its entries. -/
structure LinkedCache where
  heap : TierHeap
  l1 : TierRecord
  l2 : TierRecord
  l3 : TierRecord

/-- `raf_hd_cache_init`. -/
def linkedInit : LinkedCache where
  heap := { links := { next := fun _ => none, prev := fun _ => none }, entry := fun _ => ⟨⟨[], []⟩, []⟩, fresh := 0 }
  l1 := tierInit (2 * 1024 * 1024)
  l2 := tierInit (16 * 1024 * 1024)
  l3 := tierInit (128 * 1024 * 1024)

/-- `raf_hd_cache_put_hot`. -/
def linkedPutHot (c : LinkedCache) (key : EventKey) (data : List UInt8) : LinkedCache × Bool :=
  if data.length = 0 then (c, false)
  else
    let (h, r) := tierPut c.heap c.l1 key data
    ({ c with heap := h, l1 := r }, true)

/-- `raf_hd_cache_demote_cycle`. -/
def linkedDemoteCycle (c : LinkedCache) : LinkedCache :=
  let (h, l1, l2) := linkedDemote (tierNodes c.heap c.l1).length c.heap c.l1 c.l2
  let (h, l2, l3) := linkedDemote (tierNodes h l2).length h l2 c.l3
  let (h, l3) := linkedEvict (tierNodes h l3).length h l3
  { heap := h, l1 := l1, l2 := l2, l3 := l3 }

/-! ### What the counters of a tier on lists say -/

/-- The counters of the tier are the ones of its list. -/
structure Tier.Sound (t : Tier) : Prop where
  used : t.used = (t.entries.map fun e => e.data.length).sum
  count : t.count = t.entries.length

section Lists

variable {t src dst : Tier} {key : EventKey} {data : List UInt8} {e : CacheEntry}

theorem Tier.init_sound (budget : ℕ) : (Tier.init budget).Sound := ⟨rfl, rfl⟩

theorem Tier.Sound.remove {before behind : List CacheEntry} (h : t.Sound) (hsplit : t.entries = before ++ e :: behind) :
    (t.remove e (before ++ behind)).Sound := by
  refine ⟨?_, ?_⟩
  · show t.used - e.data.length = _
    rw [h.used, hsplit]
    simp only [Tier.remove, map_append, map_cons, sum_append, sum_cons]
    omega
  · show t.count - 1 = _
    rw [h.count, hsplit]
    simp only [Tier.remove, length_append, length_cons]
    omega

theorem Tier.Sound.addHead (h : t.Sound) (e : CacheEntry) : (t.addHead e).Sound := by
  refine ⟨?_, ?_⟩
  · show t.used + e.data.length = ((e :: t.entries).map fun e => e.data.length).sum
    rw [map_cons, sum_cons, h.used, Nat.add_comm]
  · show t.count + 1 = t.entries.length + 1
    rw [h.count]

theorem Tier.Sound.put (h : t.Sound) (key : EventKey) (data : List UInt8) : (t.put key data).Sound := by
  rw [Tier.put]
  cases hfind : t.find key with
  | none => exact h.addHead _
  | some existing =>
    obtain ⟨hkey, before, behind, hsplit, hbefore⟩ := find?_eq_some_iff_append.mp hfind
    have herase : t.entries.eraseP (fun e => e.key == key) = before ++ behind := by
      have hnot : ∀ e ∈ before, ¬ (e.key == key) = true := by
        intro e he
        have hother := hbefore e he
        rwa [Bool.not_eq_true', ← Bool.not_eq_true] at hother
      rw [hsplit, eraseP_append_right _ hnot, eraseP_cons, hkey]
      rfl
    show ((t.remove existing (t.entries.eraseP fun e => e.key == key)).addHead existing).Sound
    rw [herase]
    exact (h.remove hsplit).addHead existing

theorem Tier.Sound.popTail {rest : Tier} (h : t.Sound) (hpop : t.popTail = some (e, rest)) : rest.Sound := by
  have hsplit := Tier.popTail_spec hpop
  rw [Tier.popTail, Option.map_eq_some_iff] at hpop
  obtain ⟨last, _, heq⟩ := hpop
  obtain ⟨rfl, rfl⟩ := Prod.mk.inj heq
  have hsound := h.remove hsplit
  rwa [append_nil] at hsound

theorem Tier.Sound.used_of_nil (h : t.Sound) (hnil : t.entries = []) : t.used = 0 := by
  rw [h.used, hnil]
  rfl

theorem Tier.popTail_eq_none (h : t.popTail = none) : t.entries = [] := by
  rw [Tier.popTail, Option.map_eq_none_iff] at h
  exact getLast?_eq_none_iff.mp h

theorem demoteLoop_sound (fuel : ℕ) (hsrc : src.Sound) (hdst : dst.Sound) :
    (demoteLoop fuel src dst).1.Sound ∧ (demoteLoop fuel src dst).2.Sound := by
  induction fuel generalizing src dst with
  | zero => exact ⟨hsrc, hdst⟩
  | succ fuel ih =>
    rw [demoteLoop]
    split
    · cases hpop : src.popTail with
      | none => exact ⟨hsrc, hdst⟩
      | some pair => exact ih (hsrc.popTail hpop) (hdst.put _ _)
    · exact ⟨hsrc, hdst⟩

theorem demoteLoop_within {fuel : ℕ} (hsrc : src.Sound) (hfuel : src.entries.length ≤ fuel) (dst : Tier) :
    (demoteLoop fuel src dst).1.used ≤ (demoteLoop fuel src dst).1.budget := by
  induction fuel generalizing src dst with
  | zero =>
    have hnil := hsrc.used_of_nil (length_eq_zero_iff.mp (Nat.le_zero.mp hfuel))
    show src.used ≤ src.budget
    omega
  | succ fuel ih =>
    rw [demoteLoop]
    split
    next hover =>
      cases hpop : src.popTail with
      | none =>
        have hnil := hsrc.used_of_nil (Tier.popTail_eq_none hpop)
        omega
      | some pair =>
        have hlen := congrArg length (Tier.popTail_spec hpop)
        rw [length_append, length_singleton] at hlen
        exact ih (hsrc.popTail hpop) (by omega) _
    next hunder => exact Nat.le_of_not_lt hunder

theorem evictLoop_within {fuel : ℕ} (h : t.Sound) (hfuel : t.entries.length ≤ fuel) :
    (evictLoop fuel t).used ≤ (evictLoop fuel t).budget := by
  induction fuel generalizing t with
  | zero =>
    have hnil := h.used_of_nil (length_eq_zero_iff.mp (Nat.le_zero.mp hfuel))
    show t.used ≤ t.budget
    omega
  | succ fuel ih =>
    rw [evictLoop]
    split
    next hover =>
      cases hpop : t.popTail with
      | none =>
        have hnil := h.used_of_nil (Tier.popTail_eq_none hpop)
        omega
      | some pair =>
        have hlen := congrArg length (Tier.popTail_spec hpop)
        rw [length_append, length_singleton] at hlen
        exact ih (h.popTail hpop) (by omega)
    next hunder => exact Nat.le_of_not_lt hunder

theorem Tier.put_new (h : ∀ e ∈ t.entries, e.key ≠ key) (data : List UInt8) :
    t.put key data = t.addHead { key := key, data := data } := by
  have hfind : t.find key = none := find?_eq_none.mpr fun e he hkey => h e he (eq_of_beq hkey)
  rw [Tier.put, hfind]

/-- **Demotion moves the border** between two tiers, when no key is in both. -/
theorem demoteLoop_entries (fuel : ℕ) (hkeys : ((src.entries ++ dst.entries).map CacheEntry.key).Nodup) :
    (demoteLoop fuel src dst).1.entries ++ (demoteLoop fuel src dst).2.entries = src.entries ++ dst.entries := by
  induction fuel generalizing src dst with
  | zero => rfl
  | succ fuel ih =>
    rw [demoteLoop]
    split
    · cases hpop : src.popTail with
      | none => rfl
      | some pair =>
        obtain ⟨e, rest⟩ := pair
        have hsplit := Tier.popTail_spec hpop
        rw [hsplit, append_assoc] at hkeys
        have hnew : ∀ e' ∈ dst.entries, e'.key ≠ e.key := by
          intro e' he' heq
          rw [map_append, nodup_append, singleton_append, map_cons, nodup_cons] at hkeys
          exact hkeys.2.1.1 (heq ▸ mem_map_of_mem he')
        have hput : dst.put e.key e.data = dst.addHead e := Tier.put_new hnew e.data
        show (demoteLoop fuel rest (dst.put e.key e.data)).1.entries
          ++ (demoteLoop fuel rest (dst.put e.key e.data)).2.entries = _
        rw [hput, ih hkeys, hsplit, append_assoc]
        rfl
    · rfl

theorem evictLoop_entries (fuel : ℕ) (t : Tier) : ∃ evicted, (evictLoop fuel t).entries ++ evicted = t.entries := by
  induction fuel generalizing t with
  | zero => exact ⟨[], append_nil _⟩
  | succ fuel ih =>
    rw [evictLoop]
    split
    · cases hpop : t.popTail with
      | none => exact ⟨[], append_nil _⟩
      | some pair =>
        obtain ⟨evicted, hevicted⟩ := ih pair.2
        refine ⟨evicted ++ [pair.1], ?_⟩
        rw [← append_assoc, hevicted]
        exact (Tier.popTail_spec hpop).symm
    · exact ⟨[], append_nil _⟩

end Lists

/-! ### What the nodes stand for -/

/-- The tier `r` consists of the nodes `ids`, which carry the entries of the tier `t`. -/
structure Represents (h : TierHeap) (r : TierRecord) (ids : List ℕ) (t : Tier) : Prop where
  holds : r.ends.Holds h.links ids
  entries : t.entries = ids.map h.entry
  budget : r.budget = t.budget
  used : r.used = t.used
  count : r.count = t.count % 2 ^ 32
  bound : ∀ i ∈ ids, i < h.fresh
  sound : t.Sound

/-- A node that an operation has left alone. -/
structure Untouched (h h' : TierHeap) (k : ℕ) : Prop where
  next : h'.links.next k = h.links.next k
  prev : h'.links.prev k = h.links.prev k
  entry : h'.entry k = h.entry k

/-- What an operation on the nodes `ids` that leaves the nodes `ids'` does to the address space: the other nodes are left
alone, and the nodes come from `ids` or are new. -/
structure Within (h h' : TierHeap) (ids ids' : List ℕ) : Prop where
  fresh_le : h.fresh ≤ h'.fresh
  untouched : ∀ k < h.fresh, k ∉ ids → Untouched h h' k
  mem : ∀ k ∈ ids', k ∈ ids ∨ h.fresh ≤ k

section Pointers

variable {h h' h'' : TierHeap} {r a b : TierRecord} {ids ids' ids'' xs ys : List ℕ} {t src dst : Tier} {i : ℕ}
  {key : EventKey} {data : List UInt8}

theorem Untouched.trans {k : ℕ} (h₁ : Untouched h h' k) (h₂ : Untouched h' h'' k) : Untouched h h'' k :=
  ⟨h₂.next.trans h₁.next, h₂.prev.trans h₁.prev, h₂.entry.trans h₁.entry⟩

theorem Within.trans (h₁ : Within h h' ids ids') (h₂ : Within h' h'' ids' ids'') : Within h h'' ids ids'' := by
  refine ⟨Nat.le_trans h₁.fresh_le h₂.fresh_le, fun k hk hids => ?_, fun k hk => ?_⟩
  · have hids' : k ∉ ids' := fun hmem => by
      rcases h₁.mem k hmem with hold | hnew
      · exact hids hold
      · omega
    have hfirst := h₁.untouched k hk hids
    have hthen := h₂.untouched k (Nat.lt_of_lt_of_le hk h₁.fresh_le) hids'
    exact hfirst.trans hthen
  · rcases h₂.mem k hk with hmid | hnew
    · exact h₁.mem k hmid
    · exact Or.inr (Nat.le_trans h₁.fresh_le hnew)

theorem Within.append_right (hw : Within h h' ids ids') (more : List ℕ) : Within h h' (ids ++ more) (ids' ++ more) := by
  refine ⟨hw.fresh_le, fun k hk hids => hw.untouched k hk fun hmem => hids (mem_append_left _ hmem), fun k hk => ?_⟩
  rcases mem_append.mp hk with hk | hk
  · exact (hw.mem k hk).imp_left (mem_append_left _)
  · exact Or.inl (mem_append_right _ hk)

theorem Within.append_left (hw : Within h h' ids ids') (more : List ℕ) : Within h h' (more ++ ids) (more ++ ids') := by
  refine ⟨hw.fresh_le, fun k hk hids => hw.untouched k hk fun hmem => hids (mem_append_right _ hmem), fun k hk => ?_⟩
  rcases mem_append.mp hk with hk | hk
  · exact Or.inl (mem_append_left _ hk)
  · exact (hw.mem k hk).imp_left (mem_append_right _)

theorem Within.refl (h : TierHeap) (ids : List ℕ) : Within h h ids ids :=
  ⟨Nat.le_refl _, fun _ _ _ => ⟨rfl, rfl, rfl⟩, fun _ hk => Or.inl hk⟩

theorem Represents.frame (hr : Represents h r ids t) (hw : Within h h' xs ys) (hdisj : ∀ k ∈ ids, k ∉ xs) :
    Represents h' r ids t := by
  have hsame : ∀ k ∈ ids, Untouched h h' k := fun k hk => hw.untouched k (hr.bound k hk) (hdisj k hk)
  refine ⟨hr.holds.congr fun k hk => ⟨(hsame k hk).next, (hsame k hk).prev⟩, ?_, hr.budget, hr.used, hr.count,
    fun k hk => Nat.lt_of_lt_of_le (hr.bound k hk) hw.fresh_le, hr.sound⟩
  rw [hr.entries]
  exact map_congr_left fun k hk => (hsame k hk).entry.symm

theorem Represents.length_le (hr : Represents h r ids t) : ids.length ≤ h.fresh := by
  have hsub : ids ⊆ range h.fresh := fun k hk => mem_range.mpr (hr.bound k hk)
  have hlen := (subperm_of_subset hr.holds.nodup hsub).length_le
  rwa [length_range] at hlen

theorem Represents.nodes_eq (hr : Represents h r ids t) : tierNodes h r = ids := by
  rw [tierNodes, hr.holds.head]
  exact hr.holds.seg.read_eq hr.length_le

theorem Represents.find_eq (hr : Represents h r ids t) (key : EventKey) :
    (tierFind h r key).map h.entry = t.find key := by
  rw [tierFind, hr.nodes_eq, Tier.find, hr.entries, find?_map]
  rfl

theorem Represents.remove (hr : Represents h r (xs ++ i :: ys) t) :
    Represents (tierRemove h r i).1 (tierRemove h r i).2 (xs ++ ys) (t.remove (h.entry i) ((xs ++ ys).map h.entry)) := by
  have hsplit : t.entries = xs.map h.entry ++ h.entry i :: ys.map h.entry := by rw [hr.entries, map_append, map_cons]
  have hsound := hr.sound.remove hsplit
  rw [← map_append] at hsound
  have hpos : 0 < t.count := by
    rw [hr.sound.count, hsplit, length_append, length_cons]
    omega
  refine ⟨hr.holds.detach, rfl, hr.budget, ?_, ?_, fun k hk => hr.bound k ?_, hsound⟩
  · exact congrArg (· - (h.entry i).data.length) hr.used
  · show (r.count + (2 ^ 32 - 1)) % 2 ^ 32 = (t.count - 1) % 2 ^ 32
    rw [hr.count]
    omega
  · rcases mem_append.mp hk with hk | hk
    · exact mem_append_left _ hk
    · exact mem_append_right _ (mem_cons_of_mem i hk)

theorem Represents.remove_within (hr : Represents h r (xs ++ i :: ys) t) :
    Within h (tierRemove h r i).1 (xs ++ i :: ys) (xs ++ ys) := by
  refine ⟨Nat.le_refl _, fun k _ hids => ?_, fun k hk => Or.inl ?_⟩
  · obtain ⟨hnext, hprev⟩ := hr.holds.detach_frame hids
    exact ⟨hnext, hprev, rfl⟩
  · rcases mem_append.mp hk with hk | hk
    · exact mem_append_left _ hk
    · exact mem_append_right _ (mem_cons_of_mem i hk)

theorem Represents.addHead (hr : Represents h r ids t) (hi : i ∉ ids) (hfresh : i < h.fresh) :
    Represents (tierAddHead h r i).1 (tierAddHead h r i).2 (i :: ids) (t.addHead (h.entry i)) := by
  refine ⟨hr.holds.addHead hi, ?_, hr.budget, ?_, ?_, fun k hk => ?_, hr.sound.addHead (h.entry i)⟩
  · show h.entry i :: t.entries = h.entry i :: ids.map h.entry
    rw [hr.entries]
  · exact congrArg (· + (h.entry i).data.length) hr.used
  · show (r.count + 1) % 2 ^ 32 = (t.count + 1) % 2 ^ 32
    rw [hr.count]
    omega
  · rcases mem_cons.mp hk with rfl | hk
    · exact hfresh
    · exact hr.bound k hk

theorem Represents.addHead_untouched (hr : Represents h r ids t) {k : ℕ} (hk : k ∉ ids) (hne : k ≠ i) :
    Untouched h (tierAddHead h r i).1 k := by
  obtain ⟨hnext, hprev⟩ := hr.holds.addHead_frame hk hne
  exact ⟨hnext, hprev, rfl⟩

theorem newEntry_untouched (h : TierHeap) (key : EventKey) (data : List UInt8) {k : ℕ} (hk : k < h.fresh) :
    Untouched h (h.newEntry key data) k := ⟨rfl, rfl, Function.update_of_ne (Nat.ne_of_lt hk) _ _⟩

theorem Represents.put (hr : Represents h r ids t) (key : EventKey) (data : List UInt8) :
    ∃ ids', Represents (tierPut h r key data).1 (tierPut h r key data).2 ids' (t.put key data)
      ∧ Within h (tierPut h r key data).1 ids ids' := by
  have hfind := hr.find_eq key
  rw [tierPut, Tier.put]
  cases hfound : tierFind h r key with
  | none =>
    rw [hfound] at hfind
    rw [← hfind]
    have hmalloc : Within h (h.newEntry key data) [] [] :=
      ⟨Nat.le_succ _, fun k hk _ => newEntry_untouched h key data hk, fun _ hk => absurd hk not_mem_nil⟩
    have hnew : Represents (h.newEntry key data) r ids t := hr.frame hmalloc fun _ _ => not_mem_nil
    have hfresh : h.fresh ∉ ids := fun hmem => Nat.lt_irrefl _ (hr.bound _ hmem)
    have hadd := hnew.addHead hfresh (Nat.lt_succ_self h.fresh)
    have hentry : (h.newEntry key data).entry h.fresh = { key := key, data := data } := Function.update_self _ _ _
    rw [hentry] at hadd
    refine ⟨h.fresh :: ids, hadd, Nat.le_succ _, fun k hk hids => ?_, fun k hk => ?_⟩
    · have hfirst := newEntry_untouched h key data hk
      have hthen := hnew.addHead_untouched hids (Nat.ne_of_lt hk)
      exact hfirst.trans hthen
    · rcases mem_cons.mp hk with rfl | hk
      · exact Or.inr (Nat.le_refl _)
      · exact Or.inl hk
  | some i =>
    rw [hfound] at hfind
    rw [← hfind]
    rw [tierFind, hr.nodes_eq, find?_eq_some_iff_append] at hfound
    obtain ⟨hi, xs, ys, rfl, hbefore⟩ := hfound
    have hremove := hr.remove
    have hout : i ∉ xs ++ ys := by
      have hnodup := hr.holds.nodup
      rw [nodup_middle] at hnodup
      exact (nodup_cons.mp hnodup).1
    have hfresh : i < h.fresh := hr.bound i (mem_append_right _ mem_cons_self)
    have hadd := hremove.addHead hout hfresh
    have herase : t.entries.eraseP (fun e => e.key == key) = (xs ++ ys).map h.entry := by
      have hnot : ∀ e ∈ xs.map h.entry, ¬ (e.key == key) = true := by
        intro e he
        obtain ⟨k, hk, rfl⟩ := mem_map.mp he
        have hkey := hbefore k hk
        rwa [Bool.not_eq_true', ← Bool.not_eq_true] at hkey
      rw [hr.entries, map_append, map_cons, map_append, eraseP_append_right _ hnot, eraseP_cons, hi]
      rfl
    refine ⟨i :: (xs ++ ys), ?_, Nat.le_refl _, fun k hk hids => ?_, fun k hk => Or.inl ?_⟩
    · show Represents _ _ _ ((t.remove (h.entry i) (t.entries.eraseP fun e => e.key == key)).addHead (h.entry i))
      rw [herase]
      exact hadd
    · have hrest : k ∉ xs ++ ys := fun hmem => hids (perm_middle.mem_iff.mpr (mem_cons_of_mem i hmem))
      have hne : k ≠ i := fun heq => hids (heq ▸ mem_append_right _ mem_cons_self)
      exact (hr.remove_within.untouched k hk hids).trans (hremove.addHead_untouched hrest hne)
    · exact perm_middle.mem_iff.mpr hk

theorem Represents.popTail (hr : Represents h r ids t) :
    (tierPopTail h r = none ∧ t.popTail = none) ∨
      ∃ i h' r' ids' t', tierPopTail h r = some (i, h', r') ∧ t.popTail = some (h'.entry i, t')
        ∧ Represents h' r' ids' t' ∧ Within h h' ids ids' ∧ ids = ids' ++ [i] := by
  rw [tierPopTail, Tier.popTail, hr.holds.tail_eq]
  cases hlast : ids.getLast? with
  | none =>
    refine Or.inl ⟨rfl, ?_⟩
    rw [hr.entries, getLast?_map, hlast]
    rfl
  | some i =>
    have hsplit : ids = ids.dropLast ++ [i] := (dropLast_append_getLast? i hlast).symm
    generalize ids.dropLast = xs at hsplit
    subst hsplit
    have hremove := hr.remove
    rw [append_nil] at hremove
    have hwithin := hr.remove_within
    rw [append_nil] at hwithin
    refine Or.inr ⟨i, _, _, xs, _, rfl, ?_, hremove, hwithin, rfl⟩
    rw [hr.entries, map_append, map_singleton, getLast?_concat, dropLast_concat]
    rfl

/-- **A tier aside** does not change and stays apart when other nodes change. -/
theorem Represents.aside (hr : Represents h r ids t) (hw : Within h h' xs ys) (hdisj : ∀ k ∈ ids, k ∉ xs) :
    Represents h' r ids t ∧ ∀ k ∈ ids, k ∉ ys := by
  refine ⟨hr.frame hw hdisj, fun k hk hmem => ?_⟩
  rcases hw.mem k hmem with hold | hnew
  · exact hdisj k hk hold
  · have hlt := hr.bound k hk
    omega

/-- **The demotion loop** does to the nodes what it does to the lists. -/
theorem linkedDemote_represents (fuel : ℕ) (ha : Represents h a xs src) (hb : Represents h b ys dst)
    (hdisj : (xs ++ ys).Nodup) :
    ∃ h' a' b' xs' ys', linkedDemote fuel h a b = (h', a', b')
      ∧ Represents h' a' xs' (demoteLoop fuel src dst).1 ∧ Represents h' b' ys' (demoteLoop fuel src dst).2
      ∧ (xs' ++ ys').Nodup ∧ Within h h' (xs ++ ys) (xs' ++ ys') := by
  induction fuel generalizing h a b xs ys src dst with
  | zero => exact ⟨h, a, b, xs, ys, rfl, ha, hb, hdisj, Within.refl h _⟩
  | succ fuel ih =>
    rw [linkedDemote, demoteLoop, ha.budget, ha.used]
    split
    next =>
      rcases ha.popTail with ⟨hnone, hnone'⟩ | ⟨i, h₁, a₁, xs₁, src₁, hpop, hpop', ha₁, hw₁, hxs⟩
      · rw [hnone, hnone']
        exact ⟨h, a, b, xs, ys, rfl, ha, hb, hdisj, Within.refl h _⟩
      · rw [hpop, hpop']
        have hapart : ∀ k ∈ ys, k ∉ xs := fun k hk hmem => (nodup_append.mp hdisj).2.2 k hmem k hk rfl
        have hb₁ : Represents h₁ b ys dst := hb.frame hw₁ hapart
        obtain ⟨ys₂, hb₂, hw₂⟩ := hb₁.put (h₁.entry i).key (h₁.entry i).data
        have hdisj₁ : (xs₁ ++ ys).Nodup := by
          refine hdisj.sublist (List.Sublist.append_right ?_ ys)
          rw [hxs]
          exact sublist_append_left xs₁ [i]
        obtain ⟨ha₂, hapart₂⟩ := ha₁.aside hw₂ fun k hk hmem => (nodup_append.mp hdisj₁).2.2 k hk k hmem rfl
        have hdisj₂ : (xs₁ ++ ys₂).Nodup := nodup_append.mpr ⟨ha₁.holds.nodup, hb₂.holds.nodup,
          fun k hk l hl hkl => hapart₂ k hk (hkl ▸ hl)⟩
        obtain ⟨h', a', b', xs', ys', hrun, ha', hb', hdisj', hw'⟩ := ih ha₂ hb₂ hdisj₂
        exact ⟨h', a', b', xs', ys', hrun, ha', hb', hdisj',
          ((hw₁.append_right ys).trans (hw₂.append_left xs₁)).trans hw'⟩
    next => exact ⟨h, a, b, xs, ys, rfl, ha, hb, hdisj, Within.refl h _⟩

/-- **The eviction loop** does to the nodes what it does to the list. -/
theorem linkedEvict_represents (fuel : ℕ) (hr : Represents h r ids t) :
    ∃ h' r' ids', linkedEvict fuel h r = (h', r') ∧ Represents h' r' ids' (evictLoop fuel t) ∧ Within h h' ids ids' := by
  induction fuel generalizing h r ids t with
  | zero => exact ⟨h, r, ids, rfl, hr, Within.refl h ids⟩
  | succ fuel ih =>
    rw [linkedEvict, evictLoop, hr.budget, hr.used]
    split
    next =>
      rcases hr.popTail with ⟨hnone, hnone'⟩ | ⟨i, h₁, r₁, ids₁, t₁, hpop, hpop', hr₁, hw₁, _⟩
      · rw [hnone, hnone']
        exact ⟨h, r, ids, rfl, hr, Within.refl h ids⟩
      · rw [hpop, hpop']
        obtain ⟨h', r', ids', hrun, hr', hw'⟩ := ih hr₁
        exact ⟨h', r', ids', hrun, hr', hw₁.trans hw'⟩
    next => exact ⟨h, r, ids, rfl, hr, Within.refl h ids⟩

end Pointers

/-! ### The whole cache -/

/-- The three tiers consist of the nodes `ids₁`, `ids₂` and `ids₃`, which carry the entries of the cache `t`. -/
structure LinkedCache.Represents (c : LinkedCache) (ids₁ ids₂ ids₃ : List ℕ) (t : TierCache) : Prop where
  l1 : Rafstore.Represents c.heap c.l1 ids₁ t.l1
  l2 : Rafstore.Represents c.heap c.l2 ids₂ t.l2
  l3 : Rafstore.Represents c.heap c.l3 ids₃ t.l3
  nodup : (ids₁ ++ ids₂ ++ ids₃).Nodup

theorem tierInit_represents (budget : ℕ) : Represents linkedInit.heap (tierInit budget) [] (Tier.init budget) :=
  ⟨Ends.empty_holds _, rfl, rfl, rfl, rfl, fun _ hk => absurd hk not_mem_nil, Tier.init_sound budget⟩

theorem linkedInit_represents : linkedInit.Represents [] [] [] cacheInit :=
  ⟨tierInit_represents _, tierInit_represents _, tierInit_represents _, nodup_nil⟩

section Calls

variable {c : LinkedCache} {ids₁ ids₂ ids₃ : List ℕ} {t : TierCache} {key : EventKey} {data : List UInt8}

theorem LinkedCache.Represents.putHot (h : c.Represents ids₁ ids₂ ids₃ t) (key : EventKey) (data : List UInt8) :
    ∃ ids₁', (linkedPutHot c key data).1.Represents ids₁' ids₂ ids₃ (putHot t key data).1 := by
  rw [linkedPutHot, Rafstore.putHot]
  split
  · exact ⟨ids₁, h⟩
  · obtain ⟨ids₁', hput, hw⟩ := h.l1.put key data
    have hnodup := nodup_append.mp (append_assoc ids₁ ids₂ ids₃ ▸ h.nodup)
    have hapart : ∀ k ∈ ids₂ ++ ids₃, k ∉ ids₁ := fun k hk hmem => hnodup.2.2 k hmem k hk rfl
    refine ⟨ids₁', hput, h.l2.frame hw fun k hk => hapart k (mem_append_left _ hk),
      h.l3.frame hw fun k hk => hapart k (mem_append_right _ hk), ?_⟩
    rw [append_assoc]
    refine nodup_append.mpr ⟨hput.holds.nodup, hnodup.2.1, fun k hk l hl hkl => ?_⟩
    rcases hw.mem k hk with hold | hnew
    · exact hnodup.2.2 k hold l hl hkl
    · have hlt : l < c.heap.fresh := by
        rcases mem_append.mp hl with hl | hl
        · exact h.l2.bound l hl
        · exact h.l3.bound l hl
      omega

theorem LinkedCache.Represents.demoteCycle (h : c.Represents ids₁ ids₂ ids₃ t) :
    ∃ ids₁' ids₂' ids₃', (linkedDemoteCycle c).Represents ids₁' ids₂' ids₃' (demoteCycle t) := by
  have hnodup := nodup_append.mp h.nodup
  have hlen : ∀ {heap : TierHeap} {r : TierRecord} {ids : List ℕ} {u : Tier}, Rafstore.Represents heap r ids u →
      (tierNodes heap r).length = u.entries.length := by
    intro heap r ids u hr
    rw [hr.nodes_eq, hr.entries, length_map]
  -- From L1 to L2, with L3 aside.
  obtain ⟨h₁, a₁, b₁, xs₁, ys₁, hrun₁, ha₁, hb₁, hdisj₁, hw₁⟩ :=
    linkedDemote_represents t.l1.entries.length h.l1 h.l2 hnodup.1
  obtain ⟨hc₁, hapart₁⟩ := h.l3.aside hw₁ fun k hk hmem => hnodup.2.2 k hmem k hk rfl
  have hdisj₂ : (ys₁ ++ ids₃).Nodup := nodup_append.mpr ⟨hb₁.holds.nodup, h.l3.holds.nodup,
    fun k hk l hl hkl => hapart₁ l hl (hkl ▸ mem_append_right _ hk)⟩
  -- From L2 to L3, with L1 aside.
  obtain ⟨h₂, b₂, c₂, ys₂, zs₂, hrun₂, hb₂, hc₂, hdisj₃, hw₂⟩ :=
    linkedDemote_represents (demoteLoop t.l1.entries.length t.l1 t.l2).2.entries.length hb₁ hc₁ hdisj₂
  obtain ⟨ha₂, hapart₂⟩ := ha₁.aside hw₂ fun k hk hmem => by
    rcases mem_append.mp hmem with hmem | hmem
    · exact (nodup_append.mp hdisj₁).2.2 k hk k hmem rfl
    · exact hapart₁ k hmem (mem_append_left _ hk)
  -- Out of L3, with L1 and L2 aside.
  obtain ⟨h₃, c₃, zs₃, hrun₃, hc₃, hw₃⟩ := linkedEvict_represents
    (demoteLoop (demoteLoop t.l1.entries.length t.l1 t.l2).2.entries.length
      (demoteLoop t.l1.entries.length t.l1 t.l2).2 t.l3).2.entries.length hc₂
  obtain ⟨ha₃, hapart₃⟩ := ha₂.aside hw₃ fun k hk hmem => hapart₂ k hk (mem_append_right _ hmem)
  obtain ⟨hb₃, hapart₃'⟩ := hb₂.aside hw₃ fun k hk hmem => (nodup_append.mp hdisj₃).2.2 k hk k hmem rfl
  have hall : (xs₁ ++ ys₂ ++ zs₃).Nodup := by
    refine nodup_append.mpr ⟨nodup_append.mpr ⟨ha₁.holds.nodup, hb₂.holds.nodup, fun k hk l hl hkl => ?_⟩,
      hc₃.holds.nodup, fun k hk l hl hkl => ?_⟩
    · exact hapart₂ k hk (hkl ▸ mem_append_left _ hl)
    · rcases mem_append.mp hk with hk | hk
      · exact hapart₃ k hk (hkl ▸ hl)
      · exact hapart₃' k hk (hkl ▸ hl)
  refine ⟨xs₁, ys₂, zs₃, ?_⟩
  have hcycle : linkedDemoteCycle c = { heap := h₃, l1 := a₁, l2 := b₂, l3 := c₃ } := by
    rw [linkedDemoteCycle, hlen h.l1, hrun₁]
    dsimp only
    rw [hlen hb₁, hrun₂]
    dsimp only
    rw [hlen hc₂, hrun₃]
  rw [hcycle]
  exact ⟨ha₃, hb₃, hc₃, hall⟩

end Calls

/-! ### Every sequence of calls -/

/-- A call of the cache. -/
inductive CacheCall where
  | putHot (key : EventKey) (data : List UInt8)
  | get (key : EventKey)
  | demoteCycle

/-- The cache after a call; `raf_hd_cache_get` changes nothing. -/
def CacheCall.run (c : LinkedCache) : CacheCall → LinkedCache
  | .putHot key data => (linkedPutHot c key data).1
  | .get _ => c
  | .demoteCycle => linkedDemoteCycle c

/-- The key of a `put_hot`. -/
def CacheCall.putKey : CacheCall → Option EventKey
  | .putHot key _ => some key
  | _ => none

/-- The entry that a successful `put_hot` puts. -/
def CacheCall.putEntry : CacheCall → Option CacheEntry
  | .putHot key data => if data.length = 0 then none else some { key := key, data := data }
  | _ => none

def Aged (t : TierCache) (puts : List CacheEntry) : Prop :=
  ∃ evicted, t.l1.entries ++ t.l2.entries ++ t.l3.entries ++ evicted = puts

/-- A tier whose two-way links and counters fit the list of its nodes. -/
structure Counted (h : TierHeap) (r : TierRecord) (ids : List ℕ) : Prop where
  holds : r.ends.Holds h.links ids
  used : r.used = (ids.map fun i => (h.entry i).data.length).sum
  count : r.count = ids.length % 2 ^ 32

def WithinBudgets (c : LinkedCache) : Prop :=
  c.l1.used ≤ c.l1.budget ∧ c.l2.used ≤ c.l2.budget ∧ c.l3.used ≤ c.l3.budget

section Runs

variable {c : LinkedCache} {ids₁ ids₂ ids₃ : List ℕ} {t : TierCache} {puts : List CacheEntry}

theorem Represents.counted {h : TierHeap} {r : TierRecord} {ids : List ℕ} {t : Tier} (hr : Represents h r ids t) :
    Counted h r ids := by
  refine ⟨hr.holds, ?_, ?_⟩
  · rw [hr.used, hr.sound.used, hr.entries, map_map]
    rfl
  · rw [hr.count, hr.sound.count, hr.entries, length_map]

theorem Aged.putHot {key : EventKey} {data : List UInt8} (h : Aged t puts) (hnew : key ∉ puts.map CacheEntry.key) :
    Aged (putHot t key data).1 ((CacheCall.putHot key data).putEntry.toList ++ puts) := by
  rw [Rafstore.putHot, CacheCall.putEntry]
  split
  · exact h
  · obtain ⟨evicted, hall⟩ := h
    have hkey : ∀ e ∈ t.l1.entries, e.key ≠ key := by
      rintro e he rfl
      refine hnew (mem_map_of_mem ?_)
      rw [← hall]
      simp only [mem_append, he, true_or]
    refine ⟨evicted, ?_⟩
    show (t.l1.put key data).entries ++ t.l2.entries ++ t.l3.entries ++ evicted = { key := key, data := data } :: puts
    rw [Tier.put_new hkey, ← hall]
    rfl

theorem Aged.demoteCycle (h : Aged t puts) (hkeys : (puts.map CacheEntry.key).Nodup) : Aged (demoteCycle t) puts := by
  obtain ⟨evicted, hall⟩ := h
  have hfirst : (demoteLoop t.l1.entries.length t.l1 t.l2).1.entries
      ++ (demoteLoop t.l1.entries.length t.l1 t.l2).2.entries = t.l1.entries ++ t.l2.entries := by
    refine demoteLoop_entries _ (hkeys.sublist (List.Sublist.map _ ?_))
    rw [← hall, append_assoc, append_assoc, ← append_assoc t.l1.entries]
    exact sublist_append_left _ _
  rw [Rafstore.demoteCycle]
  generalize demoteLoop t.l1.entries.length t.l1 t.l2 = r₁ at hfirst ⊢
  have hsecond : (demoteLoop r₁.2.entries.length r₁.2 t.l3).1.entries
      ++ (demoteLoop r₁.2.entries.length r₁.2 t.l3).2.entries = r₁.2.entries ++ t.l3.entries := by
    refine demoteLoop_entries _ (hkeys.sublist (List.Sublist.map _ ?_))
    rw [← hall, ← hfirst, append_assoc r₁.1.entries, append_assoc r₁.1.entries]
    exact (sublist_append_left _ _).trans (sublist_append_right _ _)
  generalize demoteLoop r₁.2.entries.length r₁.2 t.l3 = r₂ at hsecond ⊢
  obtain ⟨out, hout⟩ := evictLoop_entries r₂.2.entries.length r₂.2
  refine ⟨out ++ evicted, ?_⟩
  calc r₁.1.entries ++ r₂.1.entries ++ (evictLoop r₂.2.entries.length r₂.2).entries ++ (out ++ evicted)
      = r₁.1.entries ++ (r₂.1.entries ++ ((evictLoop r₂.2.entries.length r₂.2).entries ++ out)) ++ evicted := by
        simp only [append_assoc]
    _ = r₁.1.entries ++ r₁.2.entries ++ t.l3.entries ++ evicted := by
        rw [hout, hsecond, ← append_assoc r₁.1.entries]
    _ = puts := by rw [hfirst, hall]

theorem LinkedCache.Represents.within (h : c.Represents ids₁ ids₂ ids₃ t) : WithinBudgets (linkedDemoteCycle c) := by
  obtain ⟨xs, ys, zs, hafter⟩ := h.demoteCycle
  obtain ⟨hs₁, hs₂⟩ := demoteLoop_sound t.l1.entries.length h.l1.sound h.l2.sound
  obtain ⟨_, hs₃⟩ := demoteLoop_sound (demoteLoop t.l1.entries.length t.l1 t.l2).2.entries.length hs₂ h.l3.sound
  refine ⟨?_, ?_, ?_⟩
  · rw [hafter.l1.used, hafter.l1.budget]
    exact demoteLoop_within h.l1.sound (Nat.le_refl _) _
  · rw [hafter.l2.used, hafter.l2.budget]
    exact demoteLoop_within hs₂ (Nat.le_refl _) _
  · rw [hafter.l3.used, hafter.l3.budget]
    exact evictLoop_within hs₃ (Nat.le_refl _)

theorem CacheCall.run_keeps (call : CacheCall) (h : c.Represents ids₁ ids₂ ids₃ t) (haged : Aged t puts)
    (hkeys : (puts.map CacheEntry.key).Nodup) (hnew : ∀ key ∈ call.putKey, key ∉ puts.map CacheEntry.key) :
    ∃ ids₁' ids₂' ids₃' t', (call.run c).Represents ids₁' ids₂' ids₃' t' ∧ Aged t' (call.putEntry.toList ++ puts) := by
  cases call with
  | putHot key data =>
    obtain ⟨ids₁', hput⟩ := h.putHot key data
    exact ⟨ids₁', ids₂, ids₃, _, hput, haged.putHot (hnew key rfl)⟩
  | get key => exact ⟨ids₁, ids₂, ids₃, t, h, haged⟩
  | demoteCycle =>
    obtain ⟨ids₁', ids₂', ids₃', hcycle⟩ := h.demoteCycle
    exact ⟨ids₁', ids₂', ids₃', _, hcycle, haged.demoteCycle hkeys⟩

theorem CacheCall.putEntry_key {call : CacheCall} {e : CacheEntry} (h : call.putEntry = some e) :
    call.putKey = some e.key := by
  cases call with
  | putHot key data =>
    rw [putEntry] at h
    split at h
    · cases h
    · obtain rfl := Option.some.inj h
      rfl
  | get key => cases h
  | demoteCycle => cases h

theorem runCalls_keeps (calls : List CacheCall) (h : c.Represents ids₁ ids₂ ids₃ t) (haged : Aged t puts)
    (hkeys : (calls.filterMap CacheCall.putKey ++ puts.map key).Nodup) :
    ∃ ids₁' ids₂' ids₃' t', (calls.foldl CacheCall.run c).Represents ids₁' ids₂' ids₃' t'
      ∧ Aged t' ((calls.filterMap CacheCall.putEntry).reverse ++ puts) := by
  induction calls generalizing c ids₁ ids₂ ids₃ t puts with
  | nil => exact ⟨ids₁, ids₂, ids₃, t, h, haged⟩
  | cons call calls ih =>
    have hputs : (puts.map key).Nodup := (nodup_append.mp hkeys).2.1
    have hnew : ∀ key ∈ call.putKey, key ∉ puts.map CacheEntry.key := by
      intro key hkey hmem
      have hin : key ∈ (call :: calls).filterMap CacheCall.putKey :=
        mem_filterMap.mpr ⟨call, mem_cons_self, hkey⟩
      exact (nodup_append.mp hkeys).2.2 key hin key hmem rfl
    obtain ⟨xs, ys, zs, t', hrun, haged'⟩ := call.run_keeps h haged hputs hnew
    have hrest : (calls.filterMap CacheCall.putKey).Sublist ((call :: calls).filterMap CacheCall.putKey) :=
      (sublist_cons_self call calls).filterMap _
    cases hentry : call.putEntry with
    | none =>
      rw [hentry] at haged'
      rw [filterMap_cons_none hentry]
      exact ih hrun haged' (hkeys.sublist (hrest.append_right _))
    | some e =>
      rw [hentry] at haged'
      have hmove : (calls.filterMap CacheCall.putKey ++ (e :: puts).map key).Nodup := by
        rw [filterMap_cons_some (CacheCall.putEntry_key hentry)] at hkeys
        rw [map_cons, nodup_middle]
        exact hkeys
      obtain ⟨xs', ys', zs', u, hall, hagedAll⟩ := ih hrun haged' hmove
      refine ⟨xs', ys', zs', u, hall, ?_⟩
      rw [filterMap_cons_some hentry, reverse_cons, append_assoc]
      exact hagedAll

/-- **Every sequence of calls that puts no key twice.**  The counters and the two-way links of each tier fit its list of
nodes, a demotion would leave every tier within its budget, and the entries in L1, L2, L3 and those evicted are what was
put, from the newest to the oldest. -/
theorem runCalls_ordered (calls : List CacheCall) (hdistinct : (calls.filterMap CacheCall.putKey).Nodup) :
    ∃ ids₁ ids₂ ids₃ evicted,
      Counted (calls.foldl CacheCall.run linkedInit).heap (calls.foldl CacheCall.run linkedInit).l1 ids₁
      ∧ Counted (calls.foldl CacheCall.run linkedInit).heap (calls.foldl CacheCall.run linkedInit).l2 ids₂
      ∧ Counted (calls.foldl CacheCall.run linkedInit).heap (calls.foldl CacheCall.run linkedInit).l3 ids₃
      ∧ WithinBudgets (linkedDemoteCycle (calls.foldl CacheCall.run linkedInit))
      ∧ (ids₁ ++ ids₂ ++ ids₃).map (calls.foldl CacheCall.run linkedInit).heap.entry ++ evicted
          = (calls.filterMap CacheCall.putEntry).reverse := by
  have hkeys : (calls.filterMap CacheCall.putKey ++ [].map key).Nodup := by
    rwa [map_nil, append_nil]
  have haged : Aged cacheInit [] := ⟨[], rfl⟩
  obtain ⟨ids₁, ids₂, ids₃, t, hc, evicted, hall⟩ := runCalls_keeps calls linkedInit_represents haged hkeys
  refine ⟨ids₁, ids₂, ids₃, evicted, hc.l1.counted, hc.l2.counted, hc.l3.counted, hc.within, ?_⟩
  rw [append_nil] at hall
  rw [← hall, hc.l1.entries, hc.l2.entries, hc.l3.entries, map_append, map_append]

/-- Two keys, the older one looked up, and a demotion. -/
def twoPuts : List CacheCall :=
  [.putHot ⟨[97], [49]⟩ [1], .putHot ⟨[98], [49]⟩ [2, 3], .get ⟨[97], [49]⟩, .demoteCycle]

theorem runCalls_ordered_two :
    ∃ ids₁ ids₂ ids₃ evicted,
      Counted (twoPuts.foldl CacheCall.run linkedInit).heap (twoPuts.foldl CacheCall.run linkedInit).l1 ids₁
      ∧ Counted (twoPuts.foldl CacheCall.run linkedInit).heap (twoPuts.foldl CacheCall.run linkedInit).l2 ids₂
      ∧ Counted (twoPuts.foldl CacheCall.run linkedInit).heap (twoPuts.foldl CacheCall.run linkedInit).l3 ids₃
      ∧ WithinBudgets (linkedDemoteCycle (twoPuts.foldl CacheCall.run linkedInit))
      ∧ (ids₁ ++ ids₂ ++ ids₃).map (twoPuts.foldl CacheCall.run linkedInit).heap.entry ++ evicted
        = (twoPuts.filterMap CacheCall.putEntry).reverse :=
  runCalls_ordered twoPuts (by decide)

/-! ### The 32-bit counter -/

theorem runPuts_length {entries : List CacheEntry} (hdata : ∀ e ∈ entries, e.data ≠ [])
    (h : c.Represents ids₁ ids₂ ids₃ t) (hkeys : (entries.map key ++ t.l1.entries.map key).Nodup) :
    ∃ ids₁' t', ((entries.map fun e => CacheCall.putHot e.key e.data).foldl CacheCall.run c).Represents ids₁' ids₂ ids₃ t'
      ∧ t'.l1.entries.length = t.l1.entries.length + entries.length := by
  induction entries generalizing c ids₁ t with
  | nil => exact ⟨ids₁, t, h, rfl⟩
  | cons e entries ih =>
    obtain ⟨ids₁', hput⟩ := h.putHot e.key e.data
    have hne : ¬ e.data.length = 0 := fun hzero => hdata e mem_cons_self (length_eq_zero_iff.mp hzero)
    have hnew : ∀ e' ∈ t.l1.entries, e'.key ≠ e.key := fun e' he' heq =>
      (nodup_append.mp hkeys).2.2 e.key mem_cons_self e'.key (mem_map_of_mem he') heq.symm
    have hentries : (putHot t e.key e.data).1.l1.entries = e :: t.l1.entries := by
      rw [putHot, if_neg hne]
      show (t.l1.put e.key e.data).entries = _
      rw [Tier.put_new hnew]
      rfl
    have hmove : (entries.map key ++ (putHot t e.key e.data).1.l1.entries.map key).Nodup := by
      rw [hentries, map_cons, nodup_middle]
      exact hkeys
    obtain ⟨xs, t', hrun, hlen⟩ := ih (fun e' he' => hdata e' (mem_cons_of_mem e he')) hput hmove
    refine ⟨xs, t', hrun, ?_⟩
    rw [hlen, hentries, length_cons, length_cons]
    omega

def digits (n : ℕ) : List UInt8 := (range 32).map fun i => if n.testBit i then 0x31 else 0x30

theorem digits_inj {m n : ℕ} (hm : m < 2 ^ 32) (hn : n < 2 ^ 32) (h : digits m = digits n) : m = n := by
  refine Nat.eq_of_testBit_eq fun i => ?_
  by_cases hi : i < 32
  · have hget := (map_inj_left.mp h) i (mem_range.mpr hi)
    cases hbit : m.testBit i <;> cases hbit' : n.testBit i <;> simp_all
  · have hle : 2 ^ 32 ≤ 2 ^ i := Nat.pow_le_pow_right (by decide) (by omega)
    rw [Nat.testBit_lt_two_pow (by omega), Nat.testBit_lt_two_pow (by omega)]

/-- After 2^32 new keys without a demotion the counter of L1 is back at 0. -/
theorem count_wraps :
    ¬ ∀ calls : List CacheCall, (calls.filterMap CacheCall.putKey).Nodup →
      ∀ ids, (calls.foldl CacheCall.run linkedInit).l1.ends.Holds (calls.foldl CacheCall.run linkedInit).heap.links ids →
        (calls.foldl CacheCall.run linkedInit).l1.count = ids.length := by
  intro h
  have hkeys : (((range (2 ^ 32)).map fun n => mk ⟨[], digits n⟩ [0]).map key).Nodup := by
    rw [map_map]
    refine List.Nodup.map_on (fun m hm n hn heq => ?_) nodup_range
    exact digits_inj (mem_range.mp hm) (mem_range.mp hn) (EventKey.mk.inj heq).2
  have hdata : ∀ e ∈ (range (2 ^ 32)).map fun n => mk ⟨[], digits n⟩ [0], e.data ≠ [] := by
    intro e he
    obtain ⟨n, _, rfl⟩ := mem_map.mp he
    exact cons_ne_nil _ _
  have hlength : ((range (2 ^ 32)).map fun n => mk ⟨[], digits n⟩ [0]).length = 2 ^ 32 := by
    rw [length_map, length_range]
  generalize (range (2 ^ 32)).map (fun n => mk ⟨[], digits n⟩ [0]) = entries at hkeys hdata hlength
  have hputs : (entries.map fun e => CacheCall.putHot e.key e.data).filterMap CacheCall.putKey = entries.map key := by
    rw [filterMap_map]
    exact congrFun filterMap_eq_map entries
  obtain ⟨ids, t, hc, hlen⟩ := runPuts_length hdata linkedInit_represents (by rwa [show cacheInit.l1.entries = [] from rfl,
    map_nil, append_nil])
  have hcount := h _ (hputs ▸ hkeys) ids hc.l1.holds
  rw [hc.l1.counted.count] at hcount
  have hids : ids.length = 2 ^ 32 := by
    have hentries := congrArg length hc.l1.entries
    rw [hlen, hlength, length_map] at hentries
    exact hentries.symm.trans (Nat.zero_add _)
  omega

end Runs

end Rafstore
