import Mathlib.Data.Nat.Notation
import Mathlib.Data.List.Basic
import Mathlib.Logic.Function.Basic
import Mathlib.Algebra.GroupWithZero.Nat

/-!
# The three cache tiers

Each tier is a list of entries with a byte budget.  `raf_hd_cache_get` looks into L1, L2 and L3, and
`raf_hd_cache_demote_cycle` moves the entries at the tail of a tier over its budget into the next one.  Both insertion
and demotion go through `tier_put`, which **keeps the old data** when the key is already there.

* `cache_latest_run` - a hit is the last data put, as long as no `put_hot` meets another copy of its key.
-/

namespace Rafstore

open List Function

/-- `raf_hd_event_key_t`: two C strings, compared by `raf_hd_key_cmp` up to their ends. -/
structure EventKey where
  layer : List UInt8
  eid : List UInt8
  deriving DecidableEq, Repr

/-- `raf_hd_cache_entry_t`. -/
structure CacheEntry where
  key : EventKey
  data : List UInt8
  deriving DecidableEq, Repr

/-- `raf_hd_cache_tier_t`, its list read from `head` to `tail`. -/
structure Tier where
  budget : ℕ
  used : ℕ
  entries : List CacheEntry
  count : ℕ
  deriving DecidableEq, Repr

namespace Tier

/-- `tier_init`. -/
def init (budget : ℕ) : Tier := { budget := budget, used := 0, entries := [], count := 0 }

/-- `tier_find`. -/
def find (t : Tier) (key : EventKey) : Option CacheEntry := t.entries.find? fun e => e.key == key

/-- `tier_remove` of an entry whose removal leaves the list `rest`. -/
def remove (t : Tier) (entry : CacheEntry) (rest : List CacheEntry) : Tier :=
  { t with used := t.used - entry.data.length, entries := rest, count := t.count - 1 }

/-- `tier_add_head`. -/
def addHead (t : Tier) (entry : CacheEntry) : Tier :=
  { t with used := t.used + entry.data.length, entries := entry :: t.entries, count := t.count + 1 }

/-- `tier_put`. -/
def put (t : Tier) (key : EventKey) (data : List UInt8) : Tier :=
  match t.find key with
  -- already there: moved to the head as it is
  | some existing => (t.remove existing (t.entries.eraseP fun e => e.key == key)).addHead existing
  | none => t.addHead { key := key, data := data }

/-- `tier_pop_tail`. -/
def popTail (t : Tier) : Option (CacheEntry × Tier) :=
  t.entries.getLast?.map fun entry => (entry, t.remove entry t.entries.dropLast)

end Tier

/-- `raf_hd_l123_cache_t`. -/
structure TierCache where
  l1 : Tier
  l2 : Tier
  l3 : Tier
  deriving DecidableEq, Repr

/-- `raf_hd_cache_init`. -/
def cacheInit : TierCache where
  l1 := Tier.init (2 * 1024 * 1024)
  l2 := Tier.init (16 * 1024 * 1024)
  l3 := Tier.init (128 * 1024 * 1024)

/-- `raf_hd_cache_put_hot`: the cache and whether it succeeded. -/
def putHot (c : TierCache) (key : EventKey) (data : List UInt8) : TierCache × Bool :=
  if data.length = 0 then (c, false) else ({ c with l1 := c.l1.put key data }, true)

/-- `raf_hd_cache_get`. -/
def cacheGet (c : TierCache) (key : EventKey) : Option (List UInt8) :=
  match c.l1.find key with
  | some entry => some entry.data
  | none =>
    match c.l2.find key with
    | some entry => some entry.data
    | none =>
      match c.l3.find key with
      | some entry => some entry.data
      | none => none

/-- A demotion loop from the tier `src` to the tier `dst`.  Each turn takes an entry out of `src`, so as many turns
as there are entries reach the end of the loop. -/
def demoteLoop : ℕ → Tier → Tier → Tier × Tier
  | 0, src, dst => (src, dst)
  | fuel + 1, src, dst =>
    if src.budget < src.used then
      match src.popTail with
      | none => (src, dst)
      | some (entry, src') => demoteLoop fuel src' (dst.put entry.key entry.data)
    else (src, dst)

def evictLoop : ℕ → Tier → Tier
  | 0, t => t
  | fuel + 1, t =>
    if t.budget < t.used then
      match t.popTail with
      | none => t
      | some (_, t') => evictLoop fuel t'
    else t

/-- `raf_hd_cache_demote_cycle`. -/
def demoteCycle (c : TierCache) : TierCache :=
  let r₁ := demoteLoop c.l1.entries.length c.l1 c.l2
  let r₂ := demoteLoop r₁.2.entries.length r₁.2 c.l3
  { l1 := r₁.1, l2 := r₂.1, l3 := evictLoop r₂.2.entries.length r₂.2 }

/-! ### What the tiers hold -/

/-- Every entry of the tier satisfies `Q`. -/
def Tier.All (Q : CacheEntry → Prop) (t : Tier) : Prop := ∀ e ∈ t.entries, Q e

/-- Every entry of every tier satisfies `Q`. -/
def TierCache.All (Q : CacheEntry → Prop) (c : TierCache) : Prop := c.l1.All Q ∧ c.l2.All Q ∧ c.l3.All Q

section Entries

variable {Q : CacheEntry → Prop} {t src dst : Tier} {c : TierCache} {key : EventKey} {data : List UInt8}

theorem Tier.All.put (h : t.All Q) (hnew : Q { key := key, data := data }) : (t.put key data).All Q := by
  intro e he
  rw [Tier.put] at he
  cases hfind : t.find key with
  | none =>
    rw [hfind] at he
    rcases mem_cons.1 he with rfl | he
    · exact hnew
    · exact h e he
  | some existing =>
    rw [hfind] at he
    rcases mem_cons.1 he with rfl | he
    · exact h e (mem_of_find?_eq_some hfind)
    · exact h e (mem_of_mem_eraseP he)

theorem Tier.popTail_spec {entry : CacheEntry} (h : src.popTail = some (entry, t)) :
    src.entries = t.entries ++ [entry] := by
  rw [Tier.popTail, Option.map_eq_some_iff] at h
  obtain ⟨last, hlast, heq⟩ := h
  rw [Prod.mk.injEq] at heq
  obtain ⟨rfl, rfl⟩ := heq
  exact (dropLast_append_getLast? last hlast).symm

theorem demoteLoop_all (fuel : ℕ) (hsrc : src.All Q) (hdst : dst.All Q) :
    (demoteLoop fuel src dst).1.All Q ∧ (demoteLoop fuel src dst).2.All Q := by
  induction fuel generalizing src dst with
  | zero => exact ⟨hsrc, hdst⟩
  | succ fuel ih =>
    rw [demoteLoop]
    split
    · split
      · exact ⟨hsrc, hdst⟩
      · rename_i entry src' hpop
        have hsplit := Tier.popTail_spec hpop
        apply ih
        · intro e he
          exact hsrc e (by rw [hsplit]; exact mem_append_left _ he)
        · apply hdst.put
          exact hsrc entry (by rw [hsplit]; exact mem_append_right _ mem_cons_self)
    · exact ⟨hsrc, hdst⟩

theorem evictLoop_all {fuel : ℕ} (h : t.All Q) : (evictLoop fuel t).All Q := by
  induction fuel generalizing t with
  | zero => exact h
  | succ fuel ih =>
    rw [evictLoop]
    split
    · split
      · exact h
      · rename_i entry t' hpop
        have hsplit := Tier.popTail_spec hpop
        apply ih
        intro e he
        exact h e (by rw [hsplit]; exact mem_append_left _ he)
    · exact h

theorem TierCache.All.putHot (h : c.All Q) (hnew : Q { key := key, data := data }) : (putHot c key data).1.All Q := by
  rw [Rafstore.putHot]
  split
  · exact h
  · exact ⟨h.1.put hnew, h.2⟩

theorem TierCache.All.demoteCycle (h : c.All Q) : (demoteCycle c).All Q := by
  obtain ⟨h₁, h₂⟩ := demoteLoop_all c.l1.entries.length h.1 h.2.1
  obtain ⟨h₂', h₃⟩ := demoteLoop_all (demoteLoop c.l1.entries.length c.l1 c.l2).2.entries.length h₂ h.2.2
  exact ⟨h₁, h₂', evictLoop_all h₃⟩

theorem TierCache.All.cacheGet (h : c.All Q) (hget : cacheGet c key = some data) :
    Q { key := key, data := data } := by
  have hfound : ∀ {t : Tier} {e : CacheEntry}, t.All Q → t.find key = some e → Q { key := key, data := e.data } := by
    intro t e ht hfind
    have hkey : e.key = key := by simpa using find?_some hfind
    have hq := ht e (mem_of_find?_eq_some hfind)
    rw [← hkey]
    exact hq
  rw [Rafstore.cacheGet] at hget
  split at hget
  · rename_i e hfind
    cases hget
    exact hfound h.1 hfind
  · split at hget
    · rename_i e hfind
      cases hget
      exact hfound h.2.1 hfind
    · split at hget
      · rename_i e hfind
        cases hget
        exact hfound h.2.2 hfind
      · cases hget

end Entries

/-! ### Every run -/

/-- The caches reached by `put_hot`, `get` and `demote_cycle`, with the data of the most recent successful `put_hot`
of each key.  `P` is asked of every `put_hot`. -/
inductive TierRun (P : TierCache → EventKey → List UInt8 → Prop) : TierCache → (EventKey → Option (List UInt8)) → Prop
  | init : TierRun P cacheInit fun _ => none
  | put {c : TierCache} {last : EventKey → Option (List UInt8)} {key : EventKey} {data : List UInt8}
      (h : TierRun P c last) (hput : P c key data) : TierRun P (putHot c key data).1
        (if (putHot c key data).2 then update last key (some data) else last)
  | demote {c : TierCache} {last : EventKey → Option (List UInt8)} (h : TierRun P c last) :
      TierRun P (demoteCycle c) last

def Agrees (c : TierCache) (key : EventKey) (data : List UInt8) : Prop := c.All fun e => e.key = key → e.data = data

theorem TierRun.copies_latest {c : TierCache} {last : EventKey → Option (List UInt8)} (h : TierRun Agrees c last) :
    c.All fun e => last e.key = some e.data := by
  induction h with
  | init => exact ⟨fun e he => absurd he not_mem_nil, fun e he => absurd he not_mem_nil,
      fun e he => absurd he not_mem_nil⟩
  | @put c last key data _ hput ih =>
    cases hok : (putHot c key data).2 with
    | false =>
      have hsame : (putHot c key data).1 = c := by
        rw [putHot] at hok ⊢
        by_cases hempty : data.length = 0
        · rw [if_pos hempty]
        · rw [if_neg hempty] at hok
          cases hok
      rw [hsame]
      exact ih
    | true =>
      rw [if_pos rfl]
      apply TierCache.All.putHot _ (update_self _ _ _)
      -- an old copy of the key has the new data, another key keeps its own
      have hstep : ∀ {t : Tier}, t.All (fun e => last e.key = some e.data) →
          t.All (fun e => e.key = key → e.data = data) →
          t.All fun e => update last key (some data) e.key = some e.data := by
        intro t hlast hagree e he
        by_cases hkey : e.key = key
        · rw [hkey, update_self, hagree e he hkey]
        · rw [update_of_ne hkey]
          exact hlast e he
      exact ⟨hstep ih.1 hput.1, hstep ih.2.1 hput.2.1, hstep ih.2.2 hput.2.2⟩
  | demote _ ih => exact ih.demoteCycle

/-- **Runs in which no `put_hot` meets another copy of its key.**  Whenever `raf_hd_cache_get` succeeds, it returns
the data of the most recent `put_hot` of that key. -/
theorem cache_latest_run {c : TierCache} {last : EventKey → Option (List UInt8)} (h : TierRun Agrees c last)
    (key : EventKey) (data : List UInt8) (hget : cacheGet c key = some data) : last key = some data :=
  h.copies_latest.cacheGet hget

/-- One key put twice with the same data. -/
theorem cache_latest_run_twice :
    ∃ last, TierRun Agrees (putHot (putHot cacheInit ⟨[97], [49]⟩ [1]).1 ⟨[97], [49]⟩ [1]).1 last ∧
      last ⟨[97], [49]⟩ = some [1] := by
  have hget : cacheGet (putHot (putHot cacheInit ⟨[97], [49]⟩ [1]).1 ⟨[97], [49]⟩ [1]).1 ⟨[97], [49]⟩ = some [1] := by
    decide
  have hfirst : Agrees cacheInit ⟨[97], [49]⟩ [1] :=
    ⟨fun e he => absurd he not_mem_nil, fun e he => absurd he not_mem_nil,
      fun e he => absurd he not_mem_nil⟩
  have hsecond : Agrees (putHot cacheInit ⟨[97], [49]⟩ [1]).1 ⟨[97], [49]⟩ [1] := hfirst.putHot fun _ => rfl
  have hrun := (TierRun.init.put hfirst).put hsecond
  exact ⟨_, hrun, cache_latest_run hrun _ _ hget⟩

/-- A second `put_hot` of a key is lost: `get` returns the data of the first. -/
theorem update_lost :
    ¬∀ (c : TierCache) (last : EventKey → Option (List UInt8)), TierRun (fun _ _ _ => True) c last →
      ∀ key data, cacheGet c key = some data → last key = some data := by
  intro h
  have hrun : TierRun (fun _ _ _ => True) (putHot (putHot cacheInit ⟨[97], [49]⟩ [1]).1 ⟨[97], [49]⟩ [2]).1
      (update (update (fun _ => none) ⟨[97], [49]⟩ (some [1])) ⟨[97], [49]⟩ (some [2])) :=
    (TierRun.init.put trivial).put trivial
  have hget : cacheGet (putHot (putHot cacheInit ⟨[97], [49]⟩ [1]).1 ⟨[97], [49]⟩ [2]).1 ⟨[97], [49]⟩ = some [1] := by
    decide
  have hlast := h _ _ hrun _ _ hget
  rw [update_self] at hlast
  exact absurd hlast (by decide)

end Rafstore
