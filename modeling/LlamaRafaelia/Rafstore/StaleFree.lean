import LlamaRafaelia.Rafstore.Pool

/-!
# Stale pointers and the memory pool

`raf_pool_free` looks for the first block that begins at the pointer and does not look at its `is_free`.  A pointer that is
no allocation any more is ignored when no block begins there, but while its block is in the list, free, the size of the
block is subtracted from `used_size` once more.

* **`stale_free_iff`** - the call leaves the pool as it is exactly if no free block begins at the pointer, and in a run of
  such calls `used_size` and `raf_pool_available` never wrap.
-/

namespace Rafstore

open Arena Linked

/-! ### Calls with any pointers -/

def FreeBlockAt (p : Pool) (ptr : ℕ) : Prop :=
  ∃ i ∈ p.nodes, (p.block i).data = ptr ∧ (p.block i).isFree = true ∧ (p.block i).size ≠ 0

/-- The pools that are reached from `raf_pool_create(n)` when `raf_pool_free` is called with any pointers.  The calls with a
pointer that is no live allocation meet `ok`. -/
inductive PoolCalls (n : ℕ) (ok : Pool → ℕ → Prop) : Pool → List (ℕ × ℕ) → Prop
  | create : PoolCalls n ok (poolCreate n) []
  | alloc {p : Pool} {live : List (ℕ × ℕ)} {k ptr : ℕ} (h : PoolCalls n ok p live)
      (hptr : (poolAlloc p k).2 = some ptr) : PoolCalls n ok (poolAlloc p k).1 ((ptr, k) :: live)
  | allocNull {p : Pool} {live : List (ℕ × ℕ)} {k : ℕ} (h : PoolCalls n ok p live)
      (hnull : (poolAlloc p k).2 = none) : PoolCalls n ok (poolAlloc p k).1 live
  | free {p : Pool} {live : List (ℕ × ℕ)} {k ptr : ℕ} (h : PoolCalls n ok p live) (hlive : (ptr, k) ∈ live) :
      PoolCalls n ok (poolFree p ptr) (live.erase (ptr, k))
  | freeStale {p : Pool} {live : List (ℕ × ℕ)} {ptr : ℕ} (h : PoolCalls n ok p live)
      (hstale : ∀ k, (ptr, k) ∉ live) (hok : ok p ptr) : PoolCalls n ok (poolFree p ptr) live
  | defragment {p : Pool} {live : List (ℕ × ℕ)} (h : PoolCalls n ok p live) : PoolCalls n ok (poolDefragment p) live

section Stale

variable {n k ptr : ℕ} {p : Pool} {live : List (ℕ × ℕ)} {l : List Span} {ok : Pool → ℕ → Prop}

theorem free_foreign (h : ∀ i ∈ p.nodes, (p.block i).data ≠ ptr) : poolFree p ptr = p := by
  have hfind : p.nodes.find? (fun i => (p.block i).data == ptr) = none := by
    rw [List.find?_eq_none]
    intro i hi hdata
    exact h i hi (beq_iff_eq.mp hdata)
  rw [poolFree, hfind]

theorem free_freed {i : ℕ} (hfind : p.nodes.find? (fun i => (p.block i).data == ptr) = some i)
    (hfree : (p.block i).isFree = true) :
    poolFree p ptr = { p with usedSize := (p.usedSize + 2 ^ 64 - (p.block i).size) % 2 ^ 64 } := by
  have hsame : { p.block i with isFree := true } = p.block i := by
    rw [← hfree]
  rw [poolFree, hfind]
  show ({ p with block := Function.update p.block i { p.block i with isFree := true }, usedSize := _ } : Pool) = _
  rw [hsame, Function.update_eq_self]

theorem PoolShape.setUsed (h : PoolShape n p live l) (used : ℕ) : PoolShape n { p with usedSize := used } live l := by
  obtain ⟨⟨ids, hids⟩, htiles, htotal, hperm⟩ := h
  exact ⟨⟨ids, hids.head, hids.seg, hids.nodup, hids.bound, hids.spans, hids.count⟩, htiles, htotal, hperm⟩

theorem PoolShape.freeStale (h : PoolShape n p live l) (hstale : ∀ k, (ptr, k) ∉ live) :
    ¬FreeBlockAt p ptr ∧ poolFree p ptr = p ∨
    FreeBlockAt p ptr ∧ ∃ size, 0 < size ∧ size ≤ n ∧
      poolFree p ptr = { p with usedSize := (p.usedSize + 2 ^ 64 - size) % 2 ^ 64 } := by
  obtain ⟨ids, hids⟩ := h.holds
  cases hfind : p.nodes.find? fun i => (p.block i).data == ptr with
  | none =>
    have hnone : ∀ i ∈ p.nodes, (p.block i).data ≠ ptr := by
      intro i hi hdata
      exact List.find?_eq_none.mp hfind i hi (beq_iff_eq.mpr hdata)
    refine Or.inl ⟨?_, free_foreign hnone⟩
    rintro ⟨i, hi, hdata, -⟩
    exact hnone i hi hdata
  | some i =>
    have hi : i ∈ p.nodes := List.mem_of_find?_eq_some hfind
    have hdata : (p.block i).data = ptr := by
      have hbeq := List.find?_some hfind
      exact beq_iff_eq.mp hbeq
    have hspan : (p.block i).span ∈ l := by
      rw [← hids.spans]
      rw [hids.nodes_eq] at hi
      exact List.mem_map_of_mem hi
    -- a block in use at the address would be a live allocation
    have hfree : (p.block i).isFree = true := by
      by_contra hused
      have htaken : (ptr, (p.block i).size) ∈ taken l :=
        (mem_taken).mpr ⟨_, hspan, Bool.eq_false_iff.mpr hused, by rw [← hdata]; rfl⟩
      exact hstale _ (h.perm.mem_iff.mpr htaken)
    have hbounds := h.tiles.mem_bounds hspan
    have hpos : 0 < (p.block i).size := hbounds.2.1
    have hle : (p.block i).data + (p.block i).size ≤ n := hbounds.2.2
    exact Or.inr ⟨⟨i, hi, hdata, hfree, hpos.ne'⟩, _, hpos, by omega, free_freed hfind hfree⟩

theorem PoolCalls.shape (hn : 1 ≤ n) (h : PoolCalls n ok p live) :
    (∃ l, PoolShape n p live l) ∧ p.usedSize < 2 ^ 64 := by
  have hword : ∀ a, a % 2 ^ 64 < 2 ^ 64 := fun a => Nat.mod_lt a (by decide)
  induction h with
  | create => exact ⟨⟨_, PoolShape.create hn⟩, Nat.two_pow_pos 64⟩
  | alloc _ hptr ih =>
    obtain ⟨⟨l, hl⟩, -⟩ := ih
    obtain ⟨l', hl', hused⟩ := hl.alloc hptr
    exact ⟨⟨l', hl'⟩, hused ▸ hword _⟩
  | allocNull _ hnull ih =>
    obtain ⟨⟨l, hl⟩, hlt⟩ := ih
    rw [hl.allocNull hnull]
    exact ⟨⟨l, hl⟩, hlt⟩
  | free _ hlive ih =>
    obtain ⟨⟨l, hl⟩, -⟩ := ih
    obtain ⟨hl', hused⟩ := hl.free hlive
    exact ⟨⟨_, hl'⟩, hused ▸ hword _⟩
  | freeStale _ hstale _ ih =>
    obtain ⟨⟨l, hl⟩, hlt⟩ := ih
    rcases hl.freeStale hstale with ⟨-, hsame⟩ | ⟨-, size, -, -, hsame⟩
    · rw [hsame]
      exact ⟨⟨l, hl⟩, hlt⟩
    · rw [hsame]
      exact ⟨⟨l, hl.setUsed _⟩, hword _⟩
  | defragment _ ih =>
    obtain ⟨⟨l, hl⟩, hlt⟩ := ih
    exact ⟨⟨_, hl.defragment⟩, hl.holds.defragment.2.1 ▸ hlt⟩

theorem PoolCalls.inv (hn : 1 ≤ n) (hn64 : n < 2 ^ 64) (h : PoolCalls n (fun p ptr => ¬FreeBlockAt p ptr) p live) :
    ∃ l, PoolInv n p live l := by
  induction h with
  | create => exact ⟨_, PoolInv.create hn⟩
  | alloc _ hptr ih =>
    obtain ⟨l, hl⟩ := ih
    exact hl.alloc hn64 hptr
  | allocNull _ hnull ih =>
    obtain ⟨l, hl⟩ := ih
    rw [hl.toPoolShape.allocNull hnull]
    exact ⟨l, hl⟩
  | free _ hlive ih =>
    obtain ⟨l, hl⟩ := ih
    exact ⟨_, hl.free hn64 hlive⟩
  | freeStale _ hstale hok ih =>
    obtain ⟨l, hl⟩ := ih
    rcases hl.toPoolShape.freeStale hstale with ⟨-, hsame⟩ | ⟨hblock, -⟩
    · rw [hsame]
      exact ⟨l, hl⟩
    · exact absurd hblock hok
  | defragment _ ih =>
    obtain ⟨l, hl⟩ := ih
    exact ⟨_, hl.defragment⟩

theorem PoolCalls.empty (h : PoolCalls 0 ok p live) : p = poolCreate 0 ∧ live = [] := by
  have hnone : ∀ k, poolAlloc (poolCreate 0) k = (poolCreate 0, none) := by
    intro k
    cases k with
    | zero => rfl
    | succ k => rfl
  induction h with
  | create => exact ⟨rfl, rfl⟩
  | alloc _ hptr ih =>
    rw [ih.1, hnone] at hptr
    cases hptr
  | allocNull _ _ ih =>
    rw [ih.1, hnone]
    exact ⟨rfl, ih.2⟩
  | free _ hlive ih =>
    rw [ih.2] at hlive
    cases hlive
  | @freeStale p live ptr _ _ _ ih =>
    obtain ⟨rfl, rfl⟩ := ih
    refine ⟨?_, rfl⟩
    by_cases hptr : ptr = 0
    · subst hptr
      exact free_freed (p := poolCreate 0) (i := 0) rfl rfl
    · exact free_foreign fun i hi hdata => hptr hdata.symm
  | defragment _ ih =>
    rw [ih.1]
    exact ⟨rfl, ih.2⟩

end Stale

/-- **A stale pointer is ignored unless a free block begins there.**  In every pool that is reached with arbitrary
pointers, `raf_pool_free` with a pointer that is no live allocation leaves the pool as it is exactly if no free block of at
least a byte begins at the pointer; and in a run all of whose calls are so `used_size` is what is allocated, which is at
most the size of the pool, and `raf_pool_available` is at most that size. -/
theorem stale_free_iff {n : ℕ} (hn64 : n < 2 ^ 64) :
    (∀ p live, PoolCalls n (fun _ _ => True) p live → ∀ ptr, (∀ k, (ptr, k) ∉ live) →
      (poolFree p ptr = p ↔ ¬FreeBlockAt p ptr)) ∧
    ∀ p live, PoolCalls n (fun p ptr => ¬FreeBlockAt p ptr) p live →
      p.usedSize = (live.map Prod.snd).sum ∧ p.usedSize ≤ p.totalSize ∧ poolAvailable p ≤ p.totalSize := by
  by_cases hn : n = 0
  · subst hn
    constructor
    · intro p live h ptr _
      have hstay : PoolCalls 0 (fun _ _ => True) (poolFree p ptr) live := h.freeStale (by rw [h.empty.2]; simp) trivial
      rw [h.empty.1] at hstay ⊢
      refine iff_of_true hstay.empty.1 ?_
      rintro ⟨i, -, -, -, hsize⟩
      exact hsize rfl
    · intro p live h
      obtain ⟨rfl, rfl⟩ := h.empty
      exact ⟨rfl, le_rfl, by decide⟩
  have hpos : 1 ≤ n := Nat.one_le_iff_ne_zero.mpr hn
  constructor
  · intro p live h ptr hstale
    obtain ⟨⟨l, hl⟩, hlt⟩ := h.shape hpos
    rcases hl.freeStale hstale with ⟨hnot, hsame⟩ | ⟨hblock, size, hsize, hle, hsame⟩
    · exact iff_of_true hsame hnot
    · refine iff_of_false ?_ (not_not_intro hblock)
      rw [hsame]
      intro heq
      have hused : (p.usedSize + 2 ^ 64 - size) % 2 ^ 64 = p.usedSize := congrArg Pool.usedSize heq
      omega
  · intro p live h
    obtain ⟨l, hl⟩ := h.inv hpos hn64
    have hle := hl.sum_le
    refine ⟨hl.used, ?_, ?_⟩
    · rw [hl.used, hl.total]
      exact hle
    · rw [poolAvailable, hl.used, hl.total, show n + 2 ^ 64 - (live.map Prod.snd).sum
        = n - (live.map Prod.snd).sum + 2 ^ 64 by omega, Nat.add_mod_right, Nat.mod_eq_of_lt (by omega)]
      exact Nat.sub_le _ _

/-- The pool of eight bytes after three of them were allocated and freed. -/
def freedPool : Pool := poolFree (poolAlloc (poolCreate 8) 3).1 0

theorem freedPool_calls : PoolCalls 8 (fun _ _ => True) freedPool [] := by
  have hrun : PoolCalls 8 (fun _ _ => True) (poolAlloc (poolCreate 8) 3).1 [(0, 3)] := .alloc .create (by decide)
  exact PoolCalls.free (k := 3) hrun (by decide)

/-- A pointer into the pool at which no block begins. -/
theorem stale_free_interior : (poolFree freedPool 1 = freedPool ↔ ¬FreeBlockAt freedPool 1) ∧
    ∀ p live, PoolCalls 8 (fun p ptr => ¬FreeBlockAt p ptr) p live → poolAvailable p ≤ p.totalSize := by
  obtain ⟨hcall, hrun⟩ := stale_free_iff (show 8 < 2 ^ 64 by decide)
  exact ⟨hcall freedPool [] freedPool_calls 1 (fun k => List.not_mem_nil), fun p live h => (hrun p live h).2.2⟩

/-- Freeing them again makes `used_size` wrap. -/
theorem double_free_wraps : PoolCalls 8 (fun _ _ => True) freedPool [] ∧
    (poolFree freedPool 0).usedSize = 2 ^ 64 - 3 ∧ poolAvailable (poolFree freedPool 0) = 11 ∧
    poolFree freedPool 0 ≠ freedPool := by
  refine ⟨freedPool_calls, by decide, by decide, ?_⟩
  intro heq
  exact absurd (congrArg Pool.usedSize heq) (by decide)

end Rafstore
