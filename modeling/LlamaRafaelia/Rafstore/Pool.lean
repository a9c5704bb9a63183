import LlamaRafaelia.Lib.Arena
import LlamaRafaelia.Lib.Linked

/-!
# The memory pool of RAFSTORE

`raf_pool_create` describes one arena by a doubly linked list of block records, each allocated on its own: the records
have an address space (`Pool.block`) with the pointers stored in them.  Pointers into the arena are offsets, and
`used_size` is a word of 64 bits.

* `Pool.Holds p l` - **the refinement relation**: following the pointers from `pool->blocks` one reads blocks
  that describe the spans `l`, linked both ways, and `block_count` is their number.
-/

namespace Rafstore

open Arena Linked Function

/-- `raf_memory_block`. -/
structure Block where
  data : ℕ
  size : ℕ
  isFree : Bool
  next : Option ℕ
  prev : Option ℕ
  deriving DecidableEq, Repr

/-- `raf_memory_pool`, with the address space of its block records. -/
structure Pool where
  block : ℕ → Block
  fresh : ℕ
  blocks : Option ℕ
  totalSize : ℕ
  usedSize : ℕ
  blockCount : ℕ

/-- `raf_pool_create`: one free block over the whole arena. -/
def poolCreate (size : ℕ) : Pool where
  block := fun _ => { data := 0, size := size, isFree := true, next := none, prev := none }
  fresh := 1
  blocks := some 0
  totalSize := size
  usedSize := 0
  blockCount := 1

namespace Pool

/-- The block records that the loops `while (current)` visit, from `pool->blocks` on. -/
def nodes (p : Pool) : List ℕ := read (fun i => (p.block i).next) p.fresh p.blocks

/-- `if (ptr) ptr->prev = target`. -/
def setPrev (block : ℕ → Block) (ptr : Option ℕ) (target : ℕ) : ℕ → Block :=
  match ptr with
  | none => block
  | some k => update block k { block k with prev := some target }

/-- `new_block`: what is left of the block at `current` behind the first `size` bytes. -/
def newBlock (p : Pool) (current size : ℕ) : Block where
  data := (p.block current).data + size
  size := (p.block current).size - size
  isFree := true
  next := (p.block current).next
  prev := some current

/-- The branch of `raf_pool_alloc` for a block larger than the request: a new record for the rest. -/
def split (p : Pool) (current size : ℕ) : Pool :=
  let block₁ := update p.block p.fresh (p.newBlock current size)
  let block₂ := setPrev block₁ (p.block current).next p.fresh
  { p with
    block := update block₂ current { block₂ current with next := some p.fresh, size := size }
    fresh := p.fresh + 1
    blockCount := p.blockCount + 1 }

/-- `current->is_free = 0; pool->used_size += size`. -/
def occupy (p : Pool) (current size : ℕ) : Pool :=
  { p with
    block := update p.block current { p.block current with isFree := false }
    usedSize := (p.usedSize + size) % 2 ^ 64 }

/-- The merge of `current` with the free block `next` behind it. -/
def merge (p : Pool) (current next : ℕ) : Pool :=
  let block₁ := update p.block current
    { p.block current with size := (p.block current).size + (p.block next).size, next := (p.block next).next }
  { p with
    block := setPrev block₁ (p.block next).next current
    blockCount := p.blockCount - 1 }

end Pool

/-- `raf_pool_alloc`: first fit, `none` for `NULL`. -/
def poolAlloc (p : Pool) (size : ℕ) : Pool × Option ℕ :=
  if size = 0 then (p, none)
  else
    match p.nodes.find? fun i => (p.block i).isFree && decide (size ≤ (p.block i).size) with
    | none => (p, none)
    | some current =>
      let q := if size < (p.block current).size then p.split current size else p
      (q.occupy current size, some (p.block current).data)

/-- `raf_pool_free`: the first block at the address. -/
def poolFree (p : Pool) (ptr : ℕ) : Pool :=
  match p.nodes.find? fun i => (p.block i).data == ptr with
  | none => p
  | some current =>
    { p with
      block := update p.block current { p.block current with isFree := true }
      usedSize := (p.usedSize + 2 ^ 64 - (p.block current).size) % 2 ^ 64 }

/-- The loop of `raf_pool_defragment`. -/
def defragmentLoop : ℕ → Pool → Option ℕ → Pool
  | 0, p, _ => p
  | _ + 1, p, none => p
  | fuel + 1, p, some current =>
    match (p.block current).next with
    | none => p
    | some next =>
      if (p.block current).isFree && (p.block next).isFree then
        -- `continue`: the same block is looked at again
        defragmentLoop fuel (p.merge current next) (some current)
      else defragmentLoop fuel p (some next)

/-- `raf_pool_defragment`. -/
def poolDefragment (p : Pool) : Pool := defragmentLoop p.fresh p p.blocks

/-- `raf_pool_available`. -/
def poolAvailable (p : Pool) : ℕ := (p.totalSize + 2 ^ 64 - p.usedSize) % 2 ^ 64

/-! ### The refinement relation -/

def Block.span (b : Block) : Span := { data := b.data, size := b.size, isFree := b.isFree }

namespace Pool

def links (p : Pool) : Links ℕ := ⟨fun i => (p.block i).next, fun i => (p.block i).prev⟩

/-- The records `ids` are the block list, and they describe the spans `l`. -/
structure Lists (p : Pool) (ids : List ℕ) (l : List Span) : Prop where
  head : p.blocks = entry ids none
  seg : Seg p.links none ids none
  nodup : ids.Nodup
  bound : ∀ i ∈ ids, i < p.fresh
  spans : ids.map (fun i => (p.block i).span) = l
  count : p.blockCount = ids.length

/-- The block list describes the spans `l`. -/
def Holds (p : Pool) (l : List Span) : Prop := ∃ ids, p.Lists ids l

theorem Lists.length_le {p : Pool} {ids : List ℕ} {l : List Span} (h : p.Lists ids l) : ids.length ≤ p.fresh := by
  have hsub : ids ⊆ List.range p.fresh := fun i hi => List.mem_range.2 (h.bound i hi)
  simpa using (List.subperm_of_subset h.nodup hsub).length_le

theorem Lists.nodes_eq {p : Pool} {ids : List ℕ} {l : List Span} (h : p.Lists ids l) : p.nodes = ids := by
  rw [nodes, h.head]
  exact h.seg.read_eq h.length_le

theorem setPrev_next (block : ℕ → Block) (ptr : Option ℕ) (i k : ℕ) :
    (setPrev block ptr i k).next = (block k).next := by
  cases ptr with
  | none => rfl
  | some j =>
    by_cases hk : k = j
    · subst hk
      simp [setPrev]
    · simp [setPrev, hk]

theorem setPrev_span (block : ℕ → Block) (ptr : Option ℕ) (i k : ℕ) :
    (setPrev block ptr i k).span = (block k).span := by
  cases ptr with
  | none => rfl
  | some j =>
    by_cases hk : k = j
    · subst hk
      simp [setPrev, Block.span]
    · simp [setPrev, hk]

theorem setPrev_prev (block : ℕ → Block) (ptr : Option ℕ) (i k : ℕ) :
    (setPrev block ptr i k).prev = Linked.setPrev (fun j => (block j).prev) ptr i k := by
  cases ptr with
  | none => rfl
  | some j =>
    by_cases hk : k = j
    · subst hk
      simp [setPrev, Linked.setPrev]
    · simp [setPrev, Linked.setPrev, hk]

/-! ### The pointer updates -/

theorem split_links (p : Pool) (i k : ℕ) : (p.split i k).links = insertAfter p.links i p.fresh := by
  ext1
  · funext x
    by_cases hx : x = i
    · subst hx
      simp [links, split, insertAfter]
    · by_cases hf : x = p.fresh
      · subst hf
        simp [links, split, insertAfter, hx, setPrev_next, newBlock]
      · simp [links, split, insertAfter, hx, hf, setPrev_next]
  · have hprev : (fun x => (update p.block p.fresh (p.newBlock i k) x).prev)
        = update (fun x => (p.block x).prev) p.fresh (some i) := by
      funext x
      by_cases hf : x = p.fresh
      · subst hf
        simp [newBlock]
      · simp [hf]
    funext x
    show ((p.split i k).block x).prev
      = Linked.setPrev (update (fun x => (p.block x).prev) p.fresh (some i)) (p.block i).next p.fresh x
    rw [← hprev, ← setPrev_prev]
    by_cases hx : x = i
    · subst hx
      simp [split]
    · simp [split, hx]

theorem merge_links (p : Pool) (i j : ℕ) : (p.merge i j).links = unlink p.links i j := by
  ext1
  · funext x
    show ((p.merge i j).block x).next = _
    simp only [merge, setPrev_next]
    by_cases hx : x = i
    · subst hx
      simp [unlink, links]
    · simp [unlink, links, hx]
  · funext x
    show ((p.merge i j).block x).prev = _
    simp only [merge, setPrev_prev, unlink, links]
    congr 1
    funext y
    by_cases hy : y = i
    · subst hy
      simp
    · simp [hy]

theorem links_update {p q : Pool} {i : ℕ} {b : Block} (hq : q.block = update p.block i b)
    (hnext : b.next = (p.block i).next) (hprev : b.prev = (p.block i).prev) : q.links = p.links := by
  ext1
  · funext x
    by_cases hx : x = i
    · subst hx
      simp [links, hq, hnext]
    · simp [links, hq, hx]
  · funext x
    by_cases hx : x = i
    · subst hx
      simp [links, hq, hprev]
    · simp [links, hq, hx]

/-! ### The blocks after an update -/

theorem split_span_self {p : Pool} {i : ℕ} (k : ℕ) (hi : i < p.fresh) :
    ((p.split i k).block i).span = { (p.block i).span with size := k } := by
  have hne : i ≠ p.fresh := Nat.ne_of_lt hi
  have hrest : (setPrev (update p.block p.fresh (p.newBlock i k)) (p.block i).next p.fresh i).span
      = (p.block i).span := by
    rw [setPrev_span, update_of_ne hne]
  rw [← hrest]
  simp [split, Block.span]

theorem split_span_fresh {p : Pool} {i : ℕ} (k : ℕ) (hi : i < p.fresh) : ((p.split i k).block p.fresh).span
    = { data := (p.block i).data + k, size := (p.block i).size - k, isFree := true } := by
  have hne : p.fresh ≠ i := Nat.ne_of_gt hi
  simp only [split]
  rw [update_of_ne hne, setPrev_span, update_self]
  rfl

theorem split_span_of_ne {p : Pool} {i x : ℕ} (k : ℕ) (hi : x ≠ i) (hf : x ≠ p.fresh) :
    ((p.split i k).block x).span = (p.block x).span := by
  simp only [split]
  rw [update_of_ne hi, setPrev_span, update_of_ne hf]

theorem merge_span_self (p : Pool) (i j : ℕ) :
    ((p.merge i j).block i).span = (p.block i).span.join (p.block j).span := by
  simp only [merge, setPrev_span, update_self]
  rfl

theorem merge_span_of_ne {p : Pool} {i j x : ℕ} (hx : x ≠ i) :
    ((p.merge i j).block x).span = (p.block x).span := by
  simp only [merge, setPrev_span, update_of_ne hx]

/-! ### The operations do what the arena does -/

section Refinement

variable {p : Pool} {ids xs ys : List ℕ} {l : List Span} {i j k : ℕ}

theorem ne_of_nodup (hnd : (xs ++ i :: ys).Nodup) : (∀ x ∈ xs, x ≠ i) ∧ ∀ x ∈ ys, x ≠ i := by
  rw [List.nodup_append, List.nodup_cons] at hnd
  constructor
  · intro x hx
    exact hnd.2.2 x hx i List.mem_cons_self
  · rintro x hx rfl
    exact hnd.2.1.1 hx

theorem Lists.split (h : p.Lists (xs ++ i :: ys) l) (k : ℕ) :
    (p.split i k).Lists (xs ++ i :: p.fresh :: ys)
      (xs.map (fun x => (p.block x).span) ++ { (p.block i).span with size := k } ::
        { data := (p.block i).data + k, size := (p.block i).size - k, isFree := true } ::
        ys.map fun x => (p.block x).span) := by
  have hlt : ∀ x ∈ xs ++ i :: ys, x < p.fresh := h.bound
  have hi : i < p.fresh := hlt i (by simp)
  have hfresh : p.fresh ∉ xs ++ i :: ys := fun hmem => Nat.lt_irrefl _ (hlt _ hmem)
  have hperm : (xs ++ i :: p.fresh :: ys).Perm (p.fresh :: (xs ++ i :: ys)) := by
    have hmid : ((xs ++ [i]) ++ p.fresh :: ys).Perm (p.fresh :: ((xs ++ [i]) ++ ys)) := List.perm_middle
    simpa using hmid
  obtain ⟨hxi, hyi⟩ := ne_of_nodup h.nodup
  refine ⟨?_, ?_, ?_, ?_, ?_, ?_⟩
  · show p.blocks = _
    rw [h.head]
    cases xs with
    | nil => rfl
    | cons x xs => rfl
  · rw [split_links]
    exact h.seg.insertAfter h.nodup hfresh
  · rw [hperm.nodup_iff, List.nodup_cons]
    exact ⟨hfresh, h.nodup⟩
  · intro x hx
    show x < p.fresh + 1
    rcases List.mem_cons.1 (hperm.mem_iff.1 hx) with rfl | hx
    · exact Nat.lt_succ_self _
    · exact Nat.lt_succ_of_lt (hlt x hx)
  · have hxs : xs.map (fun x => ((p.split i k).block x).span) = xs.map fun x => (p.block x).span := by
      apply List.map_congr_left
      intro x hx
      exact split_span_of_ne k (hxi x hx) (Nat.ne_of_lt (hlt x (by simp [hx])))
    have hys : ys.map (fun x => ((p.split i k).block x).span) = ys.map fun x => (p.block x).span := by
      apply List.map_congr_left
      intro x hx
      exact split_span_of_ne k (hyi x hx) (Nat.ne_of_lt (hlt x (by simp [hx])))
    rw [List.map_append, List.map_cons, List.map_cons, hxs, hys, split_span_self k hi, split_span_fresh k hi]
  · show p.blockCount + 1 = _
    rw [h.count, hperm.length_eq]
    rfl

theorem Lists.merge (h : p.Lists (xs ++ i :: j :: ys) l) :
    (p.merge i j).Lists (xs ++ i :: ys)
      (xs.map (fun x => (p.block x).span) ++ (p.block i).span.join (p.block j).span ::
        ys.map fun x => (p.block x).span) := by
  have hsub : (xs ++ i :: ys).Sublist (xs ++ i :: j :: ys) :=
    ((List.sublist_cons_self j ys).cons_cons i).append_left xs
  obtain ⟨hxi, hyi⟩ := ne_of_nodup (h.nodup.sublist hsub)
  refine ⟨?_, ?_, h.nodup.sublist hsub, ?_, ?_, ?_⟩
  · show p.blocks = _
    rw [h.head]
    cases xs with
    | nil => rfl
    | cons x xs => rfl
  · rw [merge_links]
    exact h.seg.unlink h.nodup
  · intro x hx
    exact h.bound x (hsub.subset hx)
  · have hxs : xs.map (fun x => ((p.merge i j).block x).span) = xs.map fun x => (p.block x).span := by
      apply List.map_congr_left
      intro x hx
      exact merge_span_of_ne (hxi x hx)
    have hys : ys.map (fun x => ((p.merge i j).block x).span) = ys.map fun x => (p.block x).span := by
      apply List.map_congr_left
      intro x hx
      exact merge_span_of_ne (hyi x hx)
    rw [List.map_append, List.map_cons, hxs, hys, merge_span_self]
  · show p.blockCount - 1 = _
    rw [h.count]
    simp

theorem Lists.parts {l₁ l₂ : List Span} {s : Span} (h : p.Lists (xs ++ i :: ys) (l₁ ++ s :: l₂))
    (hlen : xs.length = l₁.length) :
    xs.map (fun x => (p.block x).span) = l₁ ∧ (p.block i).span = s ∧ ys.map (fun x => (p.block x).span) = l₂ := by
  have hspans := h.spans
  rw [List.map_append, List.map_cons] at hspans
  obtain ⟨hxs, hrest⟩ := List.append_inj hspans (by simpa using hlen)
  rw [List.cons.injEq] at hrest
  exact ⟨hxs, hrest⟩

theorem Lists.mark {q : Pool} {l₁ l₂ : List Span} {s : Span} {free : Bool}
    (h : p.Lists (xs ++ i :: ys) (l₁ ++ s :: l₂)) (hlen : xs.length = l₁.length)
    (hq : q.block = update p.block i { p.block i with isFree := free })
    (hblocks : q.blocks = p.blocks) (hfresh : q.fresh = p.fresh) (hcount : q.blockCount = p.blockCount) :
    q.Lists (xs ++ i :: ys) (l₁ ++ { s with isFree := free } :: l₂) := by
  obtain ⟨hxi, hyi⟩ := ne_of_nodup h.nodup
  obtain ⟨h₁, hs, h₂⟩ := h.parts hlen
  have hspan : ∀ x, x ≠ i → (q.block x).span = (p.block x).span := by
    intro x hx
    rw [hq, update_of_ne hx]
  refine ⟨hblocks.trans h.head, ?_, h.nodup, ?_, ?_, hcount.trans h.count⟩
  · rw [links_update hq rfl rfl]
    exact h.seg
  · rw [hfresh]
    exact h.bound
  · have hxs : xs.map (fun x => (q.block x).span) = l₁ := by
      rw [← h₁]
      apply List.map_congr_left
      intro x hx
      exact hspan x (hxi x hx)
    have hys : ys.map (fun x => (q.block x).span) = l₂ := by
      rw [← h₂]
      apply List.map_congr_left
      intro x hx
      exact hspan x (hyi x hx)
    rw [List.map_append, List.map_cons, hxs, hys, hq, update_self, ← hs]
    rfl

theorem Holds.alloc (h : p.Holds l) (hk : k ≠ 0) :
    (take k l = none ∧ poolAlloc p k = (p, none)) ∨
    ∃ l' ptr, take k l = some (l', ptr) ∧ (poolAlloc p k).2 = some ptr ∧ (poolAlloc p k).1.Holds l' ∧
      (poolAlloc p k).1.usedSize = (p.usedSize + k) % 2 ^ 64 := by
  obtain ⟨ids, h⟩ := h
  have hspans := h.spans
  rw [poolAlloc, if_neg hk, h.nodes_eq]
  cases hfind : ids.find? fun i => (p.block i).isFree && decide (k ≤ (p.block i).size) with
  | none =>
    left
    refine ⟨?_, rfl⟩
    apply take_eq_none
    intro s hs
    rw [← hspans] at hs
    obtain ⟨x, hx, rfl⟩ := List.mem_map.1 hs
    exact Bool.eq_false_iff.2 (List.find?_eq_none.1 hfind x hx)
  | some i =>
    right
    obtain ⟨hi, xs, ys, rfl, hxs⟩ := List.find?_eq_some_iff_append.1 hfind
    have hsplit : l = xs.map (fun x => (p.block x).span) ++ (p.block i).span ::
        ys.map fun x => (p.block x).span := by
      rw [← hspans, List.map_append, List.map_cons]
    have htake : take k l
        = some (xs.map (fun x => (p.block x).span) ++ (carve k (p.block i).span ++
          ys.map fun x => (p.block x).span), (p.block i).data) := by
      have hfit : (p.block i).span.fits k = true := hi
      rw [hsplit]
      apply take_append _ hfit
      intro s hs
      obtain ⟨x, hx, rfl⟩ := List.mem_map.1 hs
      have hnot := hxs x hx
      rwa [Bool.not_eq_eq_eq_not, Bool.not_true] at hnot
    refine ⟨_, _, htake, rfl, ?_, ?_⟩
    · show (Pool.occupy (if k < (p.block i).size then p.split i k else p) i k).Holds _
      rw [carve]
      by_cases hlt : k < (p.block i).size
      · rw [if_pos hlt, if_pos (show k < (p.block i).span.size from hlt)]
        exact ⟨_, (h.split k).mark (by simp) rfl rfl rfl rfl⟩
      · rw [if_neg hlt, if_neg (show ¬k < (p.block i).span.size from hlt)]
        rw [hsplit] at h
        exact ⟨_, h.mark (by simp) rfl rfl rfl rfl⟩
    · show (Pool.occupy (if k < (p.block i).size then p.split i k else p) i k).usedSize = _
      split <;> rfl

theorem Holds.free (h : p.Holds l) {ptr : ℕ} (hmem : (ptr, k) ∈ taken l) (ht : Tiles 0 l p.totalSize) :
    (poolFree p ptr).Holds (release ptr l) ∧ (poolFree p ptr).usedSize = (p.usedSize + 2 ^ 64 - k) % 2 ^ 64 := by
  obtain ⟨ids, h⟩ := h
  have hspans := h.spans
  obtain ⟨t, htl, -, hpair⟩ := (mem_taken).1 hmem
  rw [Prod.mk.injEq] at hpair
  obtain ⟨rfl, rfl⟩ := hpair
  rw [poolFree, h.nodes_eq]
  cases hfind : ids.find? fun i => (p.block i).data == t.data with
  | none =>
    rw [← hspans] at htl
    obtain ⟨x, hx, rfl⟩ := List.mem_map.1 htl
    exact absurd (beq_self_eq_true (p.block x).data) (List.find?_eq_none.1 hfind x hx)
  | some i =>
    obtain ⟨hi, xs, ys, rfl, hxs⟩ := List.find?_eq_some_iff_append.1 hfind
    have hdata : (p.block i).span.data = t.data := beq_iff_eq.1 hi
    have hsplit : l = xs.map (fun x => (p.block x).span) ++ (p.block i).span ::
        ys.map fun x => (p.block x).span := by
      rw [← hspans, List.map_append, List.map_cons]
    have hmem' : (p.block i).span ∈ l := by
      rw [hsplit]
      simp
    -- the spans tile the arena, so the first block at the address is the allocated one
    have hblock : (p.block i).span = t := by
      have hsize := ht.mem_bounds hmem'
      have hsize' := ht.mem_bounds htl
      exact ht.eq_of_shared hmem' htl ⟨le_rfl, by omega⟩ ⟨by omega, by omega⟩
    have hrelease : release t.data l = xs.map (fun x => (p.block x).span) ++
        { (p.block i).span with isFree := true } :: ys.map fun x => (p.block x).span := by
      rw [hsplit]
      apply release_append _ hdata
      intro s hs
      obtain ⟨x, hx, rfl⟩ := List.mem_map.1 hs
      have hnot := hxs x hx
      intro heq
      rw [Bool.not_eq_eq_eq_not, Bool.not_true, beq_eq_false_iff_ne] at hnot
      exact hnot heq
    rw [hsplit] at h
    constructor
    · rw [hrelease]
      exact ⟨_, h.mark (by simp) rfl rfl rfl rfl⟩
    · show (p.usedSize + 2 ^ 64 - (p.block i).span.size) % 2 ^ 64 = _
      rw [hblock]

theorem Lists.defragmentLoop {fuel : ℕ} {l₁ l₂ : List Span} {s : Span}
    (h : p.Lists (xs ++ i :: ys) (l₁ ++ s :: l₂)) (hlen : xs.length = l₁.length) (hfuel : ys.length ≤ fuel) :
    (defragmentLoop fuel p (some i)).Holds (l₁ ++ coalesceFrom s l₂) ∧
    (Rafstore.defragmentLoop fuel p (some i)).usedSize = p.usedSize ∧
    (Rafstore.defragmentLoop fuel p (some i)).totalSize = p.totalSize := by
  induction fuel generalizing p xs i ys l₁ s l₂ with
  | zero =>
    obtain rfl : ys = [] := List.length_eq_zero_iff.1 (Nat.le_zero.1 hfuel)
    obtain ⟨-, -, rfl⟩ := h.parts hlen
    exact ⟨⟨xs ++ [i], h⟩, rfl, rfl⟩
  | succ fuel ih =>
    have hnext : (p.block i).next = entry ys none := h.seg.next_eq
    obtain ⟨h₁, hs, h₂⟩ := h.parts hlen
    rw [Rafstore.defragmentLoop, hnext]
    cases ys with
    | nil =>
      obtain rfl : [] = l₂ := h₂
      exact ⟨⟨xs ++ [i], h⟩, rfl, rfl⟩
    | cons j ys =>
      obtain rfl : (p.block j).span :: ys.map (fun x => (p.block x).span) = l₂ := h₂
      have hif : ((p.block i).isFree && (p.block j).isFree) = (s.isFree && (p.block j).span.isFree) := by
        rw [← hs]
        rfl
      rw [entry_cons, coalesceFrom]
      simp only [hif]
      cases s.isFree && (p.block j).span.isFree with
      | true =>
        -- the same record again, with one neighbour less
        have hmerge := h.merge
        rw [h₁, hs] at hmerge
        exact ih hmerge hlen (by simpa using hfuel)
      | false =>
        have hassoc : xs ++ i :: j :: ys = (xs ++ [i]) ++ j :: ys := by simp
        have hassoc' : l₁ ++ s :: (p.block j).span :: ys.map (fun x => (p.block x).span)
            = (l₁ ++ [s]) ++ (p.block j).span :: ys.map fun x => (p.block x).span := by simp
        rw [hassoc, hassoc'] at h
        have hih := ih h (by simp [hlen]) (by simpa using hfuel)
        simpa using hih

theorem Holds.defragment (h : p.Holds l) :
    (poolDefragment p).Holds (coalesce l) ∧ (poolDefragment p).usedSize = p.usedSize ∧
      (poolDefragment p).totalSize = p.totalSize := by
  obtain ⟨ids, h⟩ := h
  rw [poolDefragment, h.head]
  cases ids with
  | nil =>
    obtain rfl : [] = l := h.spans
    have hloop : defragmentLoop p.fresh p (entry [] none) = p := by
      cases p.fresh <;> rfl
    rw [hloop]
    exact ⟨⟨[], h⟩, rfl, rfl⟩
  | cons i ys =>
    obtain rfl : (p.block i).span :: ys.map (fun x => (p.block x).span) = l := h.spans
    have hlen : ys.length ≤ p.fresh := by
      have hall := h.length_le
      rw [List.length_cons] at hall
      omega
    have hwhole : p.Lists ([] ++ i :: ys) ([] ++ (p.block i).span :: ys.map fun x => (p.block x).span) := h
    exact hwhole.defragmentLoop rfl hlen

end Refinement

end Pool

/-! ### Every run -/

/-- The pools that a client reaches from `raf_pool_create(n)`, with the address and the requested size of what it
has allocated and not yet freed. -/
inductive PoolRun (n : ℕ) : Pool → List (ℕ × ℕ) → Prop
  | create : PoolRun n (poolCreate n) []
  | alloc {p : Pool} {live : List (ℕ × ℕ)} {k ptr : ℕ} (h : PoolRun n p live)
      (hptr : (poolAlloc p k).2 = some ptr) : PoolRun n (poolAlloc p k).1 ((ptr, k) :: live)
  | allocNull {p : Pool} {live : List (ℕ × ℕ)} {k : ℕ} (h : PoolRun n p live)
      (hnull : (poolAlloc p k).2 = none) : PoolRun n (poolAlloc p k).1 live
  | free {p : Pool} {live : List (ℕ × ℕ)} {k ptr : ℕ} (h : PoolRun n p live) (hlive : (ptr, k) ∈ live) :
      PoolRun n (poolFree p ptr) (live.erase (ptr, k))
  | defragment {p : Pool} {live : List (ℕ × ℕ)} (h : PoolRun n p live) : PoolRun n (poolDefragment p) live

/-- The block list tiles the arena, and its taken spans are the client's allocations. -/
structure PoolShape (n : ℕ) (p : Pool) (live : List (ℕ × ℕ)) (l : List Span) : Prop where
  holds : p.Holds l
  tiles : Tiles 0 l n
  total : p.totalSize = n
  perm : live.Perm (taken l)

/-- **The invariant**: in that shape, `used_size` is what the client has allocated. -/
structure PoolInv (n : ℕ) (p : Pool) (live : List (ℕ × ℕ)) (l : List Span) : Prop extends PoolShape n p live l where
  used : p.usedSize = (live.map Prod.snd).sum

theorem alloc_zero (p : Pool) : poolAlloc p 0 = (p, none) := rfl

theorem alloc_total (p : Pool) (k : ℕ) : (poolAlloc p k).1.totalSize = p.totalSize := by
  rw [poolAlloc]
  split
  · rfl
  · split
    · rfl
    · show (Pool.occupy (if _ then _ else _) _ _).totalSize = _
      split <;> rfl

theorem free_total (p : Pool) (ptr : ℕ) : (poolFree p ptr).totalSize = p.totalSize := by
  rw [poolFree]
  split <;> rfl

namespace PoolShape

variable {n k ptr : ℕ} {p : Pool} {live : List (ℕ × ℕ)} {l : List Span}

theorem create (hn : 1 ≤ n) :
    PoolShape n (poolCreate n) [] [{ data := 0, size := n, isFree := true }] where
  holds := ⟨[0], by
    refine ⟨rfl, ⟨rfl, rfl, trivial⟩, List.nodup_singleton 0, ?_, rfl, rfl⟩
    intro i hi
    rw [List.mem_singleton.1 hi]
    exact Nat.zero_lt_one⟩
  tiles := ⟨rfl, hn, Nat.zero_add n⟩
  total := rfl
  perm := List.Perm.refl _

theorem sum_le (h : PoolShape n p live l) : (live.map Prod.snd).sum ≤ n := by
  have hle := h.tiles.sum_taken_le
  rw [Nat.zero_add] at hle
  rwa [(h.perm.map Prod.snd).sum_eq]

theorem alloc (h : PoolShape n p live l) (hptr : (poolAlloc p k).2 = some ptr) :
    ∃ l', PoolShape n (poolAlloc p k).1 ((ptr, k) :: live) l' ∧
      (poolAlloc p k).1.usedSize = (p.usedSize + k) % 2 ^ 64 := by
  by_cases hk : k = 0
  · subst hk
    cases hptr
  rcases h.holds.alloc hk with ⟨-, hnull⟩ | ⟨l', ptr', htake, hptr', hholds, hused⟩
  · rw [hnull] at hptr
    cases hptr
  · obtain rfl : ptr' = ptr := by
      rw [hptr'] at hptr
      exact Option.some.inj hptr
    have htiles := take_tiles (Nat.pos_of_ne_zero hk) htake h.tiles
    exact ⟨l', ⟨hholds, htiles, (alloc_total p k).trans h.total, (h.perm.cons _).trans (take_taken htake).symm⟩, hused⟩

theorem allocNull (h : PoolShape n p live l) (hnull : (poolAlloc p k).2 = none) : (poolAlloc p k).1 = p := by
  by_cases hk : k = 0
  · subst hk
    rfl
  rcases h.holds.alloc hk with ⟨-, hsame⟩ | ⟨l', ptr, -, hptr, -, -⟩
  · rw [hsame]
  · rw [hptr] at hnull
    cases hnull

theorem free (h : PoolShape n p live l) (hlive : (ptr, k) ∈ live) :
    PoolShape n (poolFree p ptr) (live.erase (ptr, k)) (release ptr l) ∧
      (poolFree p ptr).usedSize = (p.usedSize + 2 ^ 64 - k) % 2 ^ 64 := by
  have hmem : (ptr, k) ∈ taken l := h.perm.mem_iff.1 hlive
  have htiles : Tiles 0 l p.totalSize := h.total.symm ▸ h.tiles
  obtain ⟨hholds, hused⟩ := h.holds.free hmem htiles
  refine ⟨⟨hholds, release_tiles h.tiles, (free_total p ptr).trans h.total, ?_⟩, hused⟩
  have hperm := h.perm.trans (release_taken h.tiles hmem)
  have herase := hperm.erase (ptr, k)
  rwa [List.erase_cons_head] at herase

theorem defragment (h : PoolShape n p live l) : PoolShape n (poolDefragment p) live (coalesce l) := by
  obtain ⟨hholds, -, htotal⟩ := h.holds.defragment
  refine ⟨hholds, coalesce_tiles h.tiles, htotal.trans h.total, ?_⟩
  rw [coalesce_taken]
  exact h.perm

end PoolShape

namespace PoolInv

variable {n k ptr : ℕ} {p : Pool} {live : List (ℕ × ℕ)} {l : List Span}

theorem create (hn : 1 ≤ n) : PoolInv n (poolCreate n) [] [{ data := 0, size := n, isFree := true }] :=
  ⟨PoolShape.create hn, rfl⟩

theorem alloc (hn : n < 2 ^ 64) (h : PoolInv n p live l) (hptr : (poolAlloc p k).2 = some ptr) :
    ∃ l', PoolInv n (poolAlloc p k).1 ((ptr, k) :: live) l' := by
  obtain ⟨l', hshape, hused⟩ := h.toPoolShape.alloc hptr
  have hsum := hshape.sum_le
  refine ⟨l', hshape, ?_⟩
  rw [List.map_cons, List.sum_cons] at hsum ⊢
  rw [hused, h.used, Nat.mod_eq_of_lt (by omega), Nat.add_comm]

theorem free (hn : n < 2 ^ 64) (h : PoolInv n p live l) (hlive : (ptr, k) ∈ live) :
    PoolInv n (poolFree p ptr) (live.erase (ptr, k)) (release ptr l) := by
  obtain ⟨hshape, hused⟩ := h.toPoolShape.free hlive
  have hle := h.sum_le
  have hsum : (live.map Prod.snd).sum = k + ((live.erase (ptr, k)).map Prod.snd).sum :=
    ((List.perm_cons_erase hlive).map Prod.snd).sum_eq
  refine ⟨hshape, ?_⟩
  rw [hused, h.used, hsum, show k + ((live.erase (ptr, k)).map Prod.snd).sum + 2 ^ 64 - k
    = ((live.erase (ptr, k)).map Prod.snd).sum + 2 ^ 64 by omega, Nat.add_mod_right, Nat.mod_eq_of_lt (by omega)]

theorem defragment (h : PoolInv n p live l) : PoolInv n (poolDefragment p) live (coalesce l) :=
  ⟨h.toPoolShape.defragment, h.holds.defragment.2.1.trans h.used⟩

end PoolInv

theorem PoolRun.inv {n : ℕ} {p : Pool} {live : List (ℕ × ℕ)} (hn : 1 ≤ n) (hn64 : n < 2 ^ 64)
    (h : PoolRun n p live) : ∃ l, PoolInv n p live l := by
  induction h with
  | create => exact ⟨_, PoolInv.create hn⟩
  | alloc _ hptr ih =>
    obtain ⟨l, hl⟩ := ih
    exact hl.alloc hn64 hptr
  | allocNull _ hnull ih =>
    obtain ⟨l, hl⟩ := ih
    rw [hl.toPoolShape.allocNull hnull]
    exact ⟨l, hl⟩
  | free _ hlive ih =>
    obtain ⟨l, hl⟩ := ih
    exact ⟨_, hl.free hn64 hlive⟩
  | defragment _ ih =>
    obtain ⟨l, hl⟩ := ih
    exact ⟨_, hl.defragment⟩

theorem sum_taken (bs : List Block) : ((taken (bs.map Block.span)).map Prod.snd).sum
    = ((bs.filter fun b => !b.isFree).map Block.size).sum := by
  induction bs with
  | nil => rfl
  | cons b bs ih =>
    have hfree : b.span.isFree = b.isFree := rfl
    cases hb : b.isFree with
    | true => simpa [taken, hfree, hb] using ih
    | false => simpa [taken, hfree, hb, Block.span] using ih

theorem gap_congr {n a len : ℕ} {live live' : List (ℕ × ℕ)} (hperm : live.Perm live') :
    Gap n live a len ↔ Gap n live' a len := by
  have hcov : ∀ x, Covered live x ↔ Covered live' x := by
    intro x
    simp only [Covered, hperm.mem_iff]
  constructor
  · intro h
    exact ⟨h.pos, h.inside, fun x h₁ h₂ => (hcov x).not.1 (h.uncovered x h₁ h₂),
      h.left.imp_right (hcov _).1, h.right.imp_right (hcov _).1⟩
  · intro h
    exact ⟨h.pos, h.inside, fun x h₁ h₂ => (hcov x).not.2 (h.uncovered x h₁ h₂),
      h.left.imp_right (hcov _).2, h.right.imp_right (hcov _).2⟩

theorem PoolInv.alloc_defragment {n : ℕ} {p : Pool} {live : List (ℕ × ℕ)} {l : List Span}
    (h : PoolInv n p live l) (k : ℕ) :
    (poolAlloc (poolDefragment p) k).2.isSome ↔ k ≠ 0 ∧ ∃ a len, Gap n live a len ∧ k ≤ len := by
  have hd := h.defragment
  by_cases hk : k = 0
  · subst hk
    simp [alloc_zero]
  have hserved : (poolAlloc (poolDefragment p) k).2.isSome ↔ (take k (coalesce l)).isSome := by
    rcases hd.holds.alloc hk with ⟨htake, hnull⟩ | ⟨l', ptr, htake, hptr, -, -⟩
    · simp [htake, hnull]
    · simp [htake, hptr]
  rw [hserved, take_isSome_iff, hd.tiles.exists_fit_iff_gap coalesce_coalesced]
  simp only [gap_congr hd.perm, ne_eq, hk, not_false_eq_true, true_and]

/-- **Every run of the pool.**  The block list is linked both ways, tiles the arena and has `block_count` records;
`used_size` is the sum of the sizes in use; the live allocations are blocks of at least the requested size and are
pairwise disjoint; and after a defragmentation a request is served exactly when it is not empty and some maximal
run of unallocated bytes is long enough. -/
theorem pool_run {n : ℕ} {p : Pool} {live : List (ℕ × ℕ)} (hn : 1 ≤ n) (hn64 : n < 2 ^ 64) (h : PoolRun n p live) :
    (∃ ids : List ℕ, p.blocks = entry ids none ∧ Seg p.links none ids none ∧ ids.Nodup ∧
      p.blockCount = ids.length ∧ Tiles 0 (ids.map fun i => (p.block i).span) n ∧
      p.usedSize = (((ids.map p.block).filter fun b => !b.isFree).map Block.size).sum ∧
      ∀ r ∈ live, ∃ i ∈ ids, (p.block i).isFree = false ∧ (p.block i).data = r.1 ∧ r.2 ≤ (p.block i).size) ∧
    (live.Pairwise fun r t => r.1 + r.2 ≤ t.1 ∨ t.1 + t.2 ≤ r.1) ∧
    ∀ k, (poolAlloc (poolDefragment p) k).2.isSome ↔ k ≠ 0 ∧ ∃ a len, Gap n live a len ∧ k ≤ len := by
  obtain ⟨l, hinv⟩ := h.inv hn hn64
  refine ⟨?_, ?_, hinv.alloc_defragment⟩
  · obtain ⟨ids, hids⟩ := hinv.holds
    refine ⟨ids, hids.head, hids.seg, hids.nodup, hids.count, ?_, ?_, ?_⟩
    · rw [hids.spans]
      exact hinv.tiles
    · have hmap : (ids.map p.block).map Block.span = l := by
        rw [List.map_map]
        exact hids.spans
      rw [hinv.used, (hinv.perm.map Prod.snd).sum_eq, ← hmap, sum_taken]
    · intro r hr
      obtain ⟨s, hs, hfree, rfl⟩ := (mem_taken).1 (hinv.perm.mem_iff.1 hr)
      rw [← hids.spans] at hs
      obtain ⟨i, hi, rfl⟩ := List.mem_map.1 hs
      exact ⟨i, hi, hfree, rfl, le_rfl⟩
  · have hp : (taken l).Pairwise fun r t => r.1 + r.2 ≤ t.1 ∨ t.1 + t.2 ≤ r.1 :=
      hinv.tiles.taken_pairwise.imp fun hle => Or.inl hle
    exact hp.perm hinv.perm.symm fun hrt => hrt.symm

/-- Two requests, the first of them freed again: the arena of eight bytes. -/
theorem pool_run_eight : PoolRun 8 (poolFree (poolAlloc (poolAlloc (poolCreate 8) 3).1 2).1 0) [(3, 2)] ∧
    ∀ k, (poolAlloc (poolDefragment (poolFree (poolAlloc (poolAlloc (poolCreate 8) 3).1 2).1 0)) k).2.isSome ↔
      k ≠ 0 ∧ ∃ a len, Gap 8 [(3, 2)] a len ∧ k ≤ len := by
  have hrun : PoolRun 8 (poolFree (poolAlloc (poolAlloc (poolCreate 8) 3).1 2).1 0) [(3, 2)] := by
    have h₁ : PoolRun 8 (poolAlloc (poolCreate 8) 3).1 [(0, 3)] := .alloc .create (by decide)
    have h₂ : PoolRun 8 (poolAlloc (poolAlloc (poolCreate 8) 3).1 2).1 [(3, 2), (0, 3)] := .alloc h₁ (by decide)
    exact PoolRun.free (k := 3) h₂ (by decide)
  exact ⟨hrun, (pool_run (by decide) (by decide) hrun).2.2⟩

/-- An empty request is refused although there is an unallocated run. -/
theorem empty_request_refused :
    ¬∀ (n : ℕ) (p : Pool) (live : List (ℕ × ℕ)), 1 ≤ n → n < 2 ^ 64 → PoolRun n p live →
      ∀ k, (poolAlloc (poolDefragment p) k).2.isSome ↔ ∃ a len, Gap n live a len ∧ k ≤ len := by
  intro h
  have hgap : Gap 1 [] 0 1 := by
    refine ⟨Nat.zero_lt_one, le_rfl, ?_, Or.inl rfl, Or.inl rfl⟩
    rintro x - - ⟨r, hr, -⟩
    cases hr
  have hsome := (h 1 (poolCreate 1) [] le_rfl (by decide) .create 0).2 ⟨0, 1, hgap, Nat.zero_le 1⟩
  exact absurd hsome (by decide)

end Rafstore
