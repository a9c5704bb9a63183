import LlamaRafaelia.Lib.Blocks
import LlamaRafaelia.Lib.Parse
import Mathlib.Data.Int.Notation
import Mathlib.Data.List.TakeDrop

/-!
# Allocator: the dynamic tensor allocator

`ggml_dyn_tallocr` hands out addresses in up to sixteen chunks.  An allocation takes the front of the best fitting
free block; what is freed is merged with its neighbours.  The last block of a chunk is the space not used yet.  Sizes
are natural numbers: nothing here comes near to `2 ^ 64`.

* `alloc_spec` - **what is handed out was free and is free no more**;
* `freeTensor_spec` - **what is freed is free again, and nothing else**.
-/

namespace Alloc

open List Block

/-- `struct buffer_address`. -/
structure BufferAddress where
  chunk : ℕ
  offset : ℕ
deriving DecidableEq, Repr

/-- `struct tallocr_chunk`. -/
structure Chunk where
  freeBlocks : List Block
  maxSize : ℕ
deriving DecidableEq, Repr

/-- `struct ggml_dyn_tallocr`. -/
structure DynTallocr where
  alignment : ℕ
  maxChunkSize : ℕ
  chunks : List Chunk
deriving DecidableEq, Repr

/-- Why the process ends: an assertion, no memory, or a pointer to nothing. -/
inductive Abort where
  | assertion
  | outOfMemory
  | nullPointer
deriving DecidableEq, Repr

/-- `MAX_FREE_BLOCKS`. -/
def maxFreeBlocks : ℕ := 256

/-- `GGML_VBUFFER_MAX_CHUNKS`. -/
def vbufferMaxChunks : ℕ := 16

/-- `SIZE_MAX`. -/
def sizeMax : ℕ := 2 ^ 64 - 1

/-- `aligned_offset`, from the address 0. -/
def alignedOffset (offset alignment : ℕ) : ℕ := offset + (alignment - offset % alignment) % alignment

/-! ### Allocation -/

/-- The loop over the blocks of a chunk: the best block so far and its size. -/
def bestFitLoop (size : ℕ) : List Block → ℕ → Option ℕ × ℕ → Option ℕ × ℕ
  | [], _, best => best
  | block :: blocks, i, best =>
    bestFitLoop size blocks (i + 1) (if size ≤ block.size ∧ block.size ≤ best.2 then (some i, block.size) else best)

def Chunk.bestFit (size : ℕ) (chunk : Chunk) : Option ℕ :=
  (bestFitLoop size chunk.freeBlocks.dropLast 0 (none, sizeMax)).1

/-- The best fitting free block besides the last ones: the block of the last chunk that has one. -/
def bestFit (size : ℕ) : List Chunk → ℕ → Option (ℕ × ℕ) → Option (ℕ × ℕ)
  | [], _, best => best
  | chunk :: chunks, c, best =>
    bestFit size chunks (c + 1) (match chunk.bestFit size with
      | some i => some (c, i)
      | none => best)

/-- The search among the last blocks: the best one so far and its `best_reuse`. -/
def lastFit (size : ℕ) : List Chunk → ℕ → Option (ℕ × ℕ) × ℤ → Option (ℕ × ℕ) × ℤ
  | [], _, best => best
  | chunk :: chunks, c, best =>
    match chunk.freeBlocks.getLast? with
    | none => lastFit size chunks (c + 1) best
    | some block =>
      -- negative: memory that has to be added; positive: memory that stays unused
      let reuseFactor : ℤ := (chunk.maxSize : ℤ) - block.offset - size
      let betterReuse := best.2 < 0 ∧ best.2 < reuseFactor
      let betterFit := 0 ≤ reuseFactor ∧ reuseFactor < best.2
      lastFit size chunks (c + 1)
        (if size ≤ block.size ∧ (betterReuse ∨ betterFit) then (some (c, chunk.freeBlocks.length - 1), reuseFactor)
        else best)

namespace DynTallocr

/-- `ggml_dyn_tallocr_new_chunk`: the chunk comes last; `none` when there are too many. -/
def newChunk (alloc : DynTallocr) (minSize : ℕ) : Option DynTallocr :=
  if vbufferMaxChunks ≤ alloc.chunks.length then none
  else
    let size := if alloc.chunks.length = vbufferMaxChunks - 1 then sizeMax / 2 else max minSize alloc.maxChunkSize
    some { alloc with chunks := alloc.chunks ++ [⟨[⟨0, size⟩], 0⟩] }

/-- The front of block `i` of chunk `c` is taken. -/
def takeFrom (alloc : DynTallocr) (c i size : ℕ) : Except Abort (BufferAddress × DynTallocr) :=
  match alloc.chunks[c]? with
  | none => .error .nullPointer
  | some chunk =>
    match chunk.freeBlocks[i]? with
    | none => .error .nullPointer
    | some block =>
      let freeBlocks := if block.size - size = 0 then chunk.freeBlocks.eraseIdx i
        else chunk.freeBlocks.set i ⟨block.offset + size, block.size - size⟩
      let chunk := ⟨freeBlocks, max chunk.maxSize (block.offset + size)⟩
      .ok (⟨c, block.offset⟩, { alloc with chunks := alloc.chunks.set c chunk })

def findBlock (alloc : DynTallocr) (size : ℕ) : Option (ℕ × ℕ) :=
  match bestFit size alloc.chunks 0 none with
  | some found => some found
  | none => (lastFit size alloc.chunks 0 (none, -2 ^ 63)).1

/-- `ggml_dyn_tallocr_alloc`. -/
def alloc (alloc : DynTallocr) (size : ℕ) : Except Abort (BufferAddress × DynTallocr) :=
  let size := alignedOffset size alloc.alignment
  match alloc.findBlock size with
  | some (c, i) => alloc.takeFrom c i size
  | none =>
    match alloc.newChunk size with
    | none => .error .outOfMemory
    | some alloc => alloc.takeFrom (alloc.chunks.length - 1) 0 size

end DynTallocr

/-! ### Freeing -/

/-- The loop of `ggml_dyn_tallocr_free_tensor`: the blocks when `r` could be merged with one of them. -/
def mergeLoop (r : Block) : List Block → List Block → Option (List Block)
  | _, [] => none
  | before, block :: after =>
    if block.offset + block.size = r.offset then
      -- the block ends where the tensor starts
      match after with
      | [] => some (before ++ [⟨block.offset, block.size + r.size⟩])
      | next :: rest =>
        if block.offset + (block.size + r.size) = next.offset then
          some (before ++ ⟨block.offset, block.size + r.size + next.size⟩ :: rest)
        else some (before ++ ⟨block.offset, block.size + r.size⟩ :: next :: rest)
    else if r.offset + r.size = block.offset then
      -- the tensor ends where the block starts
      match before.getLast? with
      | none => some (before ++ ⟨r.offset, r.size + block.size⟩ :: after)
      | some prev =>
        if prev.offset + prev.size = r.offset then
          some (before.dropLast ++ ⟨prev.offset, prev.size + (r.size + block.size)⟩ :: after)
        else some (before ++ ⟨r.offset, r.size + block.size⟩ :: after)
    else mergeLoop r (before ++ [block]) after

/-- `ggml_dyn_tallocr_insert_block`: the blocks stay in the order of their offsets. -/
def insertBlock (blocks : List Block) (r : Block) : Except Abort (List Block) :=
  if blocks.length < maxFreeBlocks then
    .ok (blocks.takeWhile (fun b => decide (b.offset < r.offset)) ++
      r :: blocks.dropWhile (fun b => decide (b.offset < r.offset)))
  else .error .assertion

def freeBlock (blocks : List Block) (r : Block) : Except Abort (List Block) :=
  match mergeLoop r [] blocks with
  | some merged => .ok merged
  | none => insertBlock blocks r

/-- `ggml_dyn_tallocr_free_tensor`. -/
def DynTallocr.freeTensor (alloc : DynTallocr) (addr : BufferAddress) (size : ℕ) : Except Abort DynTallocr :=
  let r : Block := ⟨addr.offset, alignedOffset size alloc.alignment⟩
  match alloc.chunks[addr.chunk]? with
  | none => .error .nullPointer
  | some chunk => do
    let freeBlocks ← freeBlock chunk.freeBlocks r
    return { alloc with chunks := alloc.chunks.set addr.chunk { chunk with freeBlocks := freeBlocks } }

/-! ### The block that is found -/

def Chunk.Fits (size : ℕ) (chunk : Chunk) (i : ℕ) : Prop :=
  ∃ block, chunk.freeBlocks[i]? = some block ∧ size ≤ block.size

theorem bestFitLoop_spec {size : ℕ} {P : ℕ → Prop} (blocks : List Block) (i : ℕ) (best : Option ℕ × ℕ)
    (hblocks : ∀ k block, blocks[k]? = some block → size ≤ block.size → P (i + k))
    (hbest : ∀ k, best.1 = some k → P k) :
    ∀ k, (bestFitLoop size blocks i best).1 = some k → P k := by
  induction blocks generalizing i best with
  | nil => exact hbest
  | cons block blocks ih =>
    rw [bestFitLoop]
    apply ih
    · intro k other hk hsize
      have := hblocks (k + 1) other hk hsize
      rwa [show i + 1 + k = i + (k + 1) by omega]
    · intro k hk
      split at hk
      · rename_i hfit
        cases hk
        exact hblocks 0 block rfl hfit.1
      · exact hbest k hk

theorem Chunk.bestFit_spec {size i : ℕ} {chunk : Chunk} (h : chunk.bestFit size = some i) : chunk.Fits size i := by
  refine bestFitLoop_spec (P := chunk.Fits size) _ 0 (none, sizeMax) ?_ ?_ i h
  · intro k block hk hsize
    rw [getElem?_dropLast] at hk
    split at hk
    · rw [Nat.zero_add]
      exact ⟨block, hk, hsize⟩
    · cases hk
  · intro k hk
    cases hk

/-- Chunk `c` has a block `i` that is large enough. -/
def DynTallocr.Fits (alloc : DynTallocr) (size : ℕ) (found : ℕ × ℕ) : Prop :=
  ∃ chunk, alloc.chunks[found.1]? = some chunk ∧ chunk.Fits size found.2

theorem bestFit_spec {size : ℕ} {P : ℕ × ℕ → Prop} (chunks : List Chunk) (c : ℕ) (best : Option (ℕ × ℕ))
    (hchunks : ∀ k chunk i, chunks[k]? = some chunk → chunk.Fits size i → P (c + k, i))
    (hbest : ∀ found, best = some found → P found) :
    ∀ found, bestFit size chunks c best = some found → P found := by
  induction chunks generalizing c best with
  | nil => exact hbest
  | cons chunk chunks ih =>
    rw [bestFit]
    apply ih
    · intro k other i hk hfit
      have := hchunks (k + 1) other i hk hfit
      rwa [show c + 1 + k = c + (k + 1) by omega]
    · intro found hfound
      split at hfound
      · rename_i i hi
        cases hfound
        exact hchunks 0 chunk i rfl (Chunk.bestFit_spec hi)
      · exact hbest found hfound

theorem lastFit_spec {size : ℕ} {P : ℕ × ℕ → Prop} (chunks : List Chunk) (c : ℕ) (best : Option (ℕ × ℕ) × ℤ)
    (hchunks : ∀ k chunk i, chunks[k]? = some chunk → chunk.Fits size i → P (c + k, i))
    (hbest : ∀ found, best.1 = some found → P found) :
    ∀ found, (lastFit size chunks c best).1 = some found → P found := by
  induction chunks generalizing c best with
  | nil => exact hbest
  | cons chunk chunks ih =>
    have hrest : ∀ k other i, chunks[k]? = some other → other.Fits size i → P (c + 1 + k, i) := by
      intro k other i hk hfit
      have := hchunks (k + 1) other i hk hfit
      rwa [show c + 1 + k = c + (k + 1) by omega]
    rw [lastFit]
    split
    · exact ih (c + 1) best hrest hbest
    · rename_i block hblock
      apply ih (c + 1) _ hrest
      intro found hfound
      split at hfound
      · rename_i hfit
        cases hfound
        refine hchunks 0 chunk _ rfl ⟨block, ?_, hfit.1⟩
        rwa [getLast?_eq_getElem?] at hblock
      · exact hbest found hfound

theorem DynTallocr.findBlock_spec {alloc : DynTallocr} {size : ℕ} {found : ℕ × ℕ}
    (h : alloc.findBlock size = some found) : alloc.Fits size found := by
  have hchunks : ∀ k chunk i, alloc.chunks[k]? = some chunk → chunk.Fits size i → alloc.Fits size (0 + k, i) := by
    intro k chunk i hk hfit
    rw [Nat.zero_add]
    exact ⟨chunk, hk, hfit⟩
  rw [DynTallocr.findBlock] at h
  split at h
  · rename_i other hother
    cases h
    exact bestFit_spec alloc.chunks 0 none hchunks (fun _ h => nomatch h) _ hother
  · exact lastFit_spec alloc.chunks 0 (none, -2 ^ 63) hchunks (fun _ h => nomatch h) _ h

/-! ### Free space -/

/-- The addresses of `size` bytes: chunk and offset. -/
def BufferAddress.range (addr : BufferAddress) (size : ℕ) : Set (ℕ × ℕ) :=
  {p | p.1 = addr.chunk ∧ p.2 ∈ bytes ⟨addr.offset, size⟩}

/-- **The free addresses**: those of the free blocks, and all of the chunks that were not created yet. -/
structure FreeSpace (alloc : DynTallocr) (F : Set (ℕ × ℕ)) : Prop where
  blocks : ∀ c chunk, alloc.chunks[c]? = some chunk → Holds chunk.freeBlocks {x | (c, x) ∈ F}
  beyond : ∀ c x, alloc.chunks.length ≤ c → (c, x) ∈ F

theorem BufferAddress.mem_range {addr : BufferAddress} {size c x : ℕ} :
    (c, x) ∈ addr.range size ↔ c = addr.chunk ∧ x ∈ bytes ⟨addr.offset, size⟩ := Iff.rfl

theorem BufferAddress.range_add (addr : BufferAddress) (size size' : ℕ) :
    addr.range (size + size') = addr.range size ∪ range ⟨addr.chunk, addr.offset + size⟩ size' := by
  ext ⟨c, x⟩
  rw [Set.mem_union, mem_range, mem_range, mem_range, bytes_join, Set.mem_union, and_or_left]

theorem BufferAddress.range_disjoint_next (addr : BufferAddress) (size size' : ℕ) :
    Disjoint (addr.range size) (range ⟨addr.chunk, addr.offset + size⟩ size') := by
  rw [Set.disjoint_left]
  intro x hx hx'
  exact Set.disjoint_left.mp (disjoint_next addr.offset size size') hx.2 hx'.2

theorem BufferAddress.range_mono {addr : BufferAddress} {size size' : ℕ} (h : size ≤ size') :
    addr.range size ⊆ addr.range size' := by
  obtain ⟨extra, rfl⟩ := Nat.exists_eq_add_of_le h
  rw [range_add]
  exact Set.subset_union_left

/-! ### Alignment -/

theorem le_alignedOffset (offset alignment : ℕ) : offset ≤ alignedOffset offset alignment := Nat.le_add_right ..

theorem dvd_alignedOffset {alignment : ℕ} (h : 0 < alignment) (offset : ℕ) :
    alignment ∣ alignedOffset offset alignment := by
  have hlt := Nat.mod_lt offset h
  rw [alignedOffset, Nat.dvd_iff_mod_eq_zero, Nat.add_mod, Nat.mod_mod]
  by_cases hzero : offset % alignment = 0
  · rw [hzero, Nat.sub_zero, Nat.mod_self, Nat.add_zero, Nat.zero_mod]
  · rw [Nat.mod_eq_of_lt (a := alignment - offset % alignment) (by omega), Nat.add_sub_cancel' hlt.le, Nat.mod_self]

theorem alignedOffset_add {alignment part : ℕ} (h : alignment ∣ part) (rest : ℕ) :
    alignedOffset (part + rest) alignment = part + alignedOffset rest alignment := by
  obtain ⟨k, rfl⟩ := h
  rw [alignedOffset, alignedOffset, Nat.mul_add_mod, Nat.add_assoc]

theorem alignedOffset_eq {alignment offset : ℕ} (h : alignment ∣ offset) : alignedOffset offset alignment = offset := by
  have h0 : alignedOffset 0 alignment = 0 := by simp [alignedOffset]
  rw [← Nat.add_zero offset, alignedOffset_add h, h0]

namespace FreeSpace

variable {t t' : DynTallocr} {F : Set (ℕ × ℕ)} {chunk : Chunk} {c : ℕ}

theorem set_chunk {G : Set (ℕ × ℕ)} (h : FreeSpace t F) (hc : c < t.chunks.length)
    (hG : Holds chunk.freeBlocks {x | (c, x) ∈ G}) (hother : ∀ d x, d ≠ c → ((d, x) ∈ G ↔ (d, x) ∈ F)) :
    FreeSpace { t with chunks := t.chunks.set c chunk } G := by
  constructor
  · intro d other hd
    dsimp only at hd
    by_cases hdc : d = c
    · subst hdc
      rw [getElem?_set_self hc] at hd
      cases hd
      exact hG
    · rw [getElem?_set_ne (Ne.symm hdc)] at hd
      refine (h.blocks d other hd).congr ?_
      ext x
      exact (hother d x hdc).symm
  · intro d x hd
    rw [length_set] at hd
    exact (hother d x (by omega)).mpr (h.beyond d x hd)

theorem append_chunk {S : Set ℕ} (h : FreeSpace t F) (hS : Holds chunk.freeBlocks S) :
    FreeSpace { t with chunks := t.chunks ++ [chunk] } {p | p ∈ F ∧ (p.1 = t.chunks.length → p.2 ∈ S)} := by
  constructor
  · intro d other hd
    dsimp only at hd
    rcases Nat.lt_trichotomy d t.chunks.length with hlt | rfl | hgt
    · rw [getElem?_append_left hlt] at hd
      refine (h.blocks d other hd).congr ?_
      ext x
      exact ⟨fun hx => ⟨hx, fun heq => absurd heq (Nat.ne_of_lt hlt)⟩, fun hx => hx.1⟩
    · rw [getElem?_append_right (Nat.le_refl _), Nat.sub_self] at hd
      cases hd
      refine hS.congr ?_
      ext x
      exact ⟨fun hx => ⟨h.beyond _ x (Nat.le_refl _), fun _ => hx⟩, fun hx => hx.2 rfl⟩
    · rw [getElem?_eq_none (by rw [length_append, length_singleton]; omega)] at hd
      cases hd
  · intro d x hd
    rw [length_append, length_singleton] at hd
    exact ⟨h.beyond d x (by omega), fun heq => by dsimp only at heq; omega⟩

theorem takeFrom {i size : ℕ} {addr : BufferAddress} (h : FreeSpace t F) (hfits : t.Fits size (c, i))
    (htake : t.takeFrom c i size = .ok (addr, t')) :
    addr.range size ⊆ F ∧ FreeSpace t' (F \ addr.range size) := by
  obtain ⟨chunk, hchunk, block, hblock, hsize⟩ := hfits
  have hc : c < t.chunks.length := (List.getElem?_eq_some_iff.mp hchunk).1
  dsimp only at hchunk hblock
  simp only [DynTallocr.takeFrom, hchunk, hblock, Except.ok.injEq, Prod.mk.injEq] at htake
  obtain ⟨rfl, rfl⟩ := htake
  obtain ⟨hi, heq⟩ := List.getElem?_eq_some_iff.mp hblock
  have hsplit : chunk.freeBlocks = chunk.freeBlocks.take i ++ block :: chunk.freeBlocks.drop (i + 1) := by
    rw [← heq, getElem_cons_drop, take_append_drop]
  have hbytes : block.bytes = bytes ⟨block.offset, size⟩ ∪ bytes ⟨block.offset + size, block.size - size⟩ := by
    rw [← bytes_join, Nat.add_sub_cancel' hsize]
  have hholds := h.blocks c chunk hchunk
  rw [hsplit] at hholds
  obtain ⟨hsub, hcarved⟩ := hholds.carve hbytes (disjoint_next _ _ _)
  have hrange : ∀ x, (c, x) ∈ BufferAddress.range ⟨c, block.offset⟩ size ↔ x ∈ bytes ⟨block.offset, size⟩ :=
    fun x => by simp [BufferAddress.mem_range]
  constructor
  · rintro ⟨d, x⟩ hx
    obtain ⟨rfl, hx⟩ := (BufferAddress.mem_range).mp hx
    exact hsub hx
  · refine h.set_chunk hc ?_ ?_
    · have hcarved : Holds (chunk.freeBlocks.set i ⟨block.offset + size, block.size - size⟩)
          {x | (c, x) ∈ F \ BufferAddress.range ⟨c, block.offset⟩ size} := by
        rw [set_eq_take_append_cons_drop, if_pos hi]
        refine hcarved.congr ?_
        ext x
        exact and_congr_right fun _ => not_congr (hrange x).symm
      dsimp only
      split
      · rename_i hempty
        rw [set_eq_take_append_cons_drop, if_pos hi] at hcarved
        rw [eraseIdx_eq_take_drop_succ]
        refine hcarved.drop ?_
        rw [hempty, bytes_empty]
      · exact hcarved
    · intro d x hd
      exact and_iff_left fun hx => hd hx.1

theorem newChunk {new : DynTallocr} {minSize size : ℕ} {addr : BufferAddress} (h : FreeSpace t F)
    (hnew : t.newChunk minSize = some new) (htake : new.takeFrom (new.chunks.length - 1) 0 size = .ok (addr, t')) :
    addr.range size ⊆ F ∧ ∃ F', FreeSpace t' F' ∧ F' ⊆ F \ addr.range size := by
  simp only [DynTallocr.newChunk] at hnew
  split at hnew
  · cases hnew
  · cases hnew
    generalize (if t.chunks.length = vbufferMaxChunks - 1 then sizeMax / 2 else max minSize t.maxChunkSize) = total
      at htake
    have hlast : (t.chunks ++ [(⟨[⟨0, total⟩], 0⟩ : Chunk)]).length - 1 = t.chunks.length := by simp
    rw [hlast] at htake
    simp only [DynTallocr.takeFrom, getElem?_concat_length, getElem?_cons_zero, Except.ok.injEq,
      Prod.mk.injEq] at htake
    obtain ⟨rfl, rfl⟩ := htake
    refine ⟨?_, ?_⟩
    · rintro ⟨d, x⟩ hx
      obtain ⟨rfl, -⟩ := (BufferAddress.mem_range).mp hx
      exact h.beyond _ x (Nat.le_refl _)
    · rw [set_append_right _ _ (Nat.le_refl _), Nat.sub_self]
      refine ⟨_, h.append_chunk (S := bytes ⟨0 + size, total - size⟩) ?_, ?_⟩
      · dsimp only
        split
        · rename_i hempty
          rw [hempty, bytes_empty]
          exact Holds.nil
        · exact Holds.single _
      · rintro ⟨d, x⟩ ⟨hF, hx⟩
        refine ⟨hF, fun hrange => ?_⟩
        obtain ⟨rfl, hfront⟩ := (BufferAddress.mem_range).mp hrange
        exact Set.disjoint_left.mp (disjoint_next 0 size (total - size)) hfront (hx rfl)

end FreeSpace

theorem alloc_spec {t t' : DynTallocr} {F : Set (ℕ × ℕ)} {size : ℕ} {addr : BufferAddress} (h : FreeSpace t F)
    (halloc : t.alloc size = .ok (addr, t')) :
    addr.range (alignedOffset size t.alignment) ⊆ F ∧
      ∃ F', FreeSpace t' F' ∧ F' ⊆ F \ addr.range (alignedOffset size t.alignment) := by
  simp only [DynTallocr.alloc] at halloc
  split at halloc
  · rename_i c i hfind
    obtain ⟨hsub, hfree⟩ := h.takeFrom (DynTallocr.findBlock_spec hfind) halloc
    exact ⟨hsub, _, hfree, le_refl _⟩
  · split at halloc
    · cases halloc
    · rename_i new hnew
      exact h.newChunk hnew halloc

theorem mergeLoop_spec {r : Block} {S : Set ℕ} (before after : List Block) {l : List Block}
    (h : Holds (before ++ after) S) (hdisj : Disjoint r.bytes S) (hl : mergeLoop r before after = some l) :
    Holds l (S ∪ r.bytes) := by
  induction after generalizing before with
  | nil => simp [mergeLoop] at hl
  | cons block after ih =>
    rw [mergeLoop.eq_def] at hl
    dsimp only at hl
    by_cases hend : block.offset + block.size = r.offset
    · have hbytes : bytes ⟨block.offset, block.size + r.size⟩ = block.bytes ∪ r.bytes := by
        rw [bytes_join, hend]
      have hgrown := h.grow hbytes hdisj
      rw [if_pos hend] at hl
      cases after with
      | nil =>
        cases hl
        exact hgrown
      | cons next rest =>
        dsimp only at hl
        by_cases hnext : block.offset + (block.size + r.size) = next.offset
        · rw [if_pos hnext] at hl
          cases hl
          refine hgrown.merge ?_
          rw [bytes_join, hnext]
        · rw [if_neg hnext] at hl
          cases hl
          exact hgrown
    · rw [if_neg hend] at hl
      by_cases hstart : r.offset + r.size = block.offset
      · have hbytes : bytes ⟨r.offset, r.size + block.size⟩ = block.bytes ∪ r.bytes := by
          rw [bytes_join, hstart, Set.union_comm]
        have hgrown := h.grow hbytes hdisj
        rw [if_pos hstart] at hl
        cases hlast : before.getLast? with
        | none =>
          rw [hlast] at hl
          cases hl
          exact hgrown
        | some prev =>
          rw [hlast] at hl
          dsimp only at hl
          by_cases hprev : prev.offset + prev.size = r.offset
          · rw [if_pos hprev] at hl
            cases hl
            have hsplit : before = before.dropLast ++ [prev] := by
              rw [dropLast_append_getLast? prev hlast]
            rw [hsplit, append_assoc, singleton_append] at hgrown
            refine hgrown.merge ?_
            rw [bytes_join, hprev]
          · rw [if_neg hprev] at hl
            cases hl
            exact hgrown
      · rw [if_neg hstart] at hl
        refine ih (before ++ [block]) ?_ hl
        rwa [append_assoc, singleton_append]

theorem insertBlock_spec {r : Block} {S : Set ℕ} {blocks l : List Block} (h : Holds blocks S)
    (hdisj : Disjoint r.bytes S) (hl : insertBlock blocks r = .ok l) : Holds l (S ∪ r.bytes) := by
  rw [insertBlock] at hl
  split at hl
  · cases hl
    refine Holds.insert ?_ hdisj
    rwa [takeWhile_append_dropWhile]
  · cases hl

theorem freeBlock_spec {r : Block} {S : Set ℕ} {blocks l : List Block} (h : Holds blocks S)
    (hdisj : Disjoint r.bytes S) (hl : freeBlock blocks r = .ok l) : Holds l (S ∪ r.bytes) := by
  rw [freeBlock] at hl
  split at hl
  · rename_i merged hmerged
    cases hl
    exact mergeLoop_spec [] blocks h hdisj hmerged
  · exact insertBlock_spec h hdisj hl

theorem freeTensor_spec {t t' : DynTallocr} {F : Set (ℕ × ℕ)} {addr : BufferAddress} {size : ℕ} (h : FreeSpace t F)
    (hdisj : Disjoint (addr.range (alignedOffset size t.alignment)) F) (hfree : t.freeTensor addr size = .ok t') :
    FreeSpace t' (F ∪ addr.range (alignedOffset size t.alignment)) := by
  rw [DynTallocr.freeTensor] at hfree
  split at hfree
  · cases hfree
  · rename_i chunk hchunk
    obtain ⟨freeBlocks, hblocks, hfree⟩ := (Except.bind_eq_ok_iff).mp hfree
    cases hfree
    have hholds := h.blocks _ chunk hchunk
    have hbytes : Disjoint (bytes ⟨addr.offset, alignedOffset size t.alignment⟩) {x | (addr.chunk, x) ∈ F} := by
      rw [Set.disjoint_left] at hdisj ⊢
      exact fun x hx hF => hdisj ((BufferAddress.mem_range).mpr ⟨rfl, hx⟩) hF
    have hnew := freeBlock_spec hholds hbytes hblocks
    refine h.set_chunk (List.getElem?_eq_some_iff.mp hchunk).1 (hnew.congr ?_) ?_
    · ext x
      rw [Set.mem_union, Set.mem_ofPred_eq, Set.mem_ofPred_eq, Set.mem_union, BufferAddress.mem_range]
      simp
    · intro d x hd
      exact or_iff_left fun hx => hd hx.1

/-! ### The alignment stays -/

theorem takeFrom_alignment {t t' : DynTallocr} {c i size : ℕ} {addr : BufferAddress}
    (htake : t.takeFrom c i size = .ok (addr, t')) : t'.alignment = t.alignment := by
  rw [DynTallocr.takeFrom] at htake
  split at htake
  · cases htake
  · split at htake <;> cases htake
    rfl

theorem alloc_alignment {t t' : DynTallocr} {size : ℕ} {addr : BufferAddress} (halloc : t.alloc size = .ok (addr, t')) :
    t'.alignment = t.alignment := by
  simp only [DynTallocr.alloc] at halloc
  split at halloc
  · exact takeFrom_alignment halloc
  · split at halloc
    · cases halloc
    · rename_i new hnew
      have hsame : new.alignment = t.alignment := by
        simp only [DynTallocr.newChunk] at hnew
        split at hnew <;> cases hnew
        rfl
      rw [takeFrom_alignment halloc, hsame]

theorem freeTensor_alignment {t t' : DynTallocr} {addr : BufferAddress} {size : ℕ}
    (hfree : t.freeTensor addr size = .ok t') : t'.alignment = t.alignment := by
  rw [DynTallocr.freeTensor] at hfree
  split at hfree
  · cases hfree
  · obtain ⟨freeBlocks, -, hfree⟩ := (Except.bind_eq_ok_iff).mp hfree
    cases hfree
    rfl

end Alloc
