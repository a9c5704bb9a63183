import LlamaRafaelia.Alloc.Tiling

/-!
# Allocator: any number of allocations and frees

A session is what a caller sees of the allocator: what is allocated now, what was ever allocated, and the range that each
chunk had when it was created.  Calls allocate a number of bytes or free one of the live allocations.

* `Session.WellTiled` - **what holds between two calls**: the free blocks of each chunk are in order, not empty, not next to
  each other, and tile its range together with the live allocations; offsets are aligned; `max_size` covers everything;
* `run_sound` - **a session is well tiled after any calls** whose aligned sizes stay within the endless last chunk, unless
  a chunk has too many free blocks; there is always memory.
-/

namespace Alloc

open List

/-! ### Sessions -/

/-- The range of the chunk that `ggml_dyn_tallocr_new_chunk` would create. -/
def DynTallocr.newRange (alloc : DynTallocr) (minSize : ℕ) : ℕ :=
  if alloc.chunks.length = vbufferMaxChunks - 1 then sizeMax / 2 else max minSize alloc.maxChunkSize

/-- The allocator and its caller. -/
structure Session where
  talloc : DynTallocr
  /-- what is allocated: address and size -/
  live : List (BufferAddress × ℕ)
  /-- what was ever allocated -/
  made : List (BufferAddress × ℕ)
  /-- the ranges of the chunks -/
  ranges : List ℕ
deriving DecidableEq, Repr

/-- A call: an allocation, or a free of the `i`-th live allocation with its own size. -/
inductive Call where
  | alloc (size : ℕ)
  | free (i : ℕ)
deriving DecidableEq, Repr

def Call.bytes (alignment : ℕ) : Call → ℕ
  | alloc size => alignedOffset size alignment
  | free _ => 0

namespace Session

/-- `ggml_dyn_tallocr_new`. -/
def start (alignment maxBufferSize : ℕ) : Session := ⟨⟨alignment, min maxBufferSize (sizeMax / 2), []⟩, [], [], []⟩

def call (s : Session) : Call → Except Abort Session
  | .alloc size => do
    let (addr, talloc) ← s.talloc.alloc size
    let ranges := if s.talloc.chunks.length < talloc.chunks.length then
      s.ranges ++ [s.talloc.newRange (alignedOffset size s.talloc.alignment)] else s.ranges
    return ⟨talloc, s.live ++ [(addr, size)], s.made ++ [(addr, size)], ranges⟩
  | .free i =>
    match s.live[i]? with
    | none => .ok s
    | some a => do
      let talloc ← s.talloc.freeTensor a.1 a.2
      return { s with talloc := talloc, live := s.live.eraseIdx i }

def run (s : Session) (calls : List Call) : Except Abort Session := calls.foldlM call s

def block (alignment : ℕ) (a : BufferAddress × ℕ) : Block := ⟨a.1.offset, alignedOffset a.2 alignment⟩

def liveIn (s : Session) (c : ℕ) : List Block :=
  (s.live.filter fun a => a.1.chunk = c).map (block s.talloc.alignment)

/-- **Between two calls.** -/
structure WellTiled (s : Session) : Prop where
  chunks : s.ranges.length = s.talloc.chunks.length ∧ s.talloc.chunks.length ≤ vbufferMaxChunks
  inside : ∀ a ∈ s.live, a.1.chunk < s.talloc.chunks.length
  spaced : ∀ chunk ∈ s.talloc.chunks, chunk.freeBlocks.Pairwise fun a b => a.offset + a.size < b.offset
  solid : ∀ chunk ∈ s.talloc.chunks, ∀ b ∈ chunk.freeBlocks, 0 < b.size
  tiles : ∀ c chunk range, s.talloc.chunks[c]? = some chunk → s.ranges[c]? = some range →
    Holds (chunk.freeBlocks ++ s.liveIn c) (Set.Ico 0 range)
  aligned : ∀ a ∈ s.made, s.talloc.alignment ∣ a.1.offset
  reach : ∀ a ∈ s.made, ∃ chunk, s.talloc.chunks[a.1.chunk]? = some chunk ∧
    a.1.offset + alignedOffset a.2 s.talloc.alignment ≤ chunk.maxSize

/-- The free of `i` finds no neighbour and no room in the list of free blocks. -/
def Full (s : Session) (i : ℕ) : Prop :=
  ∃ a chunk, s.live[i]? = some a ∧ s.talloc.chunks[a.1.chunk]? = some chunk ∧
    maxFreeBlocks ≤ chunk.freeBlocks.length ∧ mergeLoop (block s.talloc.alignment a) [] chunk.freeBlocks = none

end Session

/-! ### The search among the last blocks -/

/-- **When the last block of some chunk is large enough, one is found.** -/
theorem lastFit_isSome {size : ℕ} (chunks : List Chunk) (c : ℕ) (best : Option (ℕ × ℕ) × ℤ)
    (hbest : best.1 = none → best.2 = -2 ^ 63)
    (hlow : ∀ chunk ∈ chunks, ∀ block, chunk.freeBlocks.getLast? = some block → block.offset + size < 2 ^ 63)
    (hfit : best.1 ≠ none ∨ ∃ chunk ∈ chunks, ∃ block, chunk.freeBlocks.getLast? = some block ∧ size ≤ block.size) :
    (lastFit size chunks c best).1 ≠ none := by
  induction chunks generalizing c best with
  | nil =>
    rcases hfit with hfound | ⟨chunk, hchunk, -⟩
    · exact hfound
    · cases hchunk
  | cons chunk chunks ih =>
    have hlow' := fun other hother => hlow other (mem_cons_of_mem _ hother)
    rw [lastFit]
    cases hlast : chunk.freeBlocks.getLast? with
    | none =>
      refine ih (c + 1) best hbest hlow' (hfit.imp_right ?_)
      rintro ⟨other, hother, block, hblock, hsize⟩
      rcases mem_cons.mp hother with rfl | hother
      · rw [hlast] at hblock
        cases hblock
      · exact ⟨other, hother, block, hblock, hsize⟩
    | some block =>
      dsimp only
      have hbound := hlow chunk (mem_cons_self ..) block hlast
      by_cases htake : size ≤ block.size ∧ (best.2 < 0 ∧ best.2 < (chunk.maxSize : ℤ) - block.offset - size ∨
          0 ≤ (chunk.maxSize : ℤ) - block.offset - size ∧ (chunk.maxSize : ℤ) - block.offset - size < best.2)
      · rw [if_pos htake]
        exact ih (c + 1) _ (fun h => by cases h) hlow' (.inl (by simp))
      · rw [if_neg htake]
        refine ih (c + 1) best hbest hlow' ?_
        rcases hfit with hfound | ⟨other, hother, block', hblock', hsize⟩
        · exact .inl hfound
        · rcases mem_cons.mp hother with rfl | hother
          · -- the first block that fits is always better than none
            rw [hlast] at hblock'
            cases hblock'
            refine .inl fun hnone => htake ⟨hsize, .inl ?_⟩
            rw [hbest hnone]
            omega
          · exact .inr ⟨other, hother, block', hblock', hsize⟩

namespace Session

variable {s s' : Session} {total size i c : ℕ}

/-- **The invariant of a session** in which `total` bytes were allocated so far. -/
structure Sound (s : Session) (total : ℕ) : Prop where
  chunks : s.ranges.length = s.talloc.chunks.length ∧ s.talloc.chunks.length ≤ vbufferMaxChunks
  inside : ∀ a ∈ s.live, a.1.chunk < s.talloc.chunks.length
  tiled : ∀ c chunk range, s.talloc.chunks[c]? = some chunk → s.ranges[c]? = some range →
    Tiled s.talloc.alignment total chunk.freeBlocks (s.liveIn c) range
  endless : ∀ range, s.ranges[vbufferMaxChunks - 1]? = some range → range = sizeMax / 2
  aligned : ∀ a ∈ s.made, s.talloc.alignment ∣ a.1.offset
  reach : ∀ a ∈ s.made, ∃ chunk, s.talloc.chunks[a.1.chunk]? = some chunk ∧
    a.1.offset + alignedOffset a.2 s.talloc.alignment ≤ chunk.maxSize

namespace Sound

theorem tiled_of_chunk (h : Sound s total) {chunk : Chunk} (hchunk : s.talloc.chunks[c]? = some chunk) :
    ∃ range, s.ranges[c]? = some range ∧ Tiled s.talloc.alignment total chunk.freeBlocks (s.liveIn c) range := by
  have hc : c < s.ranges.length := by
    rw [h.chunks.1]
    exact (List.getElem?_eq_some_iff.mp hchunk).1
  have hrange := getElem?_eq_getElem hc
  exact ⟨_, hrange, h.tiled c chunk _ hchunk hrange⟩

theorem wellTiled (h : Sound s total) : s.WellTiled := by
  have horderly : ∀ chunk ∈ s.talloc.chunks, ∃ P, Orderly P chunk.freeBlocks := by
    intro chunk hchunk
    obtain ⟨c, hc⟩ := getElem?_of_mem hchunk
    obtain ⟨range, -, htiled⟩ := h.tiled_of_chunk hc
    exact ⟨_, htiled.orderly⟩
  refine ⟨h.chunks, h.inside, ?_, ?_, ?_, h.aligned, h.reach⟩
  · intro chunk hchunk
    obtain ⟨P, hP⟩ := horderly chunk hchunk
    exact hP.spaced
  · intro chunk hchunk
    obtain ⟨P, hP⟩ := horderly chunk hchunk
    exact hP.solid
  · intro c chunk range hchunk hrange
    have htiles := (h.tiled c chunk range hchunk hrange).tiles
    rwa [Block.bytes, Nat.zero_add] at htiles

theorem start (alignment maxBufferSize : ℕ) : Sound (Session.start alignment maxBufferSize) 0 := by
  refine ⟨⟨rfl, Nat.zero_le _⟩, ?_, ?_, ?_, ?_, ?_⟩
  · intro a ha
    cases ha
  · intro c chunk range hchunk
    cases hchunk
  · intro range hrange
    cases hrange
  · intro a ha
    cases ha
  · intro a ha
    cases ha

theorem fresh {range : ℕ} (h : Sound s total) (hrange : 0 < range) (hcount : s.talloc.chunks.length < vbufferMaxChunks)
    (hendless : s.talloc.chunks.length = vbufferMaxChunks - 1 → range = sizeMax / 2) :
    Sound { s with
      talloc := { s.talloc with chunks := s.talloc.chunks ++ [⟨[⟨0, range⟩], 0⟩] }
      ranges := s.ranges ++ [range] } total := by
  obtain ⟨hlength, hmax⟩ := h.chunks
  have hold : ∀ {c : ℕ}, c < s.talloc.chunks.length →
      (s.talloc.chunks ++ [(⟨[⟨0, range⟩], 0⟩ : Chunk)])[c]? = s.talloc.chunks[c]? := getElem?_append_left
  refine ⟨?_, ?_, ?_, ?_, h.aligned, ?_⟩
  · simp only [length_append, length_singleton]
    omega
  · intro a ha
    have := h.inside a ha
    simp only [length_append, length_singleton]
    omega
  · intro c chunk range' hchunk hrange'
    dsimp only at hchunk hrange'
    rcases Nat.lt_trichotomy c s.talloc.chunks.length with hlt | rfl | hgt
    · rw [hold hlt] at hchunk
      rw [getElem?_append_left (hlength ▸ hlt)] at hrange'
      exact h.tiled c chunk range' hchunk hrange'
    · -- nothing lives in the new chunk
      have hempty : s.liveIn s.talloc.chunks.length = [] := by
        rw [liveIn, map_eq_nil_iff, filter_eq_nil_iff]
        intro a ha heq
        exact absurd (of_decide_eq_true heq) (Nat.ne_of_lt (h.inside a ha))
      rw [getElem?_concat_length, Option.some.injEq] at hchunk
      rw [← hlength, getElem?_concat_length, Option.some.injEq] at hrange'
      subst hchunk hrange'
      show Tiled s.talloc.alignment total _ (s.liveIn s.talloc.chunks.length) _
      rw [hempty]
      exact Tiled.fresh _ _ hrange
    · rw [getElem?_eq_none (by simp; omega)] at hchunk
      cases hchunk
  · intro range' hrange'
    dsimp only at hrange'
    by_cases hlast : s.ranges.length = vbufferMaxChunks - 1
    · rw [← hlast, getElem?_concat_length, Option.some.injEq] at hrange'
      rw [← hrange']
      exact hendless (hlength ▸ hlast)
    · by_cases hlt : vbufferMaxChunks - 1 < s.ranges.length
      · rw [getElem?_append_left hlt] at hrange'
        exact h.endless range' hrange'
      · rw [getElem?_eq_none (by simp; omega)] at hrange'
        cases hrange'
  · intro a ha
    obtain ⟨chunk, hchunk, hend⟩ := h.reach a ha
    exact ⟨chunk, (hold (List.getElem?_eq_some_iff.mp hchunk).1).trans hchunk, hend⟩

def carved (chunk : Chunk) (i : ℕ) (block : Block) (size : ℕ) : Chunk :=
  ⟨if block.size - size = 0 then chunk.freeBlocks.eraseIdx i
    else chunk.freeBlocks.set i ⟨block.offset + size, block.size - size⟩, max chunk.maxSize (block.offset + size)⟩

theorem takeFrom_eq {t : DynTallocr} {chunk : Chunk} {block : Block} (hchunk : t.chunks[c]? = some chunk)
    (hblock : chunk.freeBlocks[i]? = some block) (size : ℕ) :
    t.takeFrom c i size = .ok (⟨c, block.offset⟩, { t with chunks := t.chunks.set c (carved chunk i block size) }) := by
  simp only [DynTallocr.takeFrom, hchunk, hblock, carved]

theorem carve {chunk : Chunk} {b : Block} (h : Sound s total) (halign : 0 < s.talloc.alignment) (hpos : 0 < size)
    (hchunk : s.talloc.chunks[c]? = some chunk) (hblock : chunk.freeBlocks[i]? = some b)
    (hsize : alignedOffset size s.talloc.alignment ≤ b.size) :
    Sound {
      talloc := { s.talloc with
        chunks := s.talloc.chunks.set c (carved chunk i b (alignedOffset size s.talloc.alignment)) }
      live := s.live ++ [(⟨c, b.offset⟩, size)]
      made := s.made ++ [(⟨c, b.offset⟩, size)]
      ranges := s.ranges } (total + alignedOffset size s.talloc.alignment) := by
  set bytes := alignedOffset size s.talloc.alignment with hbytes
  have hc : c < s.talloc.chunks.length := (List.getElem?_eq_some_iff.mp hchunk).1
  have hbpos : 0 < bytes := Nat.lt_of_lt_of_le hpos (le_alignedOffset _ _)
  obtain ⟨range, hrange, htiled⟩ := h.tiled_of_chunk hchunk
  have hstart : s.talloc.alignment ∣ b.offset := (htiled.orderly.starts b (mem_of_getElem? hblock)).1
  refine ⟨?_, ?_, ?_, h.endless, ?_, ?_⟩
  · simpa only [length_set] using h.chunks
  · intro a ha
    rw [length_set]
    rcases mem_append.mp ha with ha | ha
    · exact h.inside a ha
    · rw [mem_singleton.mp ha]
      exact hc
  · intro d other range' hother hrange'
    dsimp only at hother hrange'
    by_cases hdc : d = c
    · subst hdc
      rw [getElem?_set_self hc, Option.some.injEq] at hother
      rw [hrange, Option.some.injEq] at hrange'
      subst hother hrange'
      have hlive : liveIn ⟨{ s.talloc with chunks := s.talloc.chunks.set d (carved chunk i b bytes) },
          s.live ++ [(⟨d, b.offset⟩, size)], s.made ++ [(⟨d, b.offset⟩, size)], s.ranges⟩ d =
            s.liveIn d ++ [⟨b.offset, bytes⟩] := by
        simp [liveIn, block, hbytes]
      rw [hlive]
      exact htiled.carve hblock hbpos hsize (dvd_alignedOffset halign size)
    · rw [getElem?_set_ne (Ne.symm hdc)] at hother
      have hlive : liveIn ⟨{ s.talloc with chunks := s.talloc.chunks.set c (carved chunk i b bytes) },
          s.live ++ [(⟨c, b.offset⟩, size)], s.made ++ [(⟨c, b.offset⟩, size)], s.ranges⟩ d = s.liveIn d := by
        simp [liveIn, Ne.symm hdc]
      rw [hlive]
      exact (h.tiled d other range' hother hrange').mono (Nat.le_add_right ..)
  · intro a ha
    rcases mem_append.mp ha with ha | ha
    · exact h.aligned a ha
    · rw [mem_singleton.mp ha]
      exact hstart
  · intro a ha
    dsimp only
    have hset : (s.talloc.chunks.set c (carved chunk i b bytes))[c]? = some (carved chunk i b bytes) :=
      getElem?_set_self hc
    rcases mem_append.mp ha with ha | ha
    · obtain ⟨other, hother, hend⟩ := h.reach a ha
      by_cases hac : a.1.chunk = c
      · rw [hac] at hother ⊢
        rw [hchunk, Option.some.injEq] at hother
        subst hother
        exact ⟨_, hset, hend.trans (Nat.le_max_left ..)⟩
      · exact ⟨other, (getElem?_set_ne (Ne.symm hac)).trans hother, hend⟩
    · rw [mem_singleton.mp ha]
      exact ⟨_, hset, Nat.le_max_right ..⟩

theorem free {a : BufferAddress × ℕ} {t : DynTallocr} (h : Sound s total) (ha : s.live[i]? = some a)
    (hfree : s.talloc.freeTensor a.1 a.2 = .ok t) :
    Sound { s with talloc := t, live := s.live.eraseIdx i } total := by
  obtain ⟨pre, post, herase, hsplit⟩ : ∃ pre post, s.live.eraseIdx i = pre ++ post ∧ s.live = pre ++ a :: post := by
    obtain ⟨hi, heq⟩ := List.getElem?_eq_some_iff.mp ha
    refine ⟨_, _, eraseIdx_eq_take_drop_succ .., ?_⟩
    rw [← heq, getElem_cons_drop, take_append_drop]
  have hsub : ∀ d ∈ s.live.eraseIdx i, d ∈ s.live := fun d hd => mem_of_mem_eraseIdx hd
  rw [DynTallocr.freeTensor] at hfree
  cases hchunk : s.talloc.chunks[a.1.chunk]? with
  | none =>
    rw [hchunk] at hfree
    cases hfree
  | some chunk =>
    rw [hchunk] at hfree
    obtain ⟨freeBlocks, hblocks, hfree⟩ := (Except.bind_eq_ok_iff).mp hfree
    cases hfree
    have hc : a.1.chunk < s.talloc.chunks.length := (List.getElem?_eq_some_iff.mp hchunk).1
    refine ⟨?_, ?_, ?_, h.endless, h.aligned, ?_⟩
    · simpa only [length_set] using h.chunks
    · intro d hd
      rw [length_set]
      exact h.inside d (hsub d hd)
    · intro d other range hother hrange
      dsimp only at hother hrange
      have hlive : ∀ chunks, liveIn ⟨{ s.talloc with chunks := chunks }, s.live.eraseIdx i, s.made, s.ranges⟩ d =
          (pre.filter fun e => e.1.chunk = d).map (block s.talloc.alignment) ++
            (post.filter fun e => e.1.chunk = d).map (block s.talloc.alignment) := by
        intro chunks
        simp only [liveIn, herase, filter_append, map_append]
      rw [hlive]
      by_cases hdc : d = a.1.chunk
      · subst hdc
        rw [getElem?_set_self hc, Option.some.injEq] at hother
        subst hother
        have htiled := h.tiled _ chunk range hchunk hrange
        have hbefore : s.liveIn a.1.chunk = (pre.filter fun e => e.1.chunk = a.1.chunk).map (block s.talloc.alignment) ++
            block s.talloc.alignment a ::
              (post.filter fun e => e.1.chunk = a.1.chunk).map (block s.talloc.alignment) := by
          rw [liveIn, hsplit, filter_append, map_append, filter_cons_of_pos (by simp), map_cons]
        rw [hbefore] at htiled
        exact htiled.free hblocks
      · rw [getElem?_set_ne (Ne.symm hdc)] at hother
        have htiled := h.tiled d other range hother hrange
        have hbefore : s.liveIn d = (pre.filter fun e => e.1.chunk = d).map (block s.talloc.alignment) ++
            (post.filter fun e => e.1.chunk = d).map (block s.talloc.alignment) := by
          rw [liveIn, hsplit, filter_append, map_append,
            filter_cons_of_neg (by simpa using Ne.symm hdc)]
        rwa [hbefore] at htiled
    · intro e he
      obtain ⟨other, hother, hend⟩ := h.reach e he
      dsimp only
      by_cases hec : e.1.chunk = a.1.chunk
      · rw [hec] at hother ⊢
        rw [hchunk, Option.some.injEq] at hother
        subst hother
        exact ⟨_, getElem?_set_self hc, hend⟩
      · exact ⟨other, (getElem?_set_ne (Ne.symm hec)).trans hother, hend⟩

/-- **There is memory**: when nothing is found, one more chunk can be created, since the last one is endless. -/
theorem chunks_lt (h : Sound s total) (hroom : total + size < sizeMax / 4) (hfind : s.talloc.findBlock size = none) :
    s.talloc.chunks.length < vbufferMaxChunks := by
  have hmax : sizeMax = 2 ^ 64 - 1 := rfl
  by_contra hall
  have hlength : s.talloc.chunks.length = vbufferMaxChunks := by
    have := h.chunks.2
    omega
  have hc : vbufferMaxChunks - 1 < s.talloc.chunks.length := by
    rw [hlength]
    decide
  have hchunk := getElem?_eq_getElem hc
  obtain ⟨range, hrange, htiled⟩ := h.tiled_of_chunk hchunk
  have hendless := h.endless range hrange
  obtain ⟨b, hb, hstart, hend⟩ := htiled.last (by omega)
  rw [DynTallocr.findBlock] at hfind
  split at hfind
  · cases hfind
  · refine lastFit_isSome s.talloc.chunks 0 (none, -2 ^ 63) (fun _ => rfl) ?_ (.inr ?_) hfind
    · intro chunk hmem block hblock
      obtain ⟨c, hc⟩ := getElem?_of_mem hmem
      obtain ⟨range', -, htiled'⟩ := h.tiled_of_chunk hc
      have hreached := (htiled'.orderly.starts block (mem_of_getLast? hblock)).2
      omega
    · exact ⟨_, getElem_mem hc, b, hb, by omega⟩

theorem alloc (h : Sound s total) (halign : 0 < s.talloc.alignment) (hpos : 0 < size)
    (hroom : total + alignedOffset size s.talloc.alignment < sizeMax / 4) :
    ∃ s', s.call (.alloc size) = .ok s' ∧ Sound s' (total + alignedOffset size s.talloc.alignment) ∧
      s'.talloc.alignment = s.talloc.alignment := by
  have hbpos : 0 < alignedOffset size s.talloc.alignment := Nat.lt_of_lt_of_le hpos (le_alignedOffset _ _)
  cases hfind : s.talloc.findBlock (alignedOffset size s.talloc.alignment) with
  | some found =>
    obtain ⟨chunk, hchunk, block, hblock, hsize⟩ := DynTallocr.findBlock_spec hfind
    have htake := takeFrom_eq hchunk hblock (alignedOffset size s.talloc.alignment)
    refine ⟨_, ?_, h.carve halign hpos hchunk hblock hsize, rfl⟩
    simp only [call, DynTallocr.alloc, hfind, htake]
    show Except.ok _ = _
    rw [if_neg (by rw [length_set]; exact Nat.lt_irrefl _)]
  | none =>
    have hlt := h.chunks_lt hroom hfind
    have hmax : sizeMax = 2 ^ 64 - 1 := rfl
    set range := s.talloc.newRange (alignedOffset size s.talloc.alignment) with hrange
    have hsize : alignedOffset size s.talloc.alignment ≤ range := by
      rw [hrange, DynTallocr.newRange]
      split
      · omega
      · exact Nat.le_max_left ..
    have hnew : s.talloc.newChunk (alignedOffset size s.talloc.alignment) =
        some { s.talloc with chunks := s.talloc.chunks ++ [⟨[⟨0, range⟩], 0⟩] } := by
      rw [DynTallocr.newChunk, if_neg (Nat.not_le.mpr hlt)]
      rfl
    have hendless : s.talloc.chunks.length = vbufferMaxChunks - 1 → range = sizeMax / 2 := fun heq => if_pos heq
    have hfresh := h.fresh (Nat.lt_of_lt_of_le hbpos hsize) hlt hendless
    have hchunk : (s.talloc.chunks ++ [(⟨[⟨0, range⟩], 0⟩ : Chunk)])[s.talloc.chunks.length]? = some ⟨[⟨0, range⟩], 0⟩ :=
      getElem?_concat_length
    refine ⟨_, ?_, hfresh.carve (i := 0) (b := ⟨0, range⟩) halign hpos hchunk rfl hsize, rfl⟩
    have hlast : (s.talloc.chunks ++ [(⟨[⟨0, range⟩], 0⟩ : Chunk)]).length - 1 = s.talloc.chunks.length := by simp
    have htake := takeFrom_eq (t := { s.talloc with chunks := s.talloc.chunks ++ [⟨[⟨0, range⟩], 0⟩] }) hchunk
      (i := 0) rfl (alignedOffset size s.talloc.alignment)
    simp only [call, DynTallocr.alloc, hfind, hnew, hlast, htake]
    show Except.ok _ = _
    rw [if_pos (by simp)]

theorem call (call : Call) (h : Sound s total) (halign : 0 < s.talloc.alignment)
    (hpos : ∀ size, call = .alloc size → 1 ≤ size) (hroom : total + call.bytes s.talloc.alignment < sizeMax / 4) :
    (∃ s', s.call call = .ok s' ∧ Sound s' (total + call.bytes s.talloc.alignment) ∧
      s'.talloc.alignment = s.talloc.alignment) ∨ ∃ i, call = .free i ∧ s.Full i := by
  cases call with
  | alloc size => exact .inl (h.alloc halign (hpos size rfl) hroom)
  | free i =>
    rw [Session.call]
    cases ha : s.live[i]? with
    | none => exact .inl ⟨s, rfl, h, rfl⟩
    | some a =>
      dsimp only
      cases hfree : s.talloc.freeTensor a.1 a.2 with
      | ok t => exact .inl ⟨_, rfl, h.free ha hfree, freeTensor_alignment hfree⟩
      | error e =>
        refine .inr ⟨i, rfl, a, ?_⟩
        have hlt := h.inside a (mem_of_getElem? ha)
        have hchunk := getElem?_eq_getElem hlt
        refine ⟨_, ha, hchunk, ?_⟩
        rw [DynTallocr.freeTensor, hchunk] at hfree
        dsimp only at hfree
        rw [freeBlock] at hfree
        cases hmerge : mergeLoop (block s.talloc.alignment a) [] s.talloc.chunks[a.1.chunk].freeBlocks with
        | some merged =>
          rw [← block, hmerge] at hfree
          cases hfree
        | none =>
          rw [← block, hmerge] at hfree
          dsimp only [insertBlock] at hfree
          split at hfree
          · cases hfree
          · rename_i hfull
            exact ⟨Nat.not_lt.mp hfull, rfl⟩

end Sound

theorem run_spec (calls : List Call) (h : Sound s total) (halign : 0 < s.talloc.alignment)
    (hpos : ∀ size, Call.alloc size ∈ calls → 1 ≤ size)
    (hroom : total + (calls.map (Call.bytes s.talloc.alignment)).sum < sizeMax / 4) :
    (∃ s', s.run calls = .ok s' ∧ Sound s' (total + (calls.map (Call.bytes s.talloc.alignment)).sum)) ∨
      ∃ before i after s', calls = before ++ .free i :: after ∧ s.run before = .ok s' ∧ s'.Full i := by
  induction calls generalizing s total with
  | nil => exact .inl ⟨s, rfl, h⟩
  | cons call calls ih =>
    rw [map_cons, sum_cons] at hroom ⊢
    have hfirst := h.call call halign (fun size heq => hpos size (heq ▸ mem_cons_self ..)) (by omega)
    rcases hfirst with ⟨s₁, hs₁, hsound, hsame⟩ | ⟨i, rfl, hfull⟩
    · rw [← Nat.add_assoc, ← hsame] at hroom ⊢
      have hrun : ∀ l, s.run (call :: l) = s₁.run l := by
        intro l
        rw [run, foldlM_cons, hs₁]
        rfl
      rw [hsame] at hroom ⊢
      have hrest := ih hsound (hsame ▸ halign) (fun size hmem => hpos size (mem_cons_of_mem _ hmem))
        (by rw [hsame]; exact hroom)
      rw [hsame] at hrest
      rw [hrun]
      rcases hrest with hdone | ⟨before, i, after, s', rfl, hs', hfull⟩
      · exact .inl hdone
      · exact .inr ⟨call :: before, i, after, s', rfl, (hrun before).trans hs', hfull⟩
    · exact .inr ⟨[], i, calls, s, rfl, rfl, hfull⟩

/-- **A session is well tiled after any calls**, unless a chunk has no room for one more free block: there is always
memory. -/
theorem run_sound (k maxBufferSize : ℕ) (calls : List Call) (hpos : ∀ size, Call.alloc size ∈ calls → 1 ≤ size)
    (hroom : (calls.map (Call.bytes (2 ^ k))).sum < sizeMax / 4) :
    (∃ s, (start (2 ^ k) maxBufferSize).run calls = .ok s ∧ s.WellTiled) ∨
      ∃ before i after s, calls = before ++ .free i :: after ∧ (start (2 ^ k) maxBufferSize).run before = .ok s ∧
        s.Full i := by
  have hstart := Sound.start (2 ^ k) maxBufferSize
  rcases run_spec calls hstart (Nat.two_pow_pos k) hpos (by rw [Nat.zero_add]; exact hroom) with ⟨s, hs, hsound⟩ | hfull
  · exact .inl ⟨s, hs, hsound.wellTiled⟩
  · exact .inr hfull

/-- Two allocations in one chunk, and the first is freed. -/
theorem run_sound_freed : ∃ s, (start 32 256).run [.alloc 8, .alloc 40, .free 0] = .ok s ∧ s.WellTiled ∧
    s.talloc.chunks = [⟨[⟨0, 32⟩, ⟨96, 160⟩], 96⟩] := by
  rcases run_sound 5 256 [.alloc 8, .alloc 40, .free 0] (by simp) (by decide) with ⟨s, hs, htiled⟩ | hfull
  · refine ⟨s, hs, htiled, ?_⟩
    cases hs
    rfl
  · -- nothing but the last call is a free, and its chunk has one free block
    obtain ⟨before, i, after, s, hcalls, hs, a, chunk, ha, hchunk, hlength, -⟩ := hfull
    rcases before with _ | ⟨first, _ | ⟨second, _ | ⟨third, rest⟩⟩⟩
    · simp at hcalls
    · simp at hcalls
    · simp only [cons_append, nil_append, List.cons.injEq, Call.free.injEq] at hcalls
      obtain ⟨rfl, rfl, rfl, -⟩ := hcalls
      cases hs
      cases ha
      cases hchunk
      exact absurd hlength (by decide)
    · simp at hcalls

/-- **An alignment of 2^62**: seventeen bytes, each on its own, do not fit. -/
theorem large_alignment_aborts : (start (2 ^ 62) 1).run (List.replicate 17 (.alloc 1)) = .error .outOfMemory ∧
    17 < sizeMax / 4 := by
  constructor
  · rfl
  · decide

end Session

end Alloc
