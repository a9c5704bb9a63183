import LlamaRafaelia.Kv.StateScan

/-!
# What an untrusted stream does to the cells

`state_read_meta` passes positions and sequence ids to `pos_set` and `seq_add`, whose preconditions are assertions
only.  A negative position, or a sequence that is listed twice, breaks the invariant, and nothing else does.
-/

namespace KvCells

variable {g : ℕ → ℤ → ℕ} {c : KvCells} {i : ℕ}

/-! ### Adding a list of sequences -/

/-- The surplus grew, and only if it had to: `P` says that it did not. -/
structure Surplus (g g' : ℕ → ℤ → ℕ) (P : Prop) : Prop where
  le : ∀ s p, g s p ≤ g' s p
  same_iff : (∀ s < llamaMaxSeq, ∀ p, g' s p = g s p) ↔ P

/-- **A list of `seq_add`** to one cell: without a surplus when the ids are new to the cell and distinct. -/
theorem foldl_seqAdd_sound (ids : List ℕ) (hids : ∀ s ∈ ids, s < llamaMaxSeq) (h : Sound g c) (hi : i < c.size)
    (hp : c.pos i ≠ -1) :
    ∃ g', Sound g' (ids.foldl (fun c s => (c.seqAdd i s).value) c) ∧
      Surplus g g' (ids.Nodup ∧ ∀ s ∈ ids, s ∉ c.seq i) := by
  induction ids generalizing g c with
  | nil => exact ⟨g, h, ⟨fun _ _ => le_rfl, by simp⟩⟩
  | cons s ids ih =>
    have hs := hids s List.mem_cons_self
    have hrest : ∀ q ∈ ids, q < llamaMaxSeq := fun q hq => hids q (List.mem_cons_of_mem s hq)
    have hpos : (c.seqAdd i s).value.pos i = c.pos i := by
      rw [KvCells.pos, seqAdd_cell, Function.update_self]
      rfl
    have hseq : (c.seqAdd i s).value.seq i = insert s (c.seq i) := by
      rw [KvCells.seq, seqAdd_cell, Function.update_self]
      rfl
    by_cases hm : s ∈ c.seq i
    · -- a sequence that is there already leaves a surplus for good
      obtain ⟨g', hsound, hsur⟩ := ih hrest (seqAdd_sound_again h hm) hi (hpos ▸ hp)
      have hlt : g s (c.pos i) < g' s (c.pos i) := by
        have := hsur.le s (c.pos i)
        simp only [bump, and_self, if_true] at this
        omega
      refine ⟨g', hsound, ⟨fun q p => ?_, ⟨fun hsame => ?_, fun hno => ?_⟩⟩⟩
      · have := hsur.le q p
        simp only [bump] at this
        omega
      · have := hsame s hs (c.pos i)
        omega
      · exact absurd hm (hno.2 s List.mem_cons_self)
    · obtain ⟨g', hsound, hsur⟩ := ih hrest (seqAdd_sound h hi hs hp hm) hi (hpos ▸ hp)
      refine ⟨g', hsound, ⟨hsur.le, hsur.same_iff.trans ?_⟩⟩
      rw [hseq, List.nodup_cons]
      constructor
      · rintro ⟨hnd, hnew⟩
        refine ⟨⟨fun hin => hnew s hin (Finset.mem_insert_self _ _), hnd⟩, fun q hq => ?_⟩
        rcases List.mem_cons.mp hq with rfl | hq
        · exact hm
        · exact fun hin => hnew q hq (Finset.mem_insert_of_mem hin)
      · rintro ⟨⟨hin, hnd⟩, hnew⟩
        refine ⟨hnd, fun q hq hmem => ?_⟩
        rcases Finset.mem_insert.mp hmem with rfl | hmem
        · exact hin hq
        · exact hnew q (List.mem_cons_of_mem s hq) hmem

end KvCells

namespace KvCache

open List Checked KvCells Fallible

variable {kp : KvParams} {st tgt : KvCache} {g : ℕ → ℤ → ℕ} {c : KvCells}

/-! ### The records of one stream -/

/-- **Records with positions that are not negative** leave a surplus only for ids that are listed twice. -/
theorem putCells_sound (l : List (ℤ × List ℕ)) (hl : ∀ x ∈ l, 0 ≤ x.1 ∧ ∀ s ∈ x.2, s < llamaMaxSeq) (k : ℕ)
    (h : Sound g c) (hroom : k + l.length ≤ c.size) (hempty : ∀ i, k ≤ i → c.cell i = KvCell.empty) :
    ∃ g', Sound g' (putCells c k l) ∧ Surplus g g' (∀ x ∈ l, x.2.Nodup) := by
  induction l generalizing k c g with
  | nil => exact ⟨g, h, ⟨fun _ _ => le_rfl, by simp⟩⟩
  | cons x l ih =>
    obtain ⟨hpos, hids⟩ := hl x mem_cons_self
    rw [length_cons] at hroom
    have hk : k < c.size := by omega
    have hseq : c.seq k = ∅ := by
      rw [KvCells.seq, hempty k le_rfl]
      rfl
    have hset := posSet_sound h hk hpos hseq
    have hpos1 : (c.posSet k x.1).value.pos k ≠ -1 := by
      rw [KvCells.pos, posSet_cell, Function.update_self]
      show x.1 ≠ -1
      omega
    have hseq1 : (c.posSet k x.1).value.seq k = ∅ := by
      rw [KvCells.seq, posSet_cell, Function.update_self]
      exact hseq
    obtain ⟨g1, hsound1, hsur1⟩ := foldl_seqAdd_sound x.2 hids hset hk hpos1
    have hcell := putCell_cell c (hempty k le_rfl) x.1 x.2
    obtain ⟨g2, hsound2, hsur2⟩ := ih (fun y hy => hl y (mem_cons_of_mem x hy)) (k + 1) (c := putCell c k x.1 x.2)
      hsound1 (by rw [putCell_size]; omega) (fun i hi => by
        rw [hcell, Function.update_of_ne (by omega)]
        exact hempty i (by omega))
    refine ⟨g2, hsound2, ⟨fun s p => (hsur1.le s p).trans (hsur2.le s p), ⟨fun hsame => ?_, fun hnd => ?_⟩⟩⟩
    · have hsame1 : ∀ s < llamaMaxSeq, ∀ p, g1 s p = g s p := fun s hs p =>
        le_antisymm ((hsur2.le s p).trans (hsame s hs p).le) (hsur1.le s p)
      have hsame2 : ∀ s < llamaMaxSeq, ∀ p, g2 s p = g1 s p := fun s hs p =>
        (hsame s hs p).trans (hsame1 s hs p).symm
      intro y hy
      rcases mem_cons.mp hy with rfl | hy
      · exact (hsur1.same_iff.mp hsame1).1
      · exact hsur2.same_iff.mp hsame2 y hy
    · have hsame1 := hsur1.same_iff.mpr ⟨hnd x mem_cons_self, fun s _ => by
        rw [hseq1]
        exact Finset.notMem_empty s⟩
      have hsame2 := hsur2.same_iff.mpr fun y hy => hnd y (mem_cons_of_mem x hy)
      exact fun s hs p => (hsame2 s hs p).trans (hsame1 s hs p)

theorem foldl_seqAdd_used (ids : List ℕ) (i : ℕ) (c : KvCells) :
    (ids.foldl (fun c s => (c.seqAdd i s).value) c).used = c.used := by
  induction ids generalizing c with
  | nil => rfl
  | cons s ids ih =>
    rw [foldl_cons, ih]
    rfl

theorem putCells_used (l : List (ℤ × List ℕ)) (k : ℕ) (c : KvCells) :
    ∀ i, i ∈ (putCells c k l).used ↔ i ∈ c.used ∨ (k ≤ i ∧ i < k + l.length) := by
  induction l generalizing k c with
  | nil =>
    intro i
    rw [putCells, length_nil]
    exact ⟨Or.inl, fun h => h.resolve_right (by omega)⟩
  | cons x l ih =>
    intro i
    have hput : (putCell c k x.1 x.2).used = insert k c.used := foldl_seqAdd_used x.2 k _
    rw [putCells, ih, hput, Finset.mem_insert, length_cons]
    by_cases hik : i = k
    · subst hik
      exact ⟨fun _ => Or.inr (by omega), fun _ => Or.inl (Or.inl rfl)⟩
    · constructor
      · rintro ((rfl | hm) | hin)
        · exact absurd rfl hik
        · exact Or.inl hm
        · exact Or.inr (by omega)
      · rintro (hm | hin)
        · exact Or.inl (Or.inr hm)
        · exact Or.inr (by omega)

/-- **The cells after the records `l`** satisfy the invariant exactly when no record has a negative position or
lists a sequence twice. -/
theorem putCells_consistent_iff (l : List (ℤ × List ℕ)) {n : ℕ} (hlen : l.length ≤ n)
    (hids : ∀ x ∈ l, ∀ s ∈ x.2, s < llamaMaxSeq) :
    (putCells (resize n) 0 l).Consistent ↔ ∀ x ∈ l, 0 ≤ x.1 ∧ x.2.Nodup := by
  have hsurplus : (∀ x ∈ l, 0 ≤ x.1) → ∃ g', Sound g' (putCells (resize n) 0 l) ∧
      Surplus 0 g' (∀ x ∈ l, x.2.Nodup) := fun hpos =>
    putCells_sound l (fun x hx => ⟨hpos x hx, hids x hx⟩) 0 (resize_sound n) (by rwa [Nat.zero_add])
      fun _ _ => rfl
  constructor
  · intro hc
    have hpos : ∀ x ∈ l, 0 ≤ x.1 := by
      intro x hx
      obtain ⟨j, hj, rfl⟩ := getElem_of_mem hx
      obtain ⟨-, hcell, -⟩ := putCells_cell l 0 (resize n) fun _ _ => rfl
      have hposj : (putCells (resize n) 0 l).pos j = l[j].1 := by
        have := hcell j hj
        rw [Nat.zero_add] at this
        rw [KvCells.pos, this]
        rfl
      -- the index is in `used`, so its position cannot be `-1`
      have hused := (hc.used_iff j).mp ((putCells_used l 0 (resize n) j).mpr (Or.inr (by omega)))
      have hok := (hc.pos_ok j hused.1).resolve_left hused.2
      rwa [hposj] at hok
    obtain ⟨g', hsound, hsur⟩ := hsurplus hpos
    have hzero : ∀ s < llamaMaxSeq, ∀ p, g' s p = (0 : ℕ → ℤ → ℕ) s p := by
      intro s hs p
      have := (hsound.tracks s hs).count_eq (hc.tracks s hs) p
      show g' s p = 0
      omega
    exact fun x hx => ⟨hpos x hx, hsur.same_iff.mp hzero x hx⟩
  · intro hl
    obtain ⟨g', hsound, hsur⟩ := hsurplus fun x hx => (hl x hx).1
    have hsame := hsur.same_iff.mpr fun x hx => (hl x hx).2
    refine (consistent_iff_sound).mpr ⟨⟨hsound.used_iff, hsound.seq_used, hsound.seq_lt, fun s hs => ?_⟩, hsound.pos_ok⟩
    exact (hsound.tracks s hs).congr fun p => by rw [hsame s hs p]

/-! ### What the scan of a stream can yield -/

theorem scanIds_lt (n : ℕ) (l : List UInt8) : ∀ s ∈ (scanIds kp n l).1, s < kp.nSeqMax := by
  induction n generalizing l with
  | zero => simp [scanIds]
  | succ n ih =>
    rw [scanIds]
    cases scanI32 l with
    | rejected => simp
    | cut => simp
    | done s rest =>
      simp only
      split
      · simp
      · intro q hq
        rcases mem_cons.mp hq with rfl | hq
        · omega
        · exact ih rest q hq

theorem scanCells_fits (n : ℕ) (l : List UInt8) :
    (scanCells kp n l).1.length ≤ n ∧ ∀ x ∈ (scanCells kp n l).1, ∀ s ∈ x.2, s < kp.nSeqMax := by
  induction n generalizing l with
  | zero => simp [scanCells]
  | succ n ih =>
    rw [scanCells]
    cases scanHead l with
    | rejected => simp
    | cut => simp
    | done x rest =>
      simp only
      have hids := @scanIds_lt kp x.2 rest
      cases (scanIds kp x.2 rest).2 with
      | rejected => exact ⟨by simp, by simpa using hids⟩
      | cut => exact ⟨by simp, by simpa using hids⟩
      | done a rest' =>
        obtain ⟨hlen, hlt⟩ := ih rest'
        refine ⟨by simpa using hlen, fun y hy => ?_⟩
        rcases mem_cons.mp hy with rfl | hy
        · exact hids
        · exact hlt y hy

/-- The block that a scan yields: its stream is one of the cache, and its records fit into the cells. -/
structure BlockFits (kp : KvParams) (x : ℕ × List (ℤ × List ℕ)) : Prop where
  stream : x.1 < kp.nStream
  length : x.2.length ≤ kp.kvSize
  ids : ∀ y ∈ x.2, ∀ s ∈ y.2, s < kp.nSeqMax

theorem scanStreams_fits (ts : List ℕ) (hts : ∀ t ∈ ts, t < kp.nStream) (l : List UInt8)
    {last : Option (ℕ × List (ℤ × List ℕ))} (hlast : ∀ x, last = some x → BlockFits kp x) :
    ∀ x, (scanStreams kp ts l last).1 = some x → BlockFits kp x := by
  induction ts generalizing l last with
  | nil => exact hlast
  | cons t ts ih =>
    have hts' : ∀ t' ∈ ts, t' < kp.nStream := fun t' ht' => hts t' (mem_cons_of_mem t ht')
    rw [scanStreams]
    cases scanU32 l with
    | rejected => exact hlast
    | cut => exact hlast
    | done count rest =>
      simp only
      split
      · exact ih hts' rest hlast
      · split
        · exact hlast
        · next hle =>
          have hblock : ∀ x, some (t, (scanCells kp count rest).1) = some x → BlockFits kp x := by
            intro x hx
            obtain rfl := Option.some.inj hx
            obtain ⟨hlen, hids⟩ := @scanCells_fits kp count rest
            exact ⟨hts t mem_cons_self, hlen.trans (not_lt.mp hle), hids⟩
          cases (scanCells kp count rest).2 with
          | rejected => exact hblock
          | cut => exact hblock
          | done a rest' =>
            simp only
            cases scanData kp count rest' with
            | rejected => exact hblock
            | cut => exact hblock
            | done a' rest'' => exact ih hts' rest'' hblock

theorem scanAll_fits (l : List UInt8) : ∀ x, (scanAll kp l).1 = some x → BlockFits kp x := by
  rw [scanAll]
  cases scanU32 l with
  | rejected => simp
  | cut => simp
  | done n rest =>
    simp only
    split
    · simp
    · exact scanStreams_fits _ (fun t ht => List.mem_range.mp ht) rest (by simp)

/-! ### The invariant -/

/-- The stream is rejected, or it leaves records that the cells can hold: no position is negative and no
sequence is listed twice.  A stream that ends before any block begins leaves the cells that were there. -/
def RecordsSound (kp : KvParams) (tgt : KvCache) (l : List UInt8) : Prop :=
  (scanAll kp l).2 ≠ .rejected →
    match (scanAll kp l).1 with
    | none => ∀ t < kp.nStream, (tgt.vCells t).Consistent
    | some x => ∀ y ∈ x.2, 0 ≤ y.1 ∧ y.2.Nodup

/-- **When the representation invariant survives a stream of bytes.** -/
theorem stateRead_consistent_iff (kp : KvParams) (tgt : KvCache)
    (htgt : ∀ t < kp.nStream, (tgt.vCells t).size = kp.kvSize) (l : List UInt8) :
    (∀ t < kp.nStream, (((stateRead kp (-1)).run ⟨tgt, l⟩).2.cache.vCells t).Consistent) ↔
      RecordsSound kp tgt l := by
  have hend := stateReadAll_scan htgt l
  have hclean : (resize kp.kvSize).Consistent := (consistent_iff_sound).mpr (resize_sound kp.kvSize)
  generalize hout : (stateRead kp (-1)).run ⟨tgt, l⟩ = out at hend
  by_cases hrej : (scanAll kp l).2 = .rejected
  · refine ⟨fun _ h => absurd hrej h, fun _ t ht => ?_⟩
    rw [hend.rejected hrej t ht]
    exact hclean
  · have hload := hend.loaded hrej
    have hfits := @scanAll_fits kp l
    rw [RecordsSound, imp_iff_right hrej]
    cases hlast : (scanAll kp l).1 with
    | none =>
      rw [hlast] at hload
      exact forall_congr' fun t => forall_congr' fun ht => by rw [hload t ht]
    | some x =>
      rw [hlast] at hload
      obtain ⟨ht, hlen, hids⟩ := hfits x hlast
      have hiff := putCells_consistent_iff x.2 hlen fun y hy s hs =>
        (hids y hy s hs).trans_le kp.nSeqMax_le
      simp only
      rw [← hiff]
      constructor
      · intro h
        have := h x.1 ht
        rwa [hload x.1 ht, if_pos rfl] at this
      · intro h t ht'
        rw [hload t ht']
        split
        · exact h
        · exact hclean

/-- A stream for `smallCache` with one cell. -/
def cellStream (pos : ℤ) (ids : List ℕ) : List UInt8 :=
  u32 1 ++ u32 1 ++ cellBytes pos ids ++ u32 0 ++ u32 0

theorem cellStream_scan :
    scanAll smallCache (cellStream 0 [0]) = (some (0, [(0, [0])]), .done () []) := by decide +kernel

/-- One cell at position 0, of sequence 0. -/
theorem stateRead_consistent_iff_cell :
    (((stateRead smallCache (-1)).run
      ⟨KvCache.init smallCache, cellStream 0 [0]⟩).2.cache.vCells 0).Consistent := by
  refine (stateRead_consistent_iff smallCache (KvCache.init smallCache) (fun _ _ => rfl) (cellStream 0 [0])).mpr
    ?_ 0 (by decide)
  rw [RecordsSound, cellStream_scan]
  intro _ y hy
  obtain rfl := mem_singleton.mp hy
  exact ⟨le_rfl, nodup_singleton 0⟩

/-- The cells of the first stream after a record with position `-1` was read. -/
def unplaced : KvCells :=
  ((stateRead smallCache (-1)).run ⟨KvCache.init smallCache, cellStream (-1) [0]⟩).2.cache.vCells 0

/-- A record with position `-1` is accepted: its index is in `used`, and its cell looks empty. -/
theorem stateRead_negative_position :
    (((stateRead smallCache (-1)).run ⟨KvCache.init smallCache, cellStream (-1) [0]⟩).1 matches .ok _) = true ∧
      ¬ ∀ t < smallCache.nStream, (((stateRead smallCache (-1)).run
        ⟨KvCache.init smallCache, cellStream (-1) [0]⟩).2.cache.vCells t).Consistent := by
  have hused : 0 ∈ unplaced.used := by decide +kernel
  have hpos : unplaced.pos 0 = -1 := by decide +kernel
  refine ⟨by decide +kernel, fun h => ?_⟩
  have hc : unplaced.Consistent := h 0 (by decide)
  exact ((hc.used_iff 0).mp hused).2 hpos

/-! ### Reads that fail -/

def NoCells (kp : KvParams) (st : KvCache) : Prop :=
  ∀ t < kp.nStream, (st.vCells t).used = ∅ ∧ ∀ i < kp.kvSize, (st.vCells t).pos i = -1 ∧ (st.vCells t).seq i = ∅

/-- The stream is not cut off, or it is cut off before the first record of the block that was begun last; if no
block had begun, the cache was empty before. -/
def CutClean (kp : KvParams) (tgt : KvCache) (l : List UInt8) : Prop :=
  (scanAll kp l).2 = .cut →
    match (scanAll kp l).1 with
    | none => NoCells kp tgt
    | some x => x.2 = []

theorem noCells_of_resize (h : ∀ t < kp.nStream, st.vCells t = resize kp.kvSize) : NoCells kp st := fun t ht =>
  h t ht ▸ ⟨rfl, fun _ _ => ⟨rfl, rfl⟩⟩

theorem noCells_congr (h : ∀ t < kp.nStream, st.vCells t = tgt.vCells t) : NoCells kp st ↔ NoCells kp tgt :=
  forall_congr' fun t => forall_congr' fun ht => by rw [h t ht]

/-- **When a read of the whole cache that fails leaves no cell.** -/
theorem stateReadAll_failed_iff (htgt : ∀ t < kp.nStream, (tgt.vCells t).size = kp.kvSize) (l : List UInt8) :
    (((stateRead kp (-1)).run ⟨tgt, l⟩).1 ≠ .ok () → NoCells kp ((stateRead kp (-1)).run ⟨tgt, l⟩).2.cache) ↔
      CutClean kp tgt l := by
  have hend := stateReadAll_scan htgt l
  generalize hout : (stateRead kp (-1)).run ⟨tgt, l⟩ = out at hend
  have hok := hend.ok_iff
  cases hscan : (scanAll kp l).2 with
  | done a rest =>
    have : out.1 = .ok () := hok.mpr ⟨rest, hscan⟩
    rw [CutClean, hscan]
    simp [this]
  | rejected =>
    rw [CutClean, hscan]
    simp only [reduceCtorEq, false_imp_iff, iff_true]
    exact fun _ => noCells_of_resize (hend.rejected hscan)
  | cut =>
    have hload := hend.loaded (by simp [hscan])
    have hfail : out.1 ≠ .ok () := by
      rw [Ne, hok, hscan]
      simp
    rw [CutClean, hscan, imp_iff_right hfail, imp_iff_right rfl]
    cases hlast : (scanAll kp l).1 with
    | none =>
      rw [hlast] at hload
      exact noCells_congr hload
    | some x =>
      rw [hlast] at hload
      obtain ⟨ht, -, -⟩ := @scanAll_fits kp l x hlast
      constructor
      · intro h
        -- the first record is in `used`
        have hused := (h x.1 ht).1
        rw [hload x.1 ht, if_pos rfl] at hused
        by_contra hne
        have hmem := (putCells_used x.2 0 (resize kp.kvSize) 0).mpr
          (Or.inr ⟨le_rfl, by rw [Nat.zero_add]; exact length_pos_of_ne_nil hne⟩)
        rw [hused] at hmem
        exact Finset.notMem_empty 0 hmem
      · intro hnil
        have hnil' : x.2 = [] := hnil
        refine noCells_of_resize fun t ht' => ?_
        rw [hload t ht', hnil']
        split <;> rfl

end KvCache
