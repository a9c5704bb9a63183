import LlamaRafaelia.Kv.StateSeq

/-!
# When one sequence survives the round trip

The streams other than that of `a` are written as empty and skipped on reading, so one block decides: it is skipped
when `a` has no cells, rejected when the id is not written or no slot is found, and otherwise `b` is reloaded.
-/

namespace KvCache

open List Checked KvCells Fallible

variable {kp : KvParams} {st src tgt : KvCache} {G G' : ℕ → ℕ → ℤ → ℕ} {a b : ℕ}

/-! ### The loop over the streams -/

/-- What is written of sequence `a` in stream `t`. -/
def seqBlock (kp : KvParams) (src : KvCache) (a t : ℕ) : List UInt8 :=
  blockBytes kp src a t (writtenCells (src.vCells t) a)

theorem readStream_zero (seqId : ℤ) (s : ℕ) (st : KvCache) (rest : List UInt8) :
    (readStream kp seqId s).run ⟨st, u32 0 ++ rest⟩ = (.ok (), ⟨st, rest⟩) := by
  rw [readStream, run_bind_ok (readU32_u32 (by norm_num) _)]
  rfl

theorem readStreams_skip (hsrc : Ok kp G src) (seqId : ℤ) (l : List ℕ)
    (hl : ∀ t ∈ l, t < kp.nStream ∧ cellsOf kp src t a = []) (st : KvCache) (rest : List UInt8) :
    (l.forM (readStream kp seqId)).run ⟨st, l.flatMap (seqBlock kp src a) ++ rest⟩ = (.ok (), ⟨st, rest⟩) := by
  induction l with
  | nil => rfl
  | cons t l ih =>
    obtain ⟨ht, hnil⟩ := hl t mem_cons_self
    have hblock : seqBlock kp src a t = u32 0 := by
      rw [seqBlock, writtenCells_seq hsrc ht, hnil, blockBytes, if_pos rfl]
    rw [forM_cons, flatMap_cons, append_assoc, hblock, run_bind_ok (readStream_zero ..)]
    exact ih fun t' ht' => hl t' (mem_cons_of_mem t ht')

/-- The streams after that of `a`. -/
def laterStreams (kp : KvParams) (a : ℕ) : List ℕ :=
  range' (kp.streamOf a + 1) (kp.nStream - (kp.streamOf a + 1))

theorem range_streamOf (kp : KvParams) (a : ℕ) :
    range kp.nStream = range (kp.streamOf a) ++ kp.streamOf a :: laterStreams kp a := by
  have ht := kp.streamOf_lt a
  have hsplit : kp.nStream = kp.streamOf a + ((kp.nStream - (kp.streamOf a + 1)) + 1) := by omega
  rw [laterStreams, ← range'_succ, range_eq_range', range_eq_range']
  conv_lhs => rw [hsplit]
  rw [← range'_append_1, Nat.zero_add]

/-- **Reading one sequence** comes down to the block of its stream. -/
theorem stateReadSeq_eq (hfit : kp.OffsetsFit) (hsrc : Ok kp G src) (b : ℕ) (rest : List UInt8) :
    (stateRead kp b).run ⟨tgt, (src.stateWrite kp a).value ++ rest⟩
      = ((kp.streamOf a :: laterStreams kp a).forM (readStream kp b)).run
        ⟨tgt, seqBlock kp src a (kp.streamOf a) ++
          ((laterStreams kp a).flatMap (seqBlock kp src a) ++ rest)⟩ := by
  have hbefore : ∀ t ∈ range (kp.streamOf a), t < kp.nStream ∧ cellsOf kp src t a = [] := by
    intro t ht
    have hlt := mem_range.mp ht
    have hlt' : t < kp.nStream := hlt.trans (kp.streamOf_lt a)
    exact ⟨hlt', cellsOf_other hsrc hlt' hlt.ne⟩
  have hwrite : (src.stateWrite kp a).value
      = u32 kp.nStream ++ (range kp.nStream).flatMap (seqBlock kp src a) :=
    stateWrite_value hfit fun t ht => (hsrc t ht).size
  rw [hwrite, append_assoc, stateRead, run_bind_ok (run_lift _ _),
    run_bind_ok (readU32_u32 (nStream_lt kp) _)]
  simp only [ne_eq, not_true_eq_false, if_false]
  rw [range_streamOf kp a, flatMap_append, append_assoc,
    forM_append_ok _ (readStreams_skip hsrc b _ hbefore tgt _), flatMap_cons, append_assoc]

theorem laterStreams_skip (hsrc : Ok kp G src) (st : KvCache) (rest : List UInt8) :
    ((laterStreams kp a).forM (readStream kp b)).run
      ⟨st, (laterStreams kp a).flatMap (seqBlock kp src a) ++ rest⟩ = (.ok (), ⟨st, rest⟩) := by
  refine readStreams_skip hsrc b _ (fun t ht => ?_) st rest
  rw [laterStreams, mem_range'_1] at ht
  have hlt : t < kp.nStream := by omega
  exact ⟨hlt, cellsOf_other hsrc hlt (by omega)⟩

/-! ### The three outcomes -/

theorem stateReadSeq_empty (hfit : kp.OffsetsFit) (hsrc : Ok kp G src)
    (hnil : cellsOf kp src (kp.streamOf a) a = []) (rest : List UInt8) :
    (stateRead kp b).run ⟨tgt, (src.stateWrite kp a).value ++ rest⟩ = (.ok (), ⟨tgt, rest⟩) := by
  have hblock : seqBlock kp src a (kp.streamOf a) = u32 0 := by
    rw [seqBlock, writtenCells_seq hsrc (kp.streamOf_lt a), hnil, blockBytes, if_pos rfl]
  rw [stateReadSeq_eq hfit hsrc, forM_cons, hblock, run_bind_ok (readStream_zero ..)]
  exact laterStreams_skip hsrc tgt rest

theorem stateReadSeq_rejected (hfit : kp.OffsetsFit) (hsrc : Ok kp G src) (hpos : PosFits kp src)
    (hne : cellsOf kp src (kp.streamOf a) a ≠ [])
    (hrej : ¬ a < kp.nSeqMax ∨ restoreSlot kp src tgt a b = none) (rest : List UInt8) :
    ∃ s', (stateRead kp b).run ⟨tgt, (src.stateWrite kp a).value ++ rest⟩ = (.error .restoreFailed, s') := by
  have hcount : (cellsOf kp src (kp.streamOf a) a).length < 2 ^ 32 := by
    have hle : (cellsOf kp src (kp.streamOf a) a).length ≤ kp.kvSize :=
      (length_filter_le _ _).trans (by rw [length_range])
    exact lt_of_le_of_lt hle kp.kvSize_lt
  have hne0 := mt length_eq_zero_iff.mp hne
  rw [stateReadSeq_eq hfit hsrc, forM_cons, seqBlock, blockBytes_seq hsrc hne, append_assoc,
    append_assoc]
  generalize hmore : dataBytes kp src (kp.streamOf a) (cellsOf kp src (kp.streamOf a) a) ++
    ((laterStreams kp a).flatMap (seqBlock kp src a) ++ rest) = more
  have hthrow : ∃ s', (readStream kp b (kp.streamOf a)).run
      ⟨tgt, u32 (cellsOf kp src (kp.streamOf a) a).length ++ (seqRecords kp src a ++ more)⟩
        = (.error .restoreFailed, s') := by
    by_cases ha : a < kp.nSeqMax
    · have hnone := hrej.resolve_left (not_not.mpr ha)
      exact readStream_rejected hcount hne0 (readMetaSeq_full (readSeqRecords_run hsrc hpos ha more) hnone)
    · obtain ⟨rest', hrun⟩ := readSeqRecords_none hsrc hpos ha hne more
      exact readStream_rejected hcount hne0 (readMetaSeq_bad hrun)
  obtain ⟨s', hs'⟩ := hthrow
  exact ⟨s', run_bind_error hs'⟩

theorem stateReadSeq_reloaded (hfit : kp.OffsetsFit) (hswa : kp.swaType = .none) (hsrc : Ok kp G src)
    (htgt : Ok kp G' tgt) (hpos : PosFits kp src) (hb : b < kp.seqToStream.length) (ha : a < kp.nSeqMax)
    (hne : cellsOf kp src (kp.streamOf a) a ≠ []) (hslot : restoreSlot kp src tgt a b ≠ none)
    (rest : List UInt8) :
    ∃ st' h, (stateRead kp b).run ⟨tgt, (src.stateWrite kp a).value ++ rest⟩ = (.ok (), ⟨st', rest⟩) ∧
      Reloaded kp src tgt a b h st' := by
  obtain ⟨si, hsi⟩ := Option.ne_none_iff_exists'.mp hslot
  obtain ⟨st', h, hrun, hrel⟩ := readStream_reloaded hfit hswa hsrc htgt hpos hb ha hne hsi (kp.streamOf a)
    ((laterStreams kp a).flatMap (seqBlock kp src a) ++ rest)
  refine ⟨st', h, ?_, hrel⟩
  rw [stateReadSeq_eq hfit hsrc, forM_cons, seqBlock, run_bind_ok hrun]
  exact laterStreams_skip hsrc st' rest

/-! ### What the removal of `b` leaves -/

theorem removed_holds (htgt : Ok kp G tgt) (hb : b < kp.seqToStream.length) {t i : ℕ} (ht : t < kp.nStream)
    (hi : i < kp.kvSize) (q : ℕ) (p : ℤ) :
    (q ∈ ((removed kp b tgt).vCells t).seq i ∧
        ((removed kp b tgt).vCells t).pos i = p) ↔
      (q ∈ (tgt.vCells t).seq i ∧ (tgt.vCells t).pos i = p) ∧ (q = b → llamaPosMax ≤ p) := by
  have hlo : rangeLo (-1) = 0 := rfl
  have hhi : rangeHi (-1) = llamaPosMax := rfl
  rw [seqRm_at htgt hb (-1) (-1) ht hi, hlo, hhi]
  refine and_congr_right fun hq => ?_
  have hpos : 0 ≤ p := hq.2 ▸ htgt.pos_nonneg ht hi hq.1
  constructor
  · intro hout he
    by_contra hlt
    exact hout ⟨he, hpos, not_le.mp hlt⟩
  · rintro hmax ⟨he, -, hlt⟩
    exact absurd (hmax he) (not_le.mpr hlt)

theorem removed_mem (htgt : Ok kp G tgt) (hb : b < kp.seqToStream.length) {t i : ℕ} (ht : t < kp.nStream)
    (hi : i < kp.kvSize) {q : ℕ} (hq : q ∈ ((removed kp b tgt).vCells t).seq i) :
    q ∈ (tgt.vCells t).seq i ∧
      ((removed kp b tgt).vCells t).pos i = (tgt.vCells t).pos i ∧
      (q = b → llamaPosMax ≤ (tgt.vCells t).pos i) := by
  obtain ⟨⟨hmem, hpos⟩, hmax⟩ := (removed_holds htgt hb ht hi q _).mp ⟨hq, rfl⟩
  exact ⟨hmem, hpos.symm, fun he => hpos ▸ hmax he⟩

theorem mem_removed (htgt : Ok kp G tgt) (hb : b < kp.seqToStream.length) {t i : ℕ} (ht : t < kp.nStream)
    (hi : i < kp.kvSize) {q : ℕ} (hq : q ∈ (tgt.vCells t).seq i)
    (hmax : q = b → llamaPosMax ≤ (tgt.vCells t).pos i) :
    q ∈ ((removed kp b tgt).vCells t).seq i :=
  ((removed_holds htgt hb ht hi q _).mpr ⟨⟨hq, rfl⟩, hmax⟩).1

/-! ### When there is a slot -/

/-- Room for `n` cells of `b`: as many consecutive cells that hold at most `b`, below the largest position. -/
def Room (kp : KvParams) (tgt : KvCache) (b n : ℕ) : Prop :=
  ∃ h, h + n ≤ kp.kvSize ∧ ∀ i, h ≤ i → i < h + n →
    (tgt.vCells (kp.streamOf b)).seq i ⊆ {b} ∧ (tgt.vCells (kp.streamOf b)).pos i < llamaPosMax

theorem removed_empty_iff (htgt : Ok kp G tgt) (hb : b < kp.seqToStream.length) {i : ℕ} (hi : i < kp.kvSize) :
    ((removed kp b tgt).vCells (kp.streamOf b)).pos i = -1 ↔
      (tgt.vCells (kp.streamOf b)).seq i ⊆ {b} ∧ (tgt.vCells (kp.streamOf b)).pos i < llamaPosMax := by
  obtain ⟨-, hrm, hcell⟩ := seqRm_spec htgt hb (-1) (-1)
  have ht := kp.streamOf_lt b
  have hmax : llamaPosMax = 2147483647 := rfl
  have hok := (hrm _ ht)
  constructor
  · intro hp
    -- an empty cell holds nothing, so what it held has been removed
    have hnone : ∀ q, q ∉ ((removed kp b tgt).vCells (kp.streamOf b)).seq i := fun q hq =>
      hok.sound.seq_used i (hok.size ▸ hi) (Finset.ne_empty_of_mem hq) hp
    have hsub : (tgt.vCells (kp.streamOf b)).seq i ⊆ {b} := by
      intro q hq
      rw [Finset.mem_singleton]
      by_contra hne
      exact hnone q (mem_removed htgt hb ht hi hq fun he => absurd he hne)
    refine ⟨hsub, ?_⟩
    by_contra hge
    have hused : (tgt.vCells (kp.streamOf b)).pos i ≠ -1 := by omega
    obtain ⟨q, hq⟩ := Finset.nonempty_of_ne_empty ((htgt _ ht).owned i hi hused)
    exact hnone q (mem_removed htgt hb ht hi hq fun _ => not_lt.mp hge)
  · rintro ⟨hsub, hlt⟩
    by_contra hp
    obtain ⟨q, hq⟩ := Finset.nonempty_of_ne_empty (hok.owned i hi hp)
    obtain ⟨hmem, -, hge⟩ := removed_mem htgt hb ht hi hq
    have := hge (Finset.mem_singleton.mp (hsub hmem))
    omega

/-- A cell of the stream of `b` that holds at most `b`, below the largest position. -/
def Spare (kp : KvParams) (st : KvCache) (b i : ℕ) : Prop :=
  (st.vCells (kp.streamOf b)).seq i ⊆ {b} ∧ (st.vCells (kp.streamOf b)).pos i < llamaPosMax

theorem findSlot_restore_none (hok : Ok kp G st) {pos : List ℤ} (hne : pos ≠ []) :
    (st.findSlot kp (restoreUbatch kp b pos) true).value = none ↔
      ∀ h, ¬ Window kp (st.vCells (kp.streamOf b)) pos.length h := by
  have hst := hok _ (kp.streamOf_lt b)
  have hhead : st.vHeads (kp.streamOf b) ≤ (st.vCells (kp.streamOf b)).size := hst.size ▸ hst.head_le
  rw [← findStream_cont_none_iff hhead (length_pos_of_ne_nil hne), findSlot, bind_value,
    restoreUbatch_slotSeqs, loopRange, range_one, loop_cons, bind_value, loop_nil, pure_value]
  simp only [findStep, bind_value, pure_value, Option.map_eq_none_iff, restoreUbatch_slotTokens]
  rfl

theorem usable_removed_iff (hswa : kp.swaType = .none) (htgt : Ok kp G tgt) (hb : b < kp.seqToStream.length) {i : ℕ}
    (hi : i < kp.kvSize) :
    Usable kp ((removed kp b tgt).vCells (kp.streamOf b)) i ↔ Spare kp tgt b i := by
  have hrm := htgt.removed hb
  have hst := hrm _ (kp.streamOf_lt b)
  rw [usable_iff hst.sound (hst.size ▸ hi), Spare, ← removed_empty_iff htgt hb hi]
  simp only [isMasked_none hswa, Bool.false_eq_true, and_false, exists_false, or_false]

theorem usable_removed (htgt : Ok kp G tgt) (hb : b < kp.seqToStream.length) {i : ℕ} (hi : i < kp.kvSize)
    (h : Spare kp tgt b i) : Usable kp ((removed kp b tgt).vCells (kp.streamOf b)) i := by
  have hrm := htgt.removed hb
  have hst := hrm _ (kp.streamOf_lt b)
  exact (usable_iff hst.sound (hst.size ▸ hi)).mpr (Or.inl ((removed_empty_iff htgt hb hi).mpr h))

/-- **`find_slot` finds a slot for the cells of `a`** exactly when there is room for them. -/
theorem restoreSlot_ne_none_iff (hswa : kp.swaType = .none) (htgt : Ok kp G tgt)
    (hb : b < kp.seqToStream.length) (hne : cellsOf kp src (kp.streamOf a) a ≠ []) :
    restoreSlot kp src tgt a b ≠ none ↔ Room kp tgt b (cellsOf kp src (kp.streamOf a) a).length := by
  have hrm := htgt.removed hb
  have hlen : (seqPositions kp src a).length = (cellsOf kp src (kp.streamOf a) a).length := length_map ..
  have hpne : seqPositions kp src a ≠ [] := fun h => hne (map_eq_nil_iff.mp h)
  rw [restoreSlot, Ne, findSlot_restore_none hrm hpne, hlen, not_forall]
  simp only [not_not]
  refine exists_congr fun h => ?_
  rw [Window, (hrm _ (kp.streamOf_lt b)).size]
  refine and_congr_right fun hroom => ?_
  refine forall_congr' fun i => forall_congr' fun _ => ?_
  exact forall_congr' fun hlt => usable_removed_iff hswa htgt hb (by omega)

/-! ### Entries of one sequence -/

def seqEntry (kp : KvParams) (st : KvCache) (t i : ℕ) : ℤ × List (List UInt8) × List (List UInt8) :=
  ((st.vCells t).pos i, kp.layers.zipIdx.map fun x => kRow x st t i,
    kp.layers.zipIdx.map fun x => vRow kp x st t i)

/-- The entries of sequence `s`. -/
def seqEntries (kp : KvParams) (st : KvCache) (s : ℕ) : Multiset (ℤ × List (List UInt8) × List (List UInt8)) :=
  Multiset.ofList ((cellsOf kp st (kp.streamOf s) s).map (seqEntry kp st (kp.streamOf s)))

/-- Every entry of every sequence other than `b` is what it was. -/
def OthersKept (kp : KvParams) (b : ℕ) (st st' : KvCache) : Prop :=
  ∀ t < kp.nStream, ∀ i < kp.kvSize, ∀ s, s ≠ b →
    (s ∈ (st'.vCells t).seq i ↔ s ∈ (st.vCells t).seq i) ∧
    (s ∈ (st.vCells t).seq i → seqEntry kp st' t i = seqEntry kp st t i)

theorem filter_range_interval {n m h : ℕ} (hle : h + n ≤ m) :
    ((range m).filter fun i => h ≤ i ∧ i < h + n) = range' h n := by
  have hsplit : range m = range' 0 h ++ (range' h n ++ range' (h + n) (m - (h + n))) := by
    rw [range'_append_1, range_eq_range']
    have h1 : n + (m - (h + n)) = m - h := by omega
    have h2 := @range'_append_1 0 h (m - h)
    rw [Nat.zero_add] at h2
    rw [h1, h2]
    congr 1
    omega
  have hnone : ∀ l : List ℕ, (∀ i ∈ l, ¬ (h ≤ i ∧ i < h + n)) →
      (l.filter fun i => h ≤ i ∧ i < h + n) = [] := fun l hl =>
    filter_eq_nil_iff.mpr fun i hi => by simpa using hl i hi
  have hall : ((range' h n).filter fun i => h ≤ i ∧ i < h + n) = range' h n :=
    filter_eq_self.mpr fun i hi => by simpa using mem_range'_1.mp hi
  rw [hsplit, filter_append, filter_append, hall, hnone _ fun i hi => ?_, hnone _ fun i hi => ?_,
    nil_append, append_nil]
  · have := mem_range'_1.mp hi
    omega
  · have := mem_range'_1.mp hi
    omega

theorem card_seqEntries (s : ℕ) :
    (seqEntries kp st s).card = (cellsOf kp st (kp.streamOf s) s).length := by
  rw [seqEntries, Multiset.coe_card, length_map]

variable {h : ℕ}

theorem Reloaded.othersKept (hr : Reloaded kp src tgt a b h st) (htgt : Ok kp G tgt)
    (hb : b < kp.seqToStream.length) : OthersKept kp b tgt st := by
  intro t ht i hi s hs
  have hrest : s ∈ ((removed kp b tgt).vCells t).seq i ↔ s ∈ (tgt.vCells t).seq i :=
    ⟨fun hm => (removed_mem htgt hb ht hi hm).1, fun hm => mem_removed htgt hb ht hi hm fun he => absurd he hs⟩
  by_cases hout : t ≠ kp.streamOf b ∨ i < h ∨ h + (cellsOf kp src (kp.streamOf a) a).length ≤ i
  · have hcell := hr.others t ht i hi hout
    refine ⟨?_, fun hm => ?_⟩
    · rw [KvCells.seq, hcell]
      exact hrest
    · have hpos : (st.vCells t).pos i = (tgt.vCells t).pos i := by
        rw [KvCells.pos, hcell]
        exact (removed_mem htgt hb ht hi (hrest.mpr hm)).2.1
      refine Prod.ext hpos (Prod.ext ?_ ?_)
      · exact map_congr_left fun x hx => (hr.rows x hx).1.old t i hi hout
      · exact map_congr_left fun x hx => (hr.rows x hx).2.old t i hi hout
  · -- a cell of the slot was empty
    obtain ⟨hstream, hge, hlt⟩ : t = kp.streamOf b ∧ h ≤ i ∧ i < h + (cellsOf kp src (kp.streamOf a) a).length := by
      omega
    obtain ⟨k, rfl⟩ := Nat.exists_eq_add_of_le hge
    have hk : k < (cellsOf kp src (kp.streamOf a) a).length := by omega
    subst hstream
    have hnone : s ∉ (tgt.vCells (kp.streamOf b)).seq (h + k) := fun hm => by
      have := hrest.mpr hm
      rw [hr.free k hk] at this
      exact Finset.notMem_empty s this
    refine ⟨?_, fun hm => absurd hm hnone⟩
    rw [(hr.cells k hk).2, Finset.mem_singleton]
    exact ⟨fun he => absurd he hs, fun hm => absurd hm hnone⟩

theorem Reloaded.mem_iff (hr : Reloaded kp src tgt a b h st) (htgt : Ok kp G tgt)
    (hb : b < kp.seqToStream.length) {i : ℕ} (hi : i < kp.kvSize) :
    b ∈ (st.vCells (kp.streamOf b)).seq i ↔
      (h ≤ i ∧ i < h + (cellsOf kp src (kp.streamOf a) a).length) ∨
      (b ∈ (tgt.vCells (kp.streamOf b)).seq i ∧ llamaPosMax ≤ (tgt.vCells (kp.streamOf b)).pos i) := by
  have ht := kp.streamOf_lt b
  by_cases hin : h ≤ i ∧ i < h + (cellsOf kp src (kp.streamOf a) a).length
  · obtain ⟨k, rfl⟩ := Nat.exists_eq_add_of_le hin.1
    rw [(hr.cells k (by omega)).2]
    exact ⟨fun _ => Or.inl hin, fun _ => Finset.mem_singleton_self b⟩
  · rw [KvCells.seq, hr.others _ ht i hi (by omega)]
    constructor
    · intro hm
      obtain ⟨hmem, -, hmax⟩ := removed_mem htgt hb ht hi hm
      exact Or.inr ⟨hmem, hmax rfl⟩
    · intro hm
      obtain ⟨hmem, hmax⟩ := hm.resolve_left hin
      exact mem_removed htgt hb ht hi hmem fun _ => hmax

theorem Reloaded.entries_eq (hr : Reloaded kp src tgt a b h st) (htgt : Ok kp G tgt)
    (hb : b < kp.seqToStream.length)
    (hlow : ∀ i ∈ cellsOf kp tgt (kp.streamOf b) b, (tgt.vCells (kp.streamOf b)).pos i < llamaPosMax) :
    seqEntries kp st b = seqEntries kp src a := by
  have hroom := hr.room
  have hcells : cellsOf kp st (kp.streamOf b) b
      = range' h (cellsOf kp src (kp.streamOf a) a).length := by
    have hlt : (cellsOf kp st (kp.streamOf b) b)
        = (range kp.kvSize).filter fun i => h ≤ i ∧ i < h + (cellsOf kp src (kp.streamOf a) a).length := by
      refine filter_congr fun i hi => ?_
      have hi' := mem_range.mp hi
      rw [decide_eq_decide, hr.mem_iff htgt hb hi', or_iff_left]
      rintro ⟨hm, hge⟩
      exact absurd (hlow i ((mem_cellsOf).mpr ⟨hi', hm⟩)) (not_lt.mpr hge)
    rw [hlt]
    exact filter_range_interval hroom
  rw [seqEntries, seqEntries, hcells]
  congr 1
  refine ext_getElem (by simp) fun k hk hk' => ?_
  simp only [length_map, length_range'] at hk
  rw [getElem_map, getElem_map, getElem_range', Nat.one_mul]
  refine Prod.ext (hr.cells k hk).1 (Prod.ext ?_ ?_)
  · exact map_congr_left fun x hx => (hr.rows x hx).1.new k hk
  · exact map_congr_left fun x hx => (hr.rows x hx).2.new k hk

theorem Reloaded.card_lt (hr : Reloaded kp src tgt a b h st) (htgt : Ok kp G tgt)
    (hb : b < kp.seqToStream.length) {i : ℕ} (hi : i ∈ cellsOf kp tgt (kp.streamOf b) b)
    (hge : llamaPosMax ≤ (tgt.vCells (kp.streamOf b)).pos i) :
    (seqEntries kp src a).card < (seqEntries kp st b).card := by
  obtain ⟨hi', hm⟩ := (mem_cellsOf).mp hi
  have hroom := hr.room
  have hnot : i ∉ range' h (cellsOf kp src (kp.streamOf a) a).length := by
    intro hin
    obtain ⟨hge', hlt⟩ := mem_range'_1.mp hin
    obtain ⟨k, rfl⟩ := Nat.exists_eq_add_of_le hge'
    have hleft := mem_removed htgt hb (kp.streamOf_lt b) hi' hm fun _ => hge
    rw [hr.free k (by omega)] at hleft
    exact Finset.notMem_empty b hleft
  have hsub : (i :: range' h (cellsOf kp src (kp.streamOf a) a).length) ⊆ cellsOf kp st (kp.streamOf b) b := by
    intro j hj
    rcases mem_cons.mp hj with rfl | hj
    · exact (mem_cellsOf).mpr ⟨hi', (hr.mem_iff htgt hb hi').mpr (Or.inr ⟨hm, hge⟩)⟩
    · have hj' := mem_range'_1.mp hj
      exact (mem_cellsOf).mpr ⟨by omega, (hr.mem_iff htgt hb (by omega)).mpr (Or.inl hj')⟩
  have hle := (subperm_of_subset (nodup_cons.mpr ⟨hnot, nodup_range'⟩) hsub).length_le
  rw [length_cons, length_range'] at hle
  rw [card_seqEntries, card_seqEntries]
  exact hle

/-! ### The round trip -/

/-- What the round trip of one sequence needs.  If `a` has no cells, `b` has none either.  If `a` has some, its
id is written and there is room for them, then no cell of `b` is at the largest position. -/
structure SeqSaved (kp : KvParams) (src tgt : KvCache) (a b : ℕ) : Prop where
  empty : cellsOf kp src (kp.streamOf a) a = [] → cellsOf kp tgt (kp.streamOf b) b = []
  removed : cellsOf kp src (kp.streamOf a) a ≠ [] → a < kp.nSeqMax →
    Room kp tgt b (cellsOf kp src (kp.streamOf a) a).length →
    ∀ i ∈ cellsOf kp tgt (kp.streamOf b) b, (tgt.vCells (kp.streamOf b)).pos i < llamaPosMax

/-- `b` ends with the entries of `a`, and every other sequence with its own. -/
def SeqMoved (kp : KvParams) (src tgt : KvCache) (a b : ℕ) (st : KvCache) : Prop :=
  seqEntries kp st b = seqEntries kp src a ∧ OthersKept kp b tgt st

theorem seqMoved_self_iff (hnil : cellsOf kp src (kp.streamOf a) a = []) :
    SeqMoved kp src tgt a b tgt ↔ cellsOf kp tgt (kp.streamOf b) b = [] := by
  have hzero : seqEntries kp src a = 0 := by
    rw [seqEntries, hnil]
    rfl
  have hkept : OthersKept kp b tgt tgt := fun _ _ _ _ _ _ => ⟨Iff.rfl, fun _ => rfl⟩
  rw [SeqMoved, and_iff_left hkept, hzero, seqEntries, Multiset.coe_eq_zero, map_eq_nil_iff]

theorem Reloaded.seqMoved_iff (hr : Reloaded kp src tgt a b h st) (htgt : Ok kp G tgt)
    (hb : b < kp.seqToStream.length) :
    SeqMoved kp src tgt a b st ↔
      ∀ i ∈ cellsOf kp tgt (kp.streamOf b) b, (tgt.vCells (kp.streamOf b)).pos i < llamaPosMax := by
  constructor
  · intro hmoved i hi
    by_contra hge
    have hlt := hr.card_lt htgt hb hi (not_lt.mp hge)
    rw [hmoved.1] at hlt
    exact Nat.lt_irrefl _ hlt
  · intro hlow
    exact ⟨hr.entries_eq htgt hb hlow, hr.othersKept htgt hb⟩

/-- **When one sequence survives the round trip.**  Writing `a` and reading it as `b` fails, or leaves `b` with
the entries of `a` and everything else alone, in exactly these cases. -/
theorem stateRead_seq_iff (kp : KvParams) (hfit : kp.OffsetsFit) (hswa : kp.swaType = .none) (src tgt : KvCache)
    (hsrc : PlacedReach kp src) (htgt : PlacedReach kp tgt) (hpos : PosFits kp src) (a b : ℕ)
    (hb : b < kp.seqToStream.length) (rest : List UInt8) :
    let r := (stateRead kp b).run ⟨tgt, (src.stateWrite kp a).value ++ rest⟩
    ((∃ e, r.1 = .error e) ∨ SeqMoved kp src tgt a b r.2.cache) ↔ SeqSaved kp src tgt a b := by
  obtain ⟨G, hok⟩ := reach_ok hsrc
  obtain ⟨G', hok'⟩ := reach_ok htgt
  intro r
  by_cases hnil : cellsOf kp src (kp.streamOf a) a = []
  · have hr : r = (.ok (), ⟨tgt, rest⟩) := stateReadSeq_empty hfit hok hnil rest
    rw [hr]
    constructor
    · rintro (⟨e, he⟩ | hmoved)
      · cases he
      · exact ⟨fun _ => (seqMoved_self_iff hnil).mp hmoved, fun hne => absurd hnil hne⟩
    · intro hs
      exact Or.inr ((seqMoved_self_iff hnil).mpr (hs.empty hnil))
  · have hslot := @restoreSlot_ne_none_iff kp src tgt G' a b hswa hok' hb hnil
    by_cases hgo : a < kp.nSeqMax ∧ restoreSlot kp src tgt a b ≠ none
    · obtain ⟨st', h, hrun, hrel⟩ := stateReadSeq_reloaded hfit hswa hok hok' hpos hb hgo.1 hnil hgo.2 rest
      have hr : r = (.ok (), ⟨st', rest⟩) := hrun
      rw [hr]
      constructor
      · rintro (⟨e, he⟩ | hmoved)
        · cases he
        · exact ⟨fun he => absurd he hnil, fun _ _ _ => (hrel.seqMoved_iff hok' hb).mp hmoved⟩
      · intro hs
        exact Or.inr ((hrel.seqMoved_iff hok' hb).mpr (hs.removed hnil hgo.1 (hslot.mp hgo.2)))
    · have hrej : ¬ a < kp.nSeqMax ∨ restoreSlot kp src tgt a b = none := by
        by_contra hno
        rw [not_or, not_not] at hno
        exact hgo hno
      obtain ⟨s', hrun⟩ := stateReadSeq_rejected hfit hok hpos hnil hrej rest
      have hr : r = (.error .restoreFailed, s') := hrun
      rw [hr]
      refine ⟨fun _ => ⟨fun he => absurd he hnil, fun _ ha hroom => ?_⟩, fun _ => Or.inl ⟨_, rfl⟩⟩
      exact absurd ⟨ha, hslot.mpr hroom⟩ hgo

def tokenCache : KvCache := ((KvCache.init layeredCache).step layeredCache (.decode oneToken)).value

theorem tokenCache_reach : PlacedReach layeredCache tokenCache :=
  PlacedReach.init.step (.decode oneToken) trivial (oneToken_placed layeredCache (KvCache.init layeredCache))
    (by decide +kernel)

theorem tokenCache_posFits : PosFits layeredCache tokenCache := by
  unfold PosFits
  decide +kernel

theorem layeredCache_offsetsFit : layeredCache.OffsetsFit := by
  intro _ l hl
  obtain rfl := mem_singleton.mp hl
  decide

theorem tokenCache_seqSaved : SeqSaved layeredCache tokenCache tokenCache 0 1 :=
  ⟨by decide +kernel, fun _ _ _ => by decide +kernel⟩

/-- Sequence 0 of `tokenCache`, restored as sequence 1 of the same cache. -/
theorem stateRead_seq_iff_token :
    let r := (stateRead layeredCache (1 : ℕ)).run
      ⟨tokenCache, (tokenCache.stateWrite layeredCache (0 : ℕ)).value ++ []⟩
    (∃ e, r.1 = .error e) ∨ SeqMoved layeredCache tokenCache tokenCache 0 1 r.2.cache :=
  (stateRead_seq_iff layeredCache layeredCache_offsetsFit rfl tokenCache tokenCache tokenCache_reach
    tokenCache_reach tokenCache_posFits 0 1 (by decide +kernel) []).mpr tokenCache_seqSaved

theorem tokenCache_empty : cellsOf layeredCache tokenCache (layeredCache.streamOf 1) 1 = [] := by decide +kernel

theorem tokenCache_full : cellsOf layeredCache tokenCache (layeredCache.streamOf 0) 0 ≠ [] := by decide +kernel

/-- Sequence 1 has no cells; restored as sequence 0, it does not replace the token that is there. -/
theorem stateRead_keeps_old_cells :
    PlacedReach layeredCache tokenCache ∧ ShiftFree layeredCache tokenCache ∧ PosFits layeredCache tokenCache ∧
      ¬ let r := (stateRead layeredCache (0 : ℕ)).run
          ⟨tokenCache, (tokenCache.stateWrite layeredCache (1 : ℕ)).value ++ []⟩
        (∃ e, r.1 = .error e) ∨ SeqMoved layeredCache tokenCache tokenCache 1 0 r.2.cache := by
  obtain ⟨G, hok⟩ := reach_ok tokenCache_reach
  have hrun := @stateReadSeq_empty layeredCache tokenCache tokenCache G 1 0 layeredCache_offsetsFit hok
    tokenCache_empty []
  have hshift : ∀ t < 1, ∀ i < 2, (tokenCache.vCells t).shift i = 0 := by decide +kernel
  refine ⟨tokenCache_reach, hshift, tokenCache_posFits, ?_⟩
  have hself := @seqMoved_self_iff layeredCache tokenCache tokenCache 1 0 tokenCache_empty
  rw [hrun]
  simp only [reduceCtorEq, exists_false, false_or, hself]
  exact tokenCache_full

end KvCache
