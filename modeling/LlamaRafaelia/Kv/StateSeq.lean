import LlamaRafaelia.Kv.Intervals
import LlamaRafaelia.Kv.StateWhole

/-!
# Saving one sequence and restoring it as another

`state_read` as sequence `b` removes `b`, looks for one contiguous slot, and fills it.  When `a` has no cells nothing
is read, and `b` keeps what it had; and the removal of `b` stops short of the largest position.
-/

namespace KvCache

open List Checked KvCells Fallible

variable {kp : KvParams} {st src tgt : KvCache} {G : ℕ → ℕ → ℤ → ℕ}

/-! ### What is written of one sequence -/

theorem written_seq_iff (h : Ok kp G src) {t i a : ℕ} (ht : t < kp.nStream) (hi : i < kp.kvSize) :
    Written (src.vCells t) a i ↔ a ∈ (src.vCells t).seq i := by
  have hne : ¬ ((a : ℤ) = -1) := by omega
  simp only [Written, hne, false_or, Int.toNat_natCast]
  exact ⟨fun hw => hw.2, fun hm =>
    ⟨(h t ht).sound.seq_used i ((h t ht).size ▸ hi) (Finset.ne_empty_of_mem hm), hm⟩⟩

theorem writtenCells_seq (h : Ok kp G src) {t : ℕ} (ht : t < kp.nStream) (a : ℕ) :
    writtenCells (src.vCells t) a = cellsOf kp src t a := by
  rw [writtenCells, cellsOf, (h t ht).size]
  refine filter_congr fun i hi => ?_
  rw [decide_eq_decide]
  exact written_seq_iff h ht (mem_range.mp hi)

theorem mem_cellsOf {t s i : ℕ} : i ∈ cellsOf kp st t s ↔ i < kp.kvSize ∧ s ∈ (st.vCells t).seq i := by
  rw [cellsOf, mem_filter, mem_range, decide_eq_true_eq]

theorem cellsOf_other (h : Ok kp G st) {t s : ℕ} (ht : t < kp.nStream) (hne : t ≠ kp.streamOf s) :
    cellsOf kp st t s = [] := by
  refine eq_nil_iff_forall_not_mem.mpr fun i hi => ?_
  obtain ⟨hlt, hm⟩ := (mem_cellsOf).mp hi
  exact hne ((h t ht).stream i hlt s hm).2.symm

theorem keptSeqIds_seq {c : KvCells} {a i : ℕ} (hm : a ∈ c.seq i) :
    keptSeqIds kp c a i = if a < kp.nSeqMax then [a] else [] := by
  have hne : ¬ ((a : ℤ) = -1) := by omega
  have hcongr : keptSeqIds kp c a i = (range kp.nSeqMax).filter fun s => s = a := by
    refine filter_congr fun s _ => ?_
    rw [decide_eq_decide]
    constructor
    · intro hs
      exact_mod_cast hs.1.resolve_right hne
    · rintro rfl
      exact ⟨Or.inl rfl, hm⟩
  rw [hcongr, filter_eq]
  split
  · next hlt => rw [count_eq_one_of_mem nodup_range (mem_range.mpr hlt)]; rfl
  · next hge =>
    rw [count_eq_zero_of_not_mem fun hmem => hge (mem_range.mp hmem)]
    rfl

/-! ### The slot -/

theorem isMasked_none (hswa : kp.swaType = .none) (p q : ℤ) : (kp.isMasked p q).value = false := by
  simp [KvParams.isMasked, isMaskedSwa, hswa]

variable {b : ℕ} {pos : List ℤ}

theorem restoreUbatch_seqAt {i : ℕ} (hi : i < pos.length) : (restoreUbatch kp b pos).seqAt i = [b] := by
  simp [Ubatch.seqAt, restoreUbatch, hi]

theorem restoreUbatch_posAt {i : ℕ} (hi : i < pos.length) :
    (restoreUbatch kp b pos).posAt i = pos.get ⟨i, hi⟩ := by
  simp [Ubatch.posAt, restoreUbatch, hi]

theorem restoreUbatch_nTokens : (restoreUbatch kp b pos).nTokens = pos.length := Nat.mul_one _

theorem restoreUbatch_slotSeqs : slotSeqs kp (restoreUbatch kp b pos) = 1 := by
  unfold slotSeqs
  split <;> rfl

theorem restoreUbatch_slotTokens : slotTokens kp (restoreUbatch kp b pos) = pos.length := by
  rw [slotTokens, restoreUbatch_slotSeqs, Nat.div_one, restoreUbatch_nTokens]

theorem restoreUbatch_ok (hb : b < kp.seqToStream.length) (hne : pos ≠ []) (hnn : ∀ p ∈ pos, 0 ≤ p) :
    UbatchOk kp (restoreUbatch kp b pos) := by
  have hlen : 0 < pos.length := length_pos_of_ne_nil hne
  refine ⟨?_, nodup_singleton b, ?_, ?_, ?_, fun i hi => ?_, fun i hi => ?_, fun s hs ii hii q hq => ?_⟩
  · rwa [restoreUbatch_nTokens]
  · intro s hs
    rwa [mem_singleton.mp hs]
  · rw [restoreUbatch_slotSeqs]
    exact le_rfl
  · rw [restoreUbatch_slotSeqs, restoreUbatch_slotTokens, restoreUbatch_nTokens, Nat.one_mul]
  · rw [restoreUbatch_nTokens] at hi
    rw [restoreUbatch_posAt hi]
    exact hnn _ (get_mem _ _)
  · rw [restoreUbatch_nTokens] at hi
    rw [restoreUbatch_seqAt hi]
    exact cons_ne_nil b []
  · rw [restoreUbatch_slotSeqs] at hs
    obtain rfl : s = 0 := by omega
    rw [restoreUbatch_slotTokens] at hii hq
    rw [Nat.zero_mul, Nat.zero_add, restoreUbatch_seqAt hii, mem_singleton] at hq
    subst hq
    exact ⟨hb, rfl⟩

theorem slotHead_value {si : SlotInfo} {h n : ℕ} (hidx : si.idxsAt 0 = range' h n) (hn : 0 < n) :
    si.head.value = h := by
  obtain ⟨m, rfl⟩ := Nat.exists_eq_succ_of_ne_zero hn.ne'
  rw [SlotInfo.idxsAt] at hidx
  simp only [SlotInfo.head, bind_value, pure_value, hidx, range'_succ]
  rfl

/-- The slot of one sequence: consecutive empty cells of its stream. -/
structure EmptySlot (kp : KvParams) (st : KvCache) (b n : ℕ) (si : SlotInfo) (h : ℕ) : Prop where
  strm : si.strm = [kp.streamOf b]
  idxs : si.idxs = [range' h n]
  room : h + n ≤ kp.kvSize
  empty : ∀ k < n, ((st.vCells (kp.streamOf b)).cell (h + k)).pos = -1

theorem findSlot_emptySlot (hswa : kp.swaType = .none) (hok : Ok kp G st) (hb : b < kp.seqToStream.length)
    (hne : pos ≠ []) (hnn : ∀ p ∈ pos, 0 ≤ p) {si : SlotInfo}
    (hfind : (st.findSlot kp (restoreUbatch kp b pos) true).value = some si) :
    ∃ h, EmptySlot kp st b pos.length si h := by
  have hsi := hok.findSlot (restoreUbatch_ok hb hne hnn) hfind
  have hone : 0 < slotSeqs kp (restoreUbatch kp b pos) := by rw [restoreUbatch_slotSeqs]; exact Nat.one_pos
  have hstrm0 : si.strmAt 0 = kp.streamOf b := hsi.strm 0 hone
  obtain ⟨h, hrange⟩ := hsi.range rfl 0 hone
  rw [restoreUbatch_slotTokens] at hrange
  have husable := hsi.usable 0 hone
  rw [hrange, hstrm0] at husable
  have hlen1 := hsi.strm_length
  have hlen2 := hsi.idxs_length
  rw [restoreUbatch_slotSeqs] at hlen1 hlen2
  obtain ⟨t, ht⟩ := length_eq_one_iff.mp hlen1
  obtain ⟨l, hl⟩ := length_eq_one_iff.mp hlen2
  have hsize := (hok _ (kp.streamOf_lt b)).size
  have hpos : 0 < pos.length := length_pos_of_ne_nil hne
  refine ⟨h, ⟨?_, ?_, ?_, fun k hk => ?_⟩⟩
  · rw [← hstrm0, SlotInfo.strmAt, ht]
    rfl
  · rw [← hrange, SlotInfo.idxsAt, hl]
    rfl
  · have hlast := (husable (h + (pos.length - 1)) (mem_range'_1.mpr (by omega))).1
    rw [hsize] at hlast
    omega
  · obtain ⟨hlt, huse⟩ := husable (h + k) (mem_range'_1.mpr (by omega))
    rcases (usable_iff (hok _ (kp.streamOf_lt b)).sound hlt).mp huse with hempty | ⟨-, q, -, hmask⟩
    · exact hempty
    · rw [isMasked_none hswa] at hmask
      cases hmask

theorem EmptySlot.places {n h : ℕ} {si : SlotInfo} (hs : EmptySlot kp st b n si h) :
    si.places = (range n).map fun k => (kp.streamOf b, h + k, k) := by
  have hsize : si.size = n := by
    rw [SlotInfo.size, hs.idxs]
    exact length_range'
  have hone : si.nStream = 1 := by
    rw [SlotInfo.nStream, hs.strm]
    rfl
  rw [SlotInfo.places, hone, hsize, range_one, flatMap_singleton]
  refine map_congr_left fun k hk => ?_
  have hk' := mem_range.mp hk
  have hidx : (si.idxsAt 0).getD k 0 = h + k := by
    rw [SlotInfo.idxsAt, hs.idxs]
    simp [hk']
  rw [hidx, SlotInfo.strmAt, hs.strm, Nat.zero_mul, Nat.zero_add]
  rfl

/-- Nothing is evicted from empty cells. -/
theorem EmptySlot.slotRm_eq {n h : ℕ} {si : SlotInfo} (hs : EmptySlot kp st b n si h) (s : ℕ) :
    slotRm st si.places s = -1 := by
  by_contra hne
  obtain ⟨x, hx, hp, -, -⟩ := slotRm_ne hne
  rw [hs.places] at hx
  obtain ⟨k, hk, rfl⟩ := mem_map.mp hx
  exact hp (hs.empty k (mem_range.mp hk))

theorem applyUbatch_emptySlot (hok : Ok kp G st) (hb : b < kp.seqToStream.length) (hne : pos ≠ [])
    (hnn : ∀ p ∈ pos, 0 ≤ p) {si : SlotInfo} (hfits : SlotFits kp st (restoreUbatch kp b pos) si) {h : ℕ}
    (hs : EmptySlot kp st b pos.length si h) :
    let st' := (st.applyUbatch kp si (restoreUbatch kp b pos)).value
    (∃ G', Ok kp G' st') ∧
      (∀ k (hk : k < pos.length), (st'.vCells (kp.streamOf b)).pos (h + k) = pos.get ⟨k, hk⟩ ∧
        (st'.vCells (kp.streamOf b)).seq (h + k) = {b}) ∧
      ∀ t < kp.nStream, ∀ i < kp.kvSize, (t ≠ kp.streamOf b ∨ i < h ∨ h + pos.length ≤ i) →
        (st'.vCells t).cell i = (st.vCells t).cell i := by
  have hu := restoreUbatch_ok hb hne hnn
  obtain ⟨⟨G', hok', -, -⟩, hoff, hat, -, -⟩ := applyUbatch_spec hok hu hfits
  have hplaces := hs.places
  have ht := kp.streamOf_lt b
  have hkept : ∀ x : KvCell, (x.seq ≠ ∅ → 0 ≤ x.pos) → keptBy st si x = x.seq := by
    intro x hx
    refine Finset.filter_true_of_mem fun s hm => ?_
    rw [hs.slotRm_eq s]
    have := hx (Finset.ne_empty_of_mem hm)
    omega
  refine ⟨⟨G', hok'⟩, fun k hk => ?_, fun t ht' i hi hout => ?_⟩
  · have hmem : (kp.streamOf b, h + k, k) ∈ si.places := by
      rw [hplaces]
      exact mem_map.mpr ⟨k, mem_range.mpr hk, rfl⟩
    have hcell := hat _ hmem
    have hroom := hs.room
    have hseq : (evictCell ((st.vCells (kp.streamOf b)).cell (h + k))).seq = ∅ :=
      evictCell_seq hok ht (by omega)
    have hpos : 0 ≤ (restoreUbatch kp b pos).posAt k := by
      rw [restoreUbatch_posAt hk]
      exact hnn _ (get_mem _ _)
    simp only at hcell
    rw [hkept _ fun _ => hpos, KvCell.restrict_self] at hcell
    rw [KvCells.pos, KvCells.seq, hcell]
    refine ⟨restoreUbatch_posAt hk, ?_⟩
    rw [placeCell, hseq, restoreUbatch_seqAt hk]
    rfl
  · have hmem : (t, i) ∉ si.cells := by
      intro hm
      obtain ⟨x, hx, heq⟩ := mem_map.mp hm
      rw [hplaces] at hx
      obtain ⟨k, hk, rfl⟩ := mem_map.mp hx
      obtain ⟨h1, h2⟩ := Prod.mk.inj heq
      have := mem_range.mp hk
      have h2' : h + k = i := h2
      omega
    have hnn' : ((st.vCells t).cell i).seq ≠ ∅ → 0 ≤ ((st.vCells t).cell i).pos := by
      intro hne'
      obtain ⟨s, hm⟩ := Finset.nonempty_of_ne_empty hne'
      exact hok.pos_nonneg ht' hi hm
    rw [hoff t ht' i hi hmem, hkept _ hnn', KvCell.restrict_self]

/-! ### Reading one sequence -/

/-- What `seq_rm(b, -1, -1)` leaves. -/
abbrev removed (kp : KvParams) (b : ℕ) (st : KvCache) : KvCache := (st.seqRm kp b (-1) (-1)).value

theorem Ok.removed (hok : Ok kp G st) (hb : b < kp.seqToStream.length) : Ok kp G (removed kp b st) :=
  (seqRm_spec hok hb (-1) (-1)).2.1

/-- The positions of sequence `s`, in the order of its cells. -/
def seqPositions (kp : KvParams) (st : KvCache) (s : ℕ) : List ℤ :=
  (cellsOf kp st (kp.streamOf s) s).map fun i => (st.vCells (kp.streamOf s)).pos i

/-- The slot that `state_read` finds for the cells of `a` when they are restored as `b`. -/
def restoreSlot (kp : KvParams) (src tgt : KvCache) (a b : ℕ) : Option SlotInfo :=
  ((removed kp b tgt).findSlot kp (restoreUbatch kp b (seqPositions kp src a)) true).value

theorem seqPositions_fit (hok : Ok kp G src) (hpos : PosFits kp src) (a : ℕ) :
    ∀ p ∈ seqPositions kp src a, 0 ≤ p ∧ p ≤ llamaPosMax := by
  intro p hp
  obtain ⟨i, hi, rfl⟩ := mem_map.mp hp
  obtain ⟨hlt, hm⟩ := (mem_cellsOf).mp hi
  exact ⟨hok.pos_nonneg (kp.streamOf_lt a) hlt hm, hpos _ (kp.streamOf_lt a) i hlt⟩

/-- The records of the cells of `a`. -/
def seqRecords (kp : KvParams) (src : KvCache) (a : ℕ) : List UInt8 :=
  (cellsOf kp src (kp.streamOf a) a).flatMap fun i =>
    cellBytes ((src.vCells (kp.streamOf a)).pos i) (if a < kp.nSeqMax then [a] else [])

theorem blockBytes_seq (hok : Ok kp G src) {a : ℕ} (hne : cellsOf kp src (kp.streamOf a) a ≠ []) :
    blockBytes kp src a (kp.streamOf a) (writtenCells (src.vCells (kp.streamOf a)) a)
      = u32 (cellsOf kp src (kp.streamOf a) a).length ++ seqRecords kp src a ++
        dataBytes kp src (kp.streamOf a) (cellsOf kp src (kp.streamOf a) a) := by
  rw [writtenCells_seq hok (kp.streamOf_lt a), blockBytes, if_neg hne, seqRecords]
  congr 2
  refine flatMap_congr fun i hi => ?_
  rw [keptSeqIds_seq ((mem_cellsOf).mp hi).2]

theorem readSeqRecords_run (hok : Ok kp G src) (hpos : PosFits kp src) {a : ℕ} (ha : a < kp.nSeqMax)
    (rest : List UInt8) :
    (readSeqCells (cellsOf kp src (kp.streamOf a) a).length).run ⟨st, seqRecords kp src a ++ rest⟩
      = (.ok (some (seqPositions kp src a)), ⟨st, rest⟩) := by
  have hfit := seqPositions_fit hok hpos a
  have hrun := @readSeqCells_run kp st
    ((cellsOf kp src (kp.streamOf a) a).map fun i => ((src.vCells (kp.streamOf a)).pos i, a))
    (fun x hx => by
      obtain ⟨i, hi, rfl⟩ := mem_map.mp hx
      have := hfit _ (mem_map_of_mem hi)
      exact ⟨by omega, this.2⟩)
    (fun x hx => by
      obtain ⟨i, -, rfl⟩ := mem_map.mp hx
      exact ha) rest
  rw [length_map, flatMap_map, map_map] at hrun
  rw [seqRecords, if_pos ha]
  exact hrun

theorem readSeqRecords_none (hok : Ok kp G src) (hpos : PosFits kp src) {a : ℕ} (ha : ¬ a < kp.nSeqMax)
    (hne : cellsOf kp src (kp.streamOf a) a ≠ []) (rest : List UInt8) :
    ∃ rest', (readSeqCells (cellsOf kp src (kp.streamOf a) a).length).run ⟨st, seqRecords kp src a ++ rest⟩
      = (.ok none, ⟨st, rest'⟩) := by
  have hfit := seqPositions_fit hok hpos a
  rw [seqPositions] at hfit
  rw [seqRecords, if_neg ha]
  cases hl : cellsOf kp src (kp.streamOf a) a with
  | nil => exact absurd hl hne
  | cons i l =>
    rw [hl] at hfit
    obtain ⟨hnn, hmax⟩ := hfit _ (mem_map_of_mem mem_cons_self)
    rw [flatMap_cons, append_assoc]
    exact ⟨_, readSeqCells_none (by omega) hmax _⟩

/-- What the cache holds after sequence `a` was restored as `b`: the cells of `a` in a slot of empty cells,
and everything else as the removal of `b` left it. -/
structure Reloaded (kp : KvParams) (src tgt : KvCache) (a b h : ℕ) (st : KvCache) : Prop where
  room : h + (cellsOf kp src (kp.streamOf a) a).length ≤ kp.kvSize
  free : ∀ k < (cellsOf kp src (kp.streamOf a) a).length,
    ((removed kp b tgt).vCells (kp.streamOf b)).seq (h + k) = ∅
  cells : ∀ k (hk : k < (cellsOf kp src (kp.streamOf a) a).length),
    (st.vCells (kp.streamOf b)).pos (h + k)
      = (src.vCells (kp.streamOf a)).pos ((cellsOf kp src (kp.streamOf a) a).get ⟨k, hk⟩) ∧
    (st.vCells (kp.streamOf b)).seq (h + k) = {b}
  others : ∀ t < kp.nStream, ∀ i < kp.kvSize,
    (t ≠ kp.streamOf b ∨ i < h ∨ h + (cellsOf kp src (kp.streamOf a) a).length ≤ i) →
    (st.vCells t).cell i = ((removed kp b tgt).vCells t).cell i
  rows : ∀ x ∈ kp.layers.zipIdx,
    Put kp src (kp.streamOf a) (cellsOf kp src (kp.streamOf a) a) (kp.streamOf b) h (kRow x) tgt st ∧
    Put kp src (kp.streamOf a) (cellsOf kp src (kp.streamOf a) a) (kp.streamOf b) h (vRow kp x) tgt st

theorem seqRm_data (st : KvCache) (s : ℕ) (p0 p1 : ℤ) :
    (st.seqRm kp s p0 p1).value.kData = st.kData ∧ (st.seqRm kp s p0 p1).value.vData = st.vData := by
  rw [seqRm_value]
  exact ⟨rfl, rfl⟩

theorem applyUbatch_data (st : KvCache) (si : SlotInfo) (u : Ubatch) :
    (st.applyUbatch kp si u).value.kData = st.kData ∧ (st.applyUbatch kp si u).value.vData = st.vData := by
  simp only [applyUbatch, bind_value, pure_value]
  generalize (loop (applyStep u) (st.vCells, fun _ => -1) si.places).value = r
  have hpurge := loopRange_value_rule (f := purgeStep kp r.2)
    (fun _ (st' : KvCache) => st'.kData = st.kData ∧ st'.vData = st.vData) llamaMaxSeq
    (s := { st with vCells := r.1 }) ⟨rfl, rfl⟩ (fun s st' _ h => by
      simp only [purgeStep, bind_value, ite_value, pure_value]
      split
      · exact h
      · split
        · obtain ⟨hk, hv⟩ := @seqRm_data kp st' s ((st'.vCells (kp.streamOf s)).seqPosMin s).value (r.2 s + 1)
          exact ⟨hk.trans h.1, hv.trans h.2⟩
        · exact h)
  exact hpurge

variable {a : ℕ} {t count : ℕ} {bytes rest : List UInt8}

theorem readMetaSeq_ok {si : SlotInfo}
    (hcells : (readSeqCells count).run ⟨removed kp b tgt, bytes⟩
      = (.ok (some pos), ⟨removed kp b tgt, rest⟩))
    (hfind : ((removed kp b tgt).findSlot kp (restoreUbatch kp b pos) true).value = some si) :
    (readMetaSeq kp t count b).run ⟨tgt, bytes⟩
      = (.ok true, ⟨((removed kp b tgt).applyUbatch kp si (restoreUbatch kp b pos)).value.setHead t
          si.head.value, rest⟩) := by
  rw [readMetaSeq, run_bind_ok (onCache_run _ _), run_bind_ok hcells]
  simp only
  rw [run_bind_ok (run_get _), run_bind_ok (run_lift _ _)]
  simp only [hfind]
  rw [run_bind_ok (onCache_run _ _), run_bind_ok (run_lift _ _), run_bind_ok (onCache_run _ _),
    run_bind_ok (run_get _), run_bind_ok (run_lift _ _), run_pure]
  rfl

theorem readMetaSeq_full
    (hcells : (readSeqCells count).run ⟨removed kp b tgt, bytes⟩
      = (.ok (some pos), ⟨removed kp b tgt, rest⟩))
    (hfind : ((removed kp b tgt).findSlot kp (restoreUbatch kp b pos) true).value = none) :
    (readMetaSeq kp t count b).run ⟨tgt, bytes⟩ = (.ok false, ⟨removed kp b tgt, rest⟩) := by
  rw [readMetaSeq, run_bind_ok (onCache_run _ _), run_bind_ok hcells]
  simp only
  rw [run_bind_ok (run_get _), run_bind_ok (run_lift _ _)]
  simp only [hfind]
  rfl

theorem readMetaSeq_bad
    (hcells : (readSeqCells count).run ⟨removed kp b tgt, bytes⟩
      = (.ok none, ⟨removed kp b tgt, rest⟩)) :
    (readMetaSeq kp t count b).run ⟨tgt, bytes⟩ = (.ok false, ⟨removed kp b tgt, rest⟩) := by
  rw [readMetaSeq, run_bind_ok (onCache_run _ _), run_bind_ok hcells]
  rfl

/-- What one stream of `state_read` makes of the verdict on its block. -/
def afterBlock (kp : KvParams) (b : ℕ) (s : ReadState) : Except StateError Bool → Except StateError Unit × ReadState
  | .ok true => (.ok (), s)
  | .ok false => (.error .restoreFailed, ⟨(s.cache.seqRm kp b (-1) (-1)).value, s.bytes⟩)
  | .error e => (.error e, s)

theorem readStream_seq (s : ℕ) {l : List UInt8} {r : Except StateError Bool} {s' : ReadState}
    (hcount : (readU32).run ⟨st, l⟩ = (.ok count, ⟨st, rest⟩)) (hne : count ≠ 0)
    (hblock : (readBlock kp (kp.streamOf b) count b).run ⟨st, rest⟩ = (r, s')) :
    (readStream kp b s).run ⟨st, l⟩ = afterBlock kp b s' r := by
  have hneg : ¬ ((b : ℤ) = -1) := by omega
  rw [readStream, run_bind_ok hcount]
  simp only [hne, if_false, hneg, Int.toNat_natCast]
  cases r with
  | error e => exact run_bind_error hblock
  | ok v =>
    rw [run_bind_ok hblock]
    cases v with
    | true => rfl
    | false =>
      simp only [Bool.false_eq_true, if_false, cleanUp, hneg]
      rw [run_bind_ok (onCache_run _ _), run_throw]
      rfl

theorem readBlock_seq_eq (s : ReadState) :
    (readBlock kp (kp.streamOf b) count b).run s = (do
      if ← readMetaSeq kp (kp.streamOf b) count b then stateReadData kp (kp.streamOf b) count
      else return false).run s := by
  have hneg : (b : ℤ) ≠ -1 := by omega
  rw [readBlock, stateReadMeta, if_pos hneg, Int.toNat_natCast]

theorem readStream_rejected {s n : ℕ} (hn : n < 2 ^ 32) (hn0 : n ≠ 0) {st' : KvCache}
    (hmeta : (readMetaSeq kp (kp.streamOf b) n b).run ⟨tgt, bytes⟩ = (.ok false, ⟨st', rest⟩)) :
    ∃ s', (readStream kp b s).run ⟨tgt, u32 n ++ bytes⟩ = (.error .restoreFailed, s') := by
  have hblock : (readBlock kp (kp.streamOf b) n b).run ⟨tgt, bytes⟩ = (.ok false, ⟨st', rest⟩) := by
    rw [readBlock_seq_eq, run_bind_ok hmeta]
    rfl
  exact ⟨_, readStream_seq s (readU32_u32 hn _) hn0 hblock⟩

/-- **The block of sequence `a`, restored as `b`**, when its id is written and a slot is found. -/
theorem readStream_reloaded (hfit : kp.OffsetsFit) (hswa : kp.swaType = .none) (hsrc : Ok kp G src)
    {G' : ℕ → ℕ → ℤ → ℕ} (htgt : Ok kp G' tgt) (hpos : PosFits kp src) (hb : b < kp.seqToStream.length)
    (ha : a < kp.nSeqMax) (hne : cellsOf kp src (kp.streamOf a) a ≠ []) {si : SlotInfo}
    (hslot : restoreSlot kp src tgt a b = some si) (s : ℕ) (rest : List UInt8) :
    ∃ st' h, (readStream kp b s).run
        ⟨tgt, blockBytes kp src a (kp.streamOf a) (writtenCells (src.vCells (kp.streamOf a)) a) ++ rest⟩
          = (.ok (), ⟨st', rest⟩) ∧
      Reloaded kp src tgt a b h st' := by
  have hrm := htgt.removed hb
  have hfitpos := seqPositions_fit hsrc hpos a
  have hnn : ∀ p ∈ seqPositions kp src a, 0 ≤ p := fun p hp => (hfitpos p hp).1
  have hlen : (seqPositions kp src a).length = (cellsOf kp src (kp.streamOf a) a).length := length_map ..
  have hpne : seqPositions kp src a ≠ [] := mt map_eq_nil_iff.mp hne
  have hfits := (hrm.findSlot (restoreUbatch_ok hb hpne hnn) hslot).fits hrm
  obtain ⟨h, hempty⟩ := findSlot_emptySlot hswa hrm hb hpne hnn hslot
  obtain ⟨⟨G2, hok2⟩, hnew, hold⟩ := applyUbatch_emptySlot hrm hb hpne hnn hfits hempty
  obtain ⟨hk2, hv2⟩ := @applyUbatch_data kp (removed kp b tgt) si
    (restoreUbatch kp b (seqPositions kp src a))
  obtain ⟨hk1, hv1⟩ := @seqRm_data kp tgt b (-1) (-1)
  have hhead : si.head.value = h :=
    slotHead_value (by rw [SlotInfo.idxsAt, hempty.idxs]; rfl) (length_pos_of_ne_nil hpne)
  have hmeta := @readMetaSeq_ok kp tgt b _ (kp.streamOf b) _ _ _ _
    (readSeqRecords_run hsrc hpos ha
      (dataBytes kp src (kp.streamOf a) (cellsOf kp src (kp.streamOf a) a) ++ rest)) hslot
  rw [hhead] at hmeta
  generalize hst2 : ((removed kp b tgt).applyUbatch kp si
    (restoreUbatch kp b (seqPositions kp src a))).value = st2 at hmeta hok2 hnew hold hk2 hv2
  have ht := kp.streamOf_lt b
  have hroom := hempty.room
  rw [hlen] at hroom
  have hheads : (st2.setHead (kp.streamOf b) h).vHeads (kp.streamOf b) = h := Function.update_self ..
  obtain ⟨st3, hdata, hsame, hput⟩ :=
    stateReadData_run src (kp.streamOf a) hfit hne hheads (hok2 _ ht).size hroom rest
  have hcells3 : st3.vCells = st2.vCells := hsame.vCells
  refine ⟨st3, h, ?_, ⟨hroom, fun k hk => ?_, fun k hk => ?_, fun t ht' i hi hout => ?_, fun x hx => ?_⟩⟩
  · have hcount : (cellsOf kp src (kp.streamOf a) a).length < 2 ^ 32 := by
      have := kp.kvSize_lt
      omega
    have hblock : (readBlock kp (kp.streamOf b) (cellsOf kp src (kp.streamOf a) a).length b).run
        ⟨tgt, seqRecords kp src a ++
          (dataBytes kp src (kp.streamOf a) (cellsOf kp src (kp.streamOf a) a) ++ rest)⟩
          = (.ok true, ⟨st3, rest⟩) := by
      rw [readBlock_seq_eq, run_bind_ok hmeta]
      exact hdata
    have hrun := readStream_seq s (readU32_u32 hcount _) (mt length_eq_zero_iff.mp hne) hblock
    rw [blockBytes_seq hsrc hne, append_assoc, append_assoc]
    exact hrun
  · -- an empty cell holds nothing
    have hp := hempty.empty k (hlen.symm ▸ hk)
    by_contra hne'
    exact (hrm _ ht).sound.seq_used (h + k) ((hrm _ ht).size ▸ (by omega)) hne' hp
  · obtain ⟨hp, hs⟩ := hnew k (hlen.symm ▸ hk)
    rw [hcells3]
    refine ⟨hp.trans ?_, hs⟩
    simp [seqPositions]
  · rw [hcells3]
    exact hold t ht' i hi (by rw [hlen]; exact hout)
  · obtain ⟨hputK, hputV⟩ := hput x hx
    refine ⟨hputK.congr_left ?_, hputV.congr_left ?_⟩
    · funext t' i
      show rowAt (st2.kData x.2 t') x.1.kSizeRow i = rowAt (tgt.kData x.2 t') x.1.kSizeRow i
      rw [hk2, hk1]
    · funext t' i
      have hv : (st2.setHead (kp.streamOf b) h).vData = tgt.vData := hv2.trans hv1
      rw [vRow, vRow, hv]

end KvCache
