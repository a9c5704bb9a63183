import LlamaRafaelia.Kv.Runs
import LlamaRafaelia.Lib.Interval

/-!
# The positions of a sequence form an interval

Placing a ubatch adds the positions of its tokens and removes everything up to the largest evicted position.  An
interval stays an interval when the tokens of a sequence go on in steps.  A token that lists a sequence twice leaves
an entry in `seq_pos` that no removal clears, and the largest position is never removed.
-/

namespace KvCache

open List Checked KvCells BatchAllocr KvCache Steps

variable {kp : KvParams} {st : KvCache} {G : ℕ → ℕ → ℤ → ℕ} {u : Ubatch} {si : SlotInfo}

instance (kp : KvParams) (st : KvCache) (s : ℕ) (p : ℤ) : Decidable (Holds kp st s p) :=
  inferInstanceAs (Decidable (∃ i < kp.kvSize, s ∈ ((st.vCells (kp.streamOf s)).cell i).seq ∧
    ((st.vCells (kp.streamOf s)).cell i).pos = p))

/-! ### One ubatch -/

theorem Ubatch.mem_posOf {u : Ubatch} {s : ℕ} {p : ℤ} :
    p ∈ u.posOf s ↔ ∃ i < u.nTokens, s ∈ u.seqAt i ∧ u.posAt i = p := by
  simp only [Ubatch.posOf, mem_map, mem_filter, List.mem_range, decide_eq_true_eq, and_assoc]

theorem evictCell_seq (h : Ok kp G st) {t i : ℕ} (ht : t < kp.nStream) (hi : i < kp.kvSize) :
    (evictCell ((st.vCells t).cell i)).seq = ∅ := by
  unfold evictCell
  split
  · next hp =>
    by_contra hne
    exact (h t ht).sound.seq_used i ((h t ht).size ▸ hi) hne hp
  · rfl

/-- **The positions after a ubatch**: those before it and those of its tokens, above what was evicted. -/
theorem applyUbatch_holds_iff (h : Ok kp G st) (hu : UbatchOk kp u) (hsi : SlotFits kp st u si) (s : ℕ)
    (p : ℤ) :
    Holds kp (st.applyUbatch kp si u).value s p ↔
      slotRm st si.places s < p ∧ (Holds kp st s p ∨ p ∈ u.posOf s) := by
  obtain ⟨-, hoff, hat, -, -⟩ := applyUbatch_spec h hu hsi
  have ht := kp.streamOf_lt s
  constructor
  · rintro ⟨i, hi, hs, rfl⟩
    by_cases hm : (kp.streamOf s, i) ∈ si.cells
    · obtain ⟨x, hx, hxeq⟩ := mem_map.mp hm
      obtain ⟨h1, h2⟩ := Prod.mk.inj hxeq
      obtain ⟨-, -, -, -, -, -, -, hlt⟩ := hsi.mem_places hu hx
      rw [← h1, ← h2, hat x hx] at hs ⊢
      rw [KvCell.restrict_seq] at hs
      rw [KvCell.restrict_pos (Finset.ne_empty_of_mem hs)]
      obtain ⟨hmem, hrm⟩ := Finset.mem_filter.mp hs
      have hplace := hsi.placeOk hu hx
      have htok : s ∈ u.seqAt x.2.2 := by
        simpa [placeCell, evictCell_seq h hplace.stream_lt hplace.idx_lt] using hmem
      exact ⟨hrm, Or.inr ((Ubatch.mem_posOf).mpr ⟨x.2.2, hlt, htok, rfl⟩)⟩
    · rw [hoff _ ht i hi hm] at hs ⊢
      rw [KvCell.restrict_seq] at hs
      rw [KvCell.restrict_pos (Finset.ne_empty_of_mem hs)]
      obtain ⟨hmem, hrm⟩ := Finset.mem_filter.mp hs
      exact ⟨hrm, Or.inl ⟨i, hi, hmem, rfl⟩⟩
  · rintro ⟨hrm, ⟨i, hi, hs, rfl⟩ | hp⟩
    · -- a cell of the slot would have been evicted at this position
      have hm : (kp.streamOf s, i) ∉ si.cells := by
        intro hm
        obtain ⟨x, hx, hxeq⟩ := mem_map.mp hm
        obtain ⟨h1, h2⟩ := Prod.mk.inj hxeq
        have hnn := h.pos_nonneg ht hi hs
        have hev : EvictedFrom st si.places s ((st.vCells (kp.streamOf s)).cell i).pos := by
          refine ⟨x, hx, ?_, ?_, ?_⟩ <;> rw [h1, h2]
          · omega
          · exact hs
        have := (le_slotRm_iff hnn).mpr hev
        omega
      have hkept : s ∈ keptBy st si ((st.vCells (kp.streamOf s)).cell i) :=
        Finset.mem_filter.mpr ⟨hs, hrm⟩
      refine ⟨i, hi, ?_, ?_⟩
      · rw [hoff _ ht i hi hm, KvCell.restrict_seq]
        exact hkept
      · rw [hoff _ ht i hi hm, KvCell.restrict_pos (Finset.ne_empty_of_mem hkept)]
    · obtain ⟨j, hj, hs, rfl⟩ := (Ubatch.mem_posOf).mp hp
      obtain ⟨x, hx, rfl⟩ := hsi.token_placed hu hj
      have hplace := hsi.placeOk hu hx
      have hstream := (hplace.seq_stream s hs).2
      have hkept : s ∈ keptBy st si (placeCell u x.2.2 (evictCell ((st.vCells x.1).cell x.2.1))) := by
        refine Finset.mem_filter.mpr ⟨?_, hrm⟩
        simp [placeCell, hs]
      refine ⟨x.2.1, hplace.idx_lt, ?_, ?_⟩
      · rw [hstream, hat x hx, KvCell.restrict_seq]
        exact hkept
      · rw [hstream, hat x hx, KvCell.restrict_pos (Finset.ne_empty_of_mem hkept)]
        rfl

theorem slotRm_holds (h : Ok kp G st) (hu : UbatchOk kp u) (hsi : SlotFits kp st u si) {s : ℕ}
    (hs : slotRm st si.places s ≠ -1) : ∃ p, slotRm st si.places s ≤ p ∧ Holds kp st s p := by
  have hge : -1 ≤ slotRm st si.places s := slotRm_ge si.places s
  obtain ⟨x, hx, -, hm, hle⟩ := (le_slotRm_iff (by omega)).mp (le_refl (slotRm st si.places s))
  have hplace := hsi.placeOk hu hx
  have hstream := ((h _ hplace.stream_lt).stream _ hplace.idx_lt s hm).2
  exact ⟨_, hle, x.2.1, hplace.idx_lt, hstream ▸ hm, by rw [hstream]⟩

/-- The positions of sequence `s`, as an interval that ends at `hi`. -/
def Filled (kp : KvParams) (st : KvCache) (s : ℕ) (hi : ℤ) : Prop :=
  ∃ lo, -1 ≤ lo ∧ lo ≤ hi ∧ {p | Holds kp st s p} = Set.Ioc lo hi

/-- **One ubatch keeps the interval** when its tokens go on in steps. -/
theorem applyUbatch_filled (h : Ok kp G st) (hu : UbatchOk kp u) (hsi : SlotFits kp st u si) {s : ℕ} {hi : ℤ}
    (hfill : Filled kp st s hi) (hsteps : Steps hi (u.posOf s)) :
    Filled kp (st.applyUbatch kp si u).value s (last hi (u.posOf s)) := by
  obtain ⟨lo, hge, hle, hset⟩ := hfill
  have hnn : ∀ p ∈ u.posOf s, 0 ≤ p := by
    intro p hp
    obtain ⟨i, hi', -, rfl⟩ := (Ubatch.mem_posOf).mp hp
    exact hu.pos_nonneg i hi'
  obtain ⟨lo', hge', hle', hunion⟩ := hsteps.union_Ioc hle hnn hge
  have hrm : slotRm st si.places s ≤ hi := by
    by_cases hne : slotRm st si.places s = -1
    · omega
    · obtain ⟨p, hp, hhold⟩ := slotRm_holds h hu hsi hne
      have hmem : p ∈ Set.Ioc lo hi := hset ▸ hhold
      exact hp.trans hmem.2
  refine ⟨max lo' (slotRm st si.places s), by omega, ?_, ?_⟩
  · have := hsteps.le_last
    omega
  · ext p
    have hiff := applyUbatch_holds_iff h hu hsi s p
    have hmem : (Holds kp st s p ∨ p ∈ u.posOf s) ↔ lo' < p ∧ p ≤ last hi (u.posOf s) := by
      have hp : p ∈ Set.Ioc lo hi ∪ {p | p ∈ u.posOf s} ↔ p ∈ Set.Ioc lo' (last hi (u.posOf s)) := by
        rw [hunion]
      rw [← hset] at hp
      exact hp
    rw [hmem] at hiff
    simp only [Set.mem_ofPred_eq, Set.mem_Ioc]
    rw [hiff]
    omega

theorem placeAll_filled (us : List Ubatch) (hus : ∀ u ∈ us, UbatchOk kp u) (h : Ok kp G st)
    {slots : List SlotInfo} (hfind : findAll kp st us = some slots) {s : ℕ} {hi : ℤ}
    (hfill : Filled kp st s hi) (hsteps : Steps hi (us.flatMap fun u => u.posOf s)) :
    Filled kp (placeAll kp st us) s (last hi (us.flatMap fun u => u.posOf s)) := by
  induction us generalizing st G slots hi with
  | nil => exact hfill
  | cons u us ih =>
    have hu : UbatchOk kp u := hus u (by simp)
    cases hslot : (st.findSlot kp u false).value with
    | none => simp [findAll, hslot] at hfind
    | some si =>
      simp only [findAll, hslot] at hfind
      obtain ⟨slots', hfind', rfl⟩ := Option.map_eq_some_iff.mp hfind
      have hsi := (h.findSlot hu hslot).fits h
      obtain ⟨⟨G1, hok1, -, -⟩, -, -, -, -⟩ := applyUbatch_spec h hu hsi
      rw [flatMap_cons, append_iff] at hsteps
      have hnext := ih (fun v hv => hus v (by simp [hv])) hok1 hfind'
        (applyUbatch_filled h hu hsi hfill hsteps.1) hsteps.2
      rw [flatMap_cons, last_append]
      simpa only [placeAll, hslot] using hnext

/-! ### An accepted batch goes on in steps -/

def Ordered (a : BatchAllocr) : Prop := ∀ s, ((a.tokensOf s).map a.posAt).Pairwise (· ≤ ·)

/-- Every token lists a sequence, none twice, and the positions stay below the largest one. -/
def Regular (a : BatchAllocr) : Prop :=
  Placeable a ∧ Distinct a ∧ ∀ i < a.nTokens, a.posAt i < llamaPosMax

theorem min_toFinset_sorted {p : ℤ} {l : List ℤ} (hsort : (p :: l).Pairwise (· ≤ ·)) :
    (p :: l).toFinset.min.untopD (-1) = p := by
  have hle := (pairwise_cons.mp hsort).1
  have hmin : (p :: l).toFinset.min = (p : WithTop ℤ) := by
    refine le_antisymm (Finset.min_le (by simp)) (Finset.le_min fun q hq => ?_)
    rcases mem_cons.mp (mem_toFinset.mp hq) with rfl | hq
    · exact le_rfl
    · exact WithTop.coe_le_coe.mpr (hle q hq)
  rw [hmin]
  rfl

theorem le_max_toFinset {l : List ℤ} {q : ℤ} (hq : q ∈ l) : q ≤ l.toFinset.max.unbotD (-1) := by
  have hmem : q ∈ l.toFinset := mem_toFinset.mpr hq
  obtain ⟨m, hm⟩ := Finset.max_of_mem hmem
  have hle := Finset.le_max hmem
  rw [hm] at hle ⊢
  exact WithBot.coe_le_coe.mp hle

/-- **What the checks of `init` mean**: the positions of a sequence are steps, and they follow the last position
in the memory if there is one. -/
theorem checkSeqPos_steps {a : BatchAllocr} {memory : Option Memory} {s : ℕ}
    (hsort : ((a.tokensOf s).map a.posAt).Pairwise (· ≤ ·)) (hok : a.checkSeqPos memory s = .ok ()) :
    (a.tokensOf s).map a.posAt = [] ∨
      ∃ p l, (a.tokensOf s).map a.posAt = p :: l ∧ Steps p l ∧
        (0 ≤ lastPos memory s → p = lastPos memory s + 1) := by
  cases hl : (a.tokensOf s).map a.posAt with
  | nil => exact Or.inl rfl
  | cons p l =>
    refine Or.inr ⟨p, l, rfl, ?_⟩
    rw [hl] at hsort
    have hne : a.seqPos s ≠ ∅ := by
      rw [BatchAllocr.seqPos, hl]
      exact Finset.ne_empty_of_mem (mem_toFinset.mpr mem_cons_self)
    have hmin : a.seqPosMin s = p := by
      rw [BatchAllocr.seqPosMin, BatchAllocr.seqPos, hl]
      exact min_toFinset_sorted hsort
    simp only [checkSeqPos, if_neg hne, hmin] at hok
    split at hok
    · simp at hok
    next hstart =>
    split at hok
    · simp at hok
    next hcard =>
    refine ⟨of_sorted hsort fun q hpq hex => ?_, fun hlast => ?_⟩
    · -- as many positions as there are between the first and the last
      obtain ⟨r, hr, hqr⟩ := hex
      have hmax : ∀ q ∈ p :: l, q ≤ a.seqPosMax s := fun q hq => by
        rw [BatchAllocr.seqPosMax, BatchAllocr.seqPos, hl]
        exact le_max_toFinset hq
      have hsub : a.seqPos s ⊆ Finset.Icc p (a.seqPosMax s) := by
        intro q hq
        rw [BatchAllocr.seqPos, hl, mem_toFinset] at hq
        refine Finset.mem_Icc.mpr ⟨?_, hmax q hq⟩
        rcases mem_cons.mp hq with rfl | hq
        · exact le_rfl
        · exact (pairwise_cons.mp hsort).1 q hq
      have hmem := mem_of_card hsub (by omega) hpq (hqr.trans (hmax r hr))
      rwa [BatchAllocr.seqPos, hl, mem_toFinset] at hmem
    · by_contra hne'
      exact hstart ⟨hlast, hne'⟩

theorem acceptBatch_checked {x : DecodeArgs} {a : BatchAllocr} (hpos : kp.nPosPerEmbd = 1)
    (h : (acceptBatch kp st x).value = .ok a) {s : ℕ} (hs : s < kp.batchSeqMax) :
    a.checkSeqPos (some (st.memory kp).value) s = .ok () := by
  obtain ⟨-, -, hval, rfl⟩ := BatchAllocr.init_ok h
  generalize ha : sanitize kp.nPosPerEmbd x.batch (some (st.memory kp).value) kp.batchSeqMax x.outputAll = b
    at hval ⊢
  have hmax : b.nSeqMax = kp.batchSeqMax := ha ▸ rfl
  have hemb : ¬ 1 < b.nPosPerEmbd := by
    have : b.nPosPerEmbd = kp.nPosPerEmbd := ha ▸ rfl
    omega
  simp only [validate, if_neg hemb] at hval
  cases hchk : (List.range b.nSeqMax).forM (b.checkSeqPos (some (st.memory kp).value)) with
  | error e =>
    rw [hchk] at hval
    cases hval
  | ok v => exact (forM_ok_iff _ _).mp hchk s (List.mem_range.mpr (hmax ▸ hs))

/-! ### Removing a suffix -/

theorem seqRmAt_holds (x : KvCell) (s q : ℕ) (lo hi p : ℤ) :
    (q ∈ (seqRmAt s lo hi x).seq ∧ (seqRmAt s lo hi x).pos = p) ↔
      (q ∈ x.seq ∧ x.pos = p) ∧ ¬ (q = s ∧ lo ≤ p ∧ p < hi) := by
  by_cases hhit : x.Hit s lo hi
  · have hpos := hhit.1
    rw [seqRmAt, if_pos hhit, seqRmCell]
    split
    · next he =>
      -- the cell held nothing but the sequence
      have honly : q ∈ x.seq → q = s := fun hq => by
        by_contra hne
        exact Finset.notMem_empty q (he ▸ Finset.mem_erase.mpr ⟨hne, hq⟩)
      constructor
      · intro h
        exact absurd h.1 (Finset.notMem_empty q)
      · intro h
        exact absurd ⟨honly h.1.1, h.1.2 ▸ hpos⟩ h.2
    · rw [Finset.mem_erase]
      constructor
      · intro h
        exact ⟨⟨h.1.2, h.2⟩, fun hc => h.1.1 hc.1⟩
      · intro h
        exact ⟨⟨fun hq => h.2 ⟨hq, h.1.2 ▸ hpos⟩, h.1.1⟩, h.1.2⟩
  · rw [seqRmAt, if_neg hhit]
    constructor
    · intro h
      refine ⟨h, fun hc => hhit ⟨h.2 ▸ hc.2, hc.1 ▸ h.1⟩⟩
    · exact fun h => h.1

theorem rmAt_holds (x : KvCell) (q : ℕ) (lo hi p : ℤ) :
    (q ∈ (rmAt lo hi x).seq ∧ (rmAt lo hi x).pos = p) ↔
      (q ∈ x.seq ∧ x.pos = p) ∧ ¬ (lo ≤ p ∧ p < hi) := by
  rw [rmAt]
  split
  · next hin =>
    constructor
    · intro h
      exact absurd h.1 (Finset.notMem_empty q)
    · intro h
      exact absurd (h.1.2 ▸ hin) h.2
  · next hin =>
    constructor
    · exact fun h => ⟨h, h.2 ▸ hin⟩
    · exact fun h => h.1

theorem seqRm_at (h : Ok kp G st) {s : ℕ} (hs : s < kp.seqToStream.length) (p0 p1 : ℤ) {t i : ℕ}
    (ht : t < kp.nStream) (hi : i < kp.kvSize) (q : ℕ) (p : ℤ) :
    (q ∈ ((st.seqRm kp s p0 p1).value.vCells t).seq i ∧ ((st.seqRm kp s p0 p1).value.vCells t).pos i = p) ↔
      (q ∈ (st.vCells t).seq i ∧ (st.vCells t).pos i = p) ∧ ¬ (q = s ∧ rangeLo p0 ≤ p ∧ p < rangeHi p1) := by
  obtain ⟨-, -, hcell⟩ := seqRm_spec h hs p0 p1
  rw [KvCells.seq, KvCells.pos, hcell t ht i hi]
  split
  · exact seqRmAt_holds _ s q _ _ p
  · next hstream =>
    -- the sequence has no cells in another stream
    refine ⟨fun hq => ⟨hq, fun hhit => ?_⟩, fun hq => hq.1⟩
    obtain ⟨rfl, -⟩ := hhit
    exact hstream ((h t ht).stream i hi q hq.1).2.symm

/-- **The positions after `seq_rm`**: those of the sequence (or of all) that were in the range are gone. -/
theorem seqRm_holds (h : Ok kp G st) {seqId : ℤ} (p0 p1 : ℤ)
    (hc : (st.seqRm kp seqId p0 p1).checks = true) (q : ℕ) (p : ℤ) :
    Holds kp (st.seqRm kp seqId p0 p1).value q p ↔
      Holds kp st q p ∧ ¬ ((seqId = -1 ∨ seqId = q) ∧ rangeLo p0 ≤ p ∧ p < rangeHi p1) := by
  have ht := kp.streamOf_lt q
  simp only [seqRm, bind_checks, check_checks, Bool.and_eq_true, decide_eq_true_eq] at hc
  rcases hc.1 with rfl | ⟨hnn, hlt⟩
  · obtain ⟨-, -, hcell⟩ := seqRmAll_spec h p0 p1
    have hiff : ∀ i < kp.kvSize, _ := fun i hi =>
      rmAt_holds ((st.vCells (kp.streamOf q)).cell i) q (rangeLo p0) (rangeHi p1) p
    simp only [true_or, true_and]
    constructor
    · intro hold
      obtain ⟨i, hi, hat⟩ := hold
      rw [hcell _ ht i hi] at hat
      exact ⟨⟨i, hi, ((hiff i hi).mp hat).1⟩, ((hiff i hi).mp hat).2⟩
    · intro hold
      obtain ⟨⟨i, hi, hat⟩, hout⟩ := hold
      refine ⟨i, hi, ?_⟩
      rw [hcell _ ht i hi]
      exact (hiff i hi).mpr ⟨hat, hout⟩
  · lift seqId to ℕ using hnn
    obtain ⟨-, -, hcell⟩ := seqRm_spec h (s := seqId) (by exact_mod_cast hlt) p0 p1
    have hno : ¬ ((seqId : ℤ) = -1) := by omega
    simp only [hno, false_or, Nat.cast_inj]
    by_cases hstream : kp.streamOf q = kp.streamOf seqId
    · have hiff : ∀ i < kp.kvSize, _ := fun i hi =>
        seqRmAt_holds ((st.vCells (kp.streamOf q)).cell i) seqId q (rangeLo p0) (rangeHi p1) p
      simp only [eq_comm (a := seqId)]
      constructor
      · intro hold
        obtain ⟨i, hi, hat⟩ := hold
        rw [hcell _ ht i hi, if_pos hstream] at hat
        exact ⟨⟨i, hi, ((hiff i hi).mp hat).1⟩, ((hiff i hi).mp hat).2⟩
      · intro hold
        obtain ⟨⟨i, hi, hat⟩, hout⟩ := hold
        refine ⟨i, hi, ?_⟩
        rw [hcell _ ht i hi, if_pos hstream]
        exact (hiff i hi).mpr ⟨hat, hout⟩
    · -- another stream, so another sequence
      have hne : seqId ≠ q := fun he => hstream (he ▸ rfl)
      simp only [hne, false_and, not_false_eq_true, and_true, Holds]
      refine exists_congr fun i => and_congr_right fun hi => ?_
      rw [hcell _ ht i hi, if_neg hstream]

/-- **A suffix removal keeps the interval**, shorter or as it was. -/
theorem seqRm_filled (h : Ok kp G st) {seqId p0 : ℤ} (hc : (st.seqRm kp seqId p0 (-1)).checks = true)
    {s : ℕ} {hi : ℤ} (hhi : hi < llamaPosMax) (hfill : Filled kp st s hi) :
    ∃ hi' < llamaPosMax, Filled kp (st.seqRm kp seqId p0 (-1)).value s hi' := by
  obtain ⟨lo, hge, hle, hset⟩ := hfill
  have hmem : ∀ p, Holds kp st s p ↔ lo < p ∧ p ≤ hi := fun p => Set.ext_iff.mp hset p
  have hiff := seqRm_holds h p0 (-1) hc s
  have hto : rangeHi (-1) = llamaPosMax := rfl
  by_cases hs : seqId = -1 ∨ seqId = s
  · -- what is left ends before `p0`
    refine ⟨max lo (min hi (rangeLo p0 - 1)), by omega, lo, hge, by omega, ?_⟩
    ext p
    have hp := hiff p
    rw [hmem p] at hp
    simp only [Set.mem_ofPred_eq, Set.mem_Ioc]
    rw [hp]
    simp only [hs, true_and]
    omega
  · refine ⟨hi, hhi, lo, hge, hle, ?_⟩
    ext p
    have hp := hiff p
    simp only [hs, false_and, not_false_eq_true, and_true] at hp
    exact hp.trans (hmem p)

/-! ### Runs of whole batches and suffix removals -/

/-- The states that whole batches satisfying `P` and suffix removals reach from the empty cache. -/
inductive BatchRun (kp : KvParams) (P : BatchAllocr → Prop) : KvCache → Prop
  | init : BatchRun kp P (init kp)
  | batch {st : KvCache} (h : BatchRun kp P st) (x : DecodeArgs) (a : BatchAllocr)
      (hinit : (acceptBatch kp st x).value = .ok a) (hord : Ordered a) (hP : P a)
      (hc : (st.decode kp x).checks = true) (hwhole : (st.decode kp x).value.1 = true) :
      BatchRun kp P (st.decode kp x).value.2
  | seqRm {st : KvCache} (h : BatchRun kp P st) (seqId p0 : ℤ)
      (hc : (st.seqRm kp seqId p0 (-1)).checks = true) :
      BatchRun kp P (st.seqRm kp seqId p0 (-1)).value

/-- The positions of sequence `s` are what `seq_pos_min` and `seq_pos_max` report, without a gap. -/
def GapFree (kp : KvParams) (st : KvCache) (s : ℕ) : Prop :=
  ({p | Holds kp st s p} = ∅ ∧ (st.seqPosMin kp s).value = -1 ∧ (st.seqPosMax kp s).value = -1) ∨
    ({p | Holds kp st s p}.Nonempty ∧
      {p | Holds kp st s p} = Set.Icc (st.seqPosMin kp s).value (st.seqPosMax kp s).value)

theorem GapFree.mem {s : ℕ} {p : ℤ} (h : GapFree kp st s) (hne : (st.seqPosMin kp s).value ≠ -1)
    (hmin : (st.seqPosMin kp s).value ≤ p) (hmax : p ≤ (st.seqPosMax kp s).value) : Holds kp st s p := by
  rcases h with ⟨-, hnone, -⟩ | ⟨-, hset⟩
  · exact absurd hnone hne
  · exact (Set.ext_iff.mp hset p).mpr ⟨hmin, hmax⟩

theorem holds_congr {st' : KvCache} (h : ∀ t < kp.nStream, ∀ i < kp.kvSize,
    snap ((st'.vCells t).cell i) = snap ((st.vCells t).cell i)) (s : ℕ) (p : ℤ) :
    Holds kp st' s p ↔ Holds kp st s p := by
  refine exists_congr fun i => and_congr_right fun hi => ?_
  obtain ⟨hpos, -, hseq⟩ := (snap_eq_iff).mp (h _ (kp.streamOf_lt s) i hi)
  rw [hpos, hseq]

theorem Filled.congr {st' : KvCache} {s : ℕ} {hi : ℤ} (h : ∀ p, Holds kp st' s p ↔ Holds kp st s p)
    (hfill : Filled kp st s hi) : Filled kp st' s hi := by
  obtain ⟨lo, hge, hle, hset⟩ := hfill
  exact ⟨lo, hge, hle, by rw [← hset]; exact Set.ext h⟩

theorem holds_positions (h : Ok kp G st) (s : ℕ) :
    {p | Holds kp st s p} = (st.vCells (kp.streamOf s)).positions s := by
  ext p
  simp only [Set.mem_ofPred_eq, Holds, positions, (h _ (kp.streamOf_lt s)).size]
  exact exists_congr fun i => and_congr_right fun _ => and_comm

theorem reports_positions (h : Ok kp 0 st) {s : ℕ} (hs : s < llamaMaxSeq) :
    ({p | Holds kp st s p} = ∅ → (st.seqPosMin kp s).value = -1 ∧ (st.seqPosMax kp s).value = -1) ∧
      ({p | Holds kp st s p}.Nonempty → IsLeast {p | Holds kp st s p} (st.seqPosMin kp s).value ∧
        IsGreatest {p | Holds kp st s p} (st.seqPosMax kp s).value) := by
  have hrep := ((consistent_iff_sound).mpr (h _ (kp.streamOf_lt s)).sound).toSynced.reports
  have hmin : (st.seqPosMin kp s).value = ((st.vCells (kp.streamOf s)).seqPosMin s).value := by
    simp only [seqPosMin, bind_value, Int.toNat_natCast]
  have hmax : (st.seqPosMax kp s).value = ((st.vCells (kp.streamOf s)).seqPosMax s).value := by
    simp only [seqPosMax, bind_value, Int.toNat_natCast]
  rw [holds_positions h, hmin, hmax]
  exact ⟨fun he => ⟨hrep.seqPosMin_none s hs he, hrep.seqPosMax_none s hs he⟩,
    fun hne => ⟨hrep.seqPosMin_some s hs hne, hrep.seqPosMax_some s hs hne⟩⟩

theorem Filled.gapFree (h : Ok kp 0 st) {s : ℕ} (hs : s < llamaMaxSeq) {hi : ℤ}
    (hfill : Filled kp st s hi) : GapFree kp st s := by
  obtain ⟨lo, -, hle, hset⟩ := hfill
  obtain ⟨hnone, hsome⟩ := reports_positions h hs
  rcases Set.eq_empty_or_nonempty {p | Holds kp st s p} with he | hne
  · exact Or.inl ⟨he, hnone he⟩
  · obtain ⟨hmin, hmax⟩ := hsome hne
    refine Or.inr ⟨hne, Set.ext fun p => ⟨fun hp => ⟨hmin.2 hp, hmax.2 hp⟩, fun hp => ?_⟩⟩
    -- between the two ends of an interval
    have h1 := hmin.1
    have h2 := hmax.1
    rw [hset] at h1 h2 ⊢
    exact ⟨h1.1.trans_le hp.1, hp.2.trans h2.2⟩

theorem accepted_steps (h : Ok kp 0 st) {x : DecodeArgs} {a : BatchAllocr} (hemb : kp.nPosPerEmbd = 1)
    (hn : 0 < x.batch.nTokens) (hinit : (acceptBatch kp st x).value = .ok a) (hord : Ordered a)
    (hreg : Regular a) {s : ℕ} {hi : ℤ} (hhi : hi < llamaPosMax) (hfill : Filled kp st s hi) :
    ∃ hi', Filled kp st s hi' ∧ Steps hi' ((a.tokensOf s).map a.posAt) ∧
      last hi' ((a.tokensOf s).map a.posAt) < llamaPosMax := by
  obtain ⟨hplaced, -, htop⟩ := hreg
  obtain ⟨hacc, hmax, -⟩ := acceptBatch_ok hn hplaced hinit
  have htok : ∀ p ∈ (a.tokensOf s).map a.posAt, 0 ≤ p ∧ p < llamaPosMax := by
    intro p hp
    obtain ⟨i, hi, rfl⟩ := mem_map.mp hp
    have hlt := List.mem_range.mp (mem_filter.mp hi).1
    exact ⟨(hplaced i hlt).2, htop i hlt⟩
  by_cases hs : s < kp.batchSeqMax
  · have hslt : s < llamaMaxSeq :=
      lt_of_lt_of_le hs ((batchSeqMax_le_seqToStream kp).trans kp.seqToStream_length_le)
    rcases checkSeqPos_steps (hord s) (acceptBatch_checked hemb hinit hs) with hnil | ⟨p, l, hl, hsteps, hnext⟩
    · rw [hnil]
      exact ⟨hi, hfill, trivial, hhi⟩
    · rw [hl] at htok ⊢
      have hlast : last p l < llamaPosMax := by
        rcases last_mem p l with heq | hmem
        · rw [heq]
          exact (htok p mem_cons_self).2
        · exact (htok _ (mem_cons_of_mem p hmem)).2
      have hp := (htok p mem_cons_self).1
      obtain ⟨hnone, hsome⟩ := reports_positions h hslt
      rcases Set.eq_empty_or_nonempty {p | Holds kp st s p} with he | hne
      · -- an empty sequence may start anywhere
        refine ⟨p - 1, ⟨p - 1, by omega, le_rfl, ?_⟩, ⟨Or.inr (by omega), hsteps⟩, hlast⟩
        rw [he, Set.Ioc_self]
      · obtain ⟨lo, hge, hle, hset⟩ := id hfill
        obtain ⟨-, hgreat⟩ := hsome hne
        have hpos : lastPos (some (st.memory kp).value) s = hi := by
          show (st.seqPosMax kp s).value = hi
          rw [hset] at hgreat
          have hmem := hgreat.1
          exact le_antisymm hmem.2 (hgreat.2 ⟨hmem.1.trans_le hmem.2, le_rfl⟩)
        have hnn : 0 ≤ hi := by
          obtain ⟨q, hq⟩ := hne
          have hq' : q ∈ Set.Ioc lo hi := hset ▸ hq
          have := hq'.1
          have := hq'.2
          omega
        rw [hpos] at hnext
        exact ⟨hi, hfill, ⟨Or.inr (hnext hnn), hsteps⟩, hlast⟩
  · have hnil : a.tokensOf s = [] := by
      rw [tokensOf, filter_eq_nil_iff]
      intro i _ hmem
      exact hs (hmax ▸ hacc.seq_lt i s (of_decide_eq_true hmem))
    rw [hnil]
    exact ⟨hi, hfill, trivial, hhi⟩

theorem decode_filled (h : Ok kp 0 st) {x : DecodeArgs} {a : BatchAllocr} (hemb : kp.nPosPerEmbd = 1)
    (hinit : (acceptBatch kp st x).value = .ok a) (hord : Ordered a) (hreg : Regular a)
    (hc : (st.decode kp x).checks = true) (hwhole : (st.decode kp x).value.1 = true) {s : ℕ} {hi : ℤ}
    (hhi : hi < llamaPosMax) (hfill : Filled kp st s hi) :
    ∃ hi' < llamaPosMax, Filled kp (st.decode kp x).value.2 s hi' := by
  have hn := decode_nTokens_pos hc
  have hupd := update_ok h x.shifted
  obtain ⟨hi1, hfill1, hsteps, hlast⟩ := accepted_steps h hemb hn hinit hord hreg hhi hfill
  have hpl : (Op.decode x).Placed kp st := by
    intro b hb
    obtain rfl : a = b := Except.ok.inj (hinit.symm.trans hb)
    exact hreg.1
  have hsame : ∀ p, Holds kp (st.update kp x.shifted) s p ↔ Holds kp st s p := by
    refine holds_congr (fun t _ i _ => ?_) s
    rcases @update_cell kp st x.shifted t with heq | heq
    · rw [heq]
    · rw [heq]
      rfl
  have hdec := decode_decoded kp st x
  generalize (st.decode kp x).value = r at hdec hwhole ⊢
  cases hdec with
  | refused => cases hwhole
  | unsplit => cases hwhole
  | unfit b hb => cases hwhole
  | applied b slots hb hused hfind =>
    obtain rfl : a = b := Except.ok.inj (hinit.symm.trans hb)
    have hus := ubatches_ok hn hpl hinit
    obtain ⟨hacc, hmax, hemb'⟩ := acceptBatch_ok hn hreg.1 hinit
    obtain ⟨-, htokens, -, -, hall⟩ :=
      split_spec hacc hmax (hemb' ▸ kp.nPosPerEmbd_pos) (fun i hi => (hreg.1 i hi).2) x.nUbatch
    have hflat : (ubatches kp a x.nUbatch).1.flatMap (fun u => u.posOf s) = (a.tokensOf s).map a.posAt :=
      hall (le_of_eq_of_le htokens.symm hused) s
    obtain ⟨G', hok, -, -, -, -⟩ := roundTrip_spec _ (fun u hu => (hus u hu).1) hupd
    obtain ⟨-, hcells⟩ := replay _ (fun u hu => (hus u hu).1) x.nDone slots hfind hok hupd
      fun _ _ _ _ => Or.inr rfl
    have hplaced := placeAll_filled _ (fun u hu => (hus u hu).1) hupd hfind (hfill1.congr hsame)
      (hflat.symm ▸ hsteps)
    rw [hflat] at hplaced
    refine ⟨_, hlast, hplaced.congr fun p => ?_⟩
    exact holds_congr (hcells (of_decide_eq_true hwhole)) s p

theorem batchRun_filled (hemb : kp.nPosPerEmbd = 1) (h : BatchRun kp Regular st) :
    Ok kp 0 st ∧ ∀ s, ∃ hi < llamaPosMax, Filled kp st s hi := by
  induction h with
  | init =>
    refine ⟨init_ok, fun s => ⟨-1, by decide, -1, le_rfl, le_rfl, ?_⟩⟩
    rw [Set.Ioc_self]
    refine Set.eq_empty_of_forall_notMem fun p hp => ?_
    obtain ⟨i, -, hs, -⟩ := hp
    exact Finset.notMem_empty s hs
  | @batch st _ x a hinit hord hreg hc hwhole ih =>
    obtain ⟨hok, hfill⟩ := ih
    have huniq : ∀ b, (acceptBatch kp st x).value = .ok b → b = a := fun b hb =>
      (Except.ok.inj (hinit.symm.trans hb)).symm
    have hpl : (Op.decode x).Placed kp st := fun b hb => huniq b hb ▸ hreg.1
    obtain ⟨G', hok', hsame⟩ := decode_ok hok hpl hc
    rw [hsame fun b hb => huniq b hb ▸ hreg.2.1] at hok'
    refine ⟨hok', fun s => ?_⟩
    obtain ⟨hi, hhi, hs⟩ := hfill s
    exact decode_filled hok hemb hinit hord hreg hc hwhole hhi hs
  | seqRm _ seqId p0 hc ih =>
    obtain ⟨hok, hfill⟩ := ih
    refine ⟨(seqRm_ok hok p0 (-1) hc).2, fun s => ?_⟩
    obtain ⟨hi, hhi, hs⟩ := hfill s
    exact seqRm_filled hok hc hhi hs

/-- **The positions of every sequence form one interval**, in every state that regular batches and suffix
removals reach. -/
theorem batchRun_gapFree (kp : KvParams) (hemb : kp.nPosPerEmbd = 1) (st : KvCache)
    (h : BatchRun kp Regular st) (s : ℕ) (hs : s < kp.seqToStream.length) : GapFree kp st s := by
  obtain ⟨hok, hfill⟩ := batchRun_filled hemb h
  obtain ⟨hi, -, hset⟩ := hfill s
  exact hset.gapFree hok (hs.trans_le kp.seqToStream_length_le)

theorem decode_accepted {x : DecodeArgs} (h : (st.decode kp x).value.1 = true) :
    ∃ a, (acceptBatch kp st x).value = .ok a := by
  have hdec := decode_decoded kp st x
  generalize (st.decode kp x).value = r at hdec h
  cases hdec with
  | refused => cases h
  | unsplit => cases h
  | unfit a ha => cases h
  | applied a slots ha _ _ => exact ⟨a, ha⟩

/-- Tokens at the given positions, all with the same list of sequences. -/
def tokensAt (pos ids : List ℤ) : DecodeArgs :=
  .whole (.text pos (List.replicate pos.length ids) (by simp)) pos.length

theorem tokensAt_accepted {pos ids : List ℤ} {a : BatchAllocr}
    (h : (acceptBatch kp st (tokensAt pos ids)).value = .ok a) :
    a.nTokens = pos.length ∧ a.posAt = (fun i => pos.getD i 0) ∧
      ∀ i < pos.length, a.seqAt i = ids.map Int.toNat := by
  obtain ⟨-, -, -, rfl⟩ := BatchAllocr.init_ok h
  refine ⟨rfl, rfl, fun i hi => ?_⟩
  show ((List.replicate pos.length ids).map fun ids => ids.map Int.toNat).getD i [] = ids.map Int.toNat
  simp [hi]

theorem tokensAt_ordered {pos ids : List ℤ} {a : BatchAllocr}
    (h : (acceptBatch kp st (tokensAt pos ids)).value = .ok a) (hsort : pos.Pairwise (· ≤ ·)) :
    Ordered a := by
  obtain ⟨hn, hpos, -⟩ := tokensAt_accepted h
  intro s
  have hall : (List.range a.nTokens).map a.posAt = pos := by
    rw [hn, hpos]
    exact ext_getElem (by simp) fun i h1 h2 => by simp [h2]
  refine List.Pairwise.sublist (List.Sublist.map a.posAt filter_sublist) ?_
  rw [hall]
  exact hsort

theorem batchRun_gapFree_cut :
    GapFree windowCache (((init windowCache).decode windowCache
      (tokensAt [0, 1, 2] [0])).value.2.seqRm windowCache 0 2 (-1)).value 0 := by
  have hwhole : ((init windowCache).decode windowCache
    (tokensAt [0, 1, 2] [0])).value.1 = true := by decide +kernel
  obtain ⟨a, ha⟩ := decode_accepted hwhole
  obtain ⟨hn, hpos, hseq⟩ := tokensAt_accepted ha
  have hreg : Regular a := by
    refine ⟨fun i hi => ?_, fun i hi => ?_, fun i hi => ?_⟩
    · rw [hseq i (hn ▸ hi), hpos]
      rw [hn] at hi
      revert i
      decide
    · rw [hseq i (hn ▸ hi)]
      decide
    · rw [hpos]
      rw [hn] at hi
      revert i
      decide
  have hbatch := BatchRun.init.batch _ a ha (tokensAt_ordered ha (by decide)) hreg (by decide +kernel) hwhole
  exact batchRun_gapFree windowCache rfl _ (hbatch.seqRm 0 2 (by decide +kernel)) 0 (by decide +kernel)

def topTokens : DecodeArgs := tokensAt [2147483645, 2147483646, 2147483647] [0]

/-- `topTokens`, and then all positions from the second on removed. -/
def topCut : KvCache :=
  (((init windowCache).decode windowCache topTokens).value.2.seqRm windowCache 0 2147483646 (-1)).value

def twiceToken : DecodeArgs := tokensAt [0] [0, 0]

/-- `twiceToken`, and then sequence 0 removed. -/
def twiceCut : KvCache :=
  (((init smallCache).decode smallCache twiceToken).value.2.seqRm smallCache 0 0 (-1)).value

theorem topCut_run : BatchRun windowCache (fun _ => True) topCut := by
  have hwhole : ((init windowCache).decode windowCache topTokens).value.1 = true := by decide +kernel
  have hc : ((init windowCache).decode windowCache topTokens).checks = true := by decide +kernel
  have hcut : (((init windowCache).decode windowCache topTokens).value.2.seqRm windowCache 0
    2147483646 (-1)).checks = true := by decide +kernel
  obtain ⟨a, ha⟩ := decode_accepted hwhole
  have hord : Ordered a := tokensAt_ordered ha (by decide)
  have hbatch := (@BatchRun.init windowCache fun _ => True).batch topTokens a ha hord trivial hc hwhole
  exact hbatch.seqRm 0 2147483646 hcut

theorem twiceCut_run : BatchRun smallCache (fun _ => True) twiceCut := by
  have hwhole : ((init smallCache).decode smallCache twiceToken).value.1 = true := by decide +kernel
  have hc : ((init smallCache).decode smallCache twiceToken).checks = true := by decide +kernel
  have hcut : (((init smallCache).decode smallCache twiceToken).value.2.seqRm smallCache 0 0
    (-1)).checks = true := by decide +kernel
  obtain ⟨a, ha⟩ := decode_accepted hwhole
  have hord : Ordered a := tokensAt_ordered ha (by decide)
  have hbatch := (@BatchRun.init smallCache fun _ => True).batch twiceToken a ha hord trivial hc hwhole
  exact hbatch.seqRm 0 0 hcut

/-- Two runs that leave no interval.  The largest position survives the removal of all positions from the one
before it; and a token that lists sequence 0 twice leaves position 0 in `seq_pos` when it is removed. -/
theorem batchRun_gap :
    (BatchRun windowCache (fun _ => True) topCut ∧ ¬ GapFree windowCache topCut 0) ∧
      BatchRun smallCache (fun _ => True) twiceCut ∧ ¬ GapFree smallCache twiceCut 0 := by
  refine ⟨⟨topCut_run, fun hgap => ?_⟩, twiceCut_run, fun hgap => ?_⟩
  · -- position 2147483646 is missing between the two that are left
    have hlost : ¬ Holds windowCache topCut 0 2147483646 := by decide +kernel
    exact hlost (hgap.mem (by decide +kernel) (by decide +kernel) (by decide +kernel))
  · -- no cell is left, but `seq_pos_min` still reports position 0
    have hlost : ¬ Holds smallCache twiceCut 0 0 := by decide +kernel
    exact hlost (hgap.mem (by decide +kernel) (by decide +kernel) (by decide +kernel))

end KvCache
