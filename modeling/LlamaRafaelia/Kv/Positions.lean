import LlamaRafaelia.Kv.Intervals

/-!
# The positions of a sequence, operation by operation

`Holds kp st s p`: some cell stores position `p` of sequence `s`.  While ubatches are placed, a position is lost when
a cell of its sequence at or above it is evicted; `Spared` says that this does not happen.
-/

namespace KvCache

open Checked KvCells BatchAllocr Finset KvCache

variable {kp : KvParams} {st : KvCache} {G : ℕ → ℕ → ℤ → ℕ} {u : Ubatch} {si : SlotInfo}

/-! ### `clear`, `update` and `seq_keep` -/

theorem clear_holds (data : Bool) (s : ℕ) (p : ℤ) : ¬ Holds kp (st.clear kp data) s p := by
  rintro ⟨i, -, hs, -⟩
  simp [clear, kp.streamOf_lt s, KvCells.reset, KvCell.empty] at hs

theorem init_holds (s : ℕ) (p : ℤ) : ¬ Holds kp (init kp) s p := by
  rintro ⟨i, -, hs, -⟩
  simp [init, KvCells.resize, KvCell.empty] at hs

theorem update_holds (shifted : Option TensorData) (s : ℕ) (p : ℤ) :
    Holds kp (st.update kp shifted) s p ↔ Holds kp st s p := by
  unfold Holds
  rcases update_cell st shifted (kp.streamOf s) with heq | heq
  · rw [heq]
  · rw [heq]
    rfl

theorem seqKeepCell_holds (x : KvCell) (s q : ℕ) (p : ℤ) :
    (q ∈ (seqKeepCell x s).seq ∧ (seqKeepCell x s).pos = p) ↔ (q ∈ x.seq ∧ x.pos = p) ∧ q = s := by
  unfold seqKeepCell
  by_cases hs : s ∈ x.seq
  · rw [if_pos hs]
    constructor
    · intro h
      obtain rfl := mem_singleton.mp h.1
      exact ⟨⟨hs, h.2⟩, rfl⟩
    · intro h
      exact ⟨mem_singleton.mpr h.2, h.1.2⟩
  · rw [if_neg hs]
    have hno : ¬ ((q ∈ x.seq ∧ x.pos = p) ∧ q = s) := fun h => hs (h.2 ▸ h.1.1)
    by_cases hne : x.seq ≠ ∅
    · rw [if_pos hne]
      exact ⟨fun h => absurd h.1 (notMem_empty q), fun h => absurd h hno⟩
    · rw [if_neg hne]
      rw [not_not] at hne
      refine ⟨fun h => ?_, fun h => absurd h hno⟩
      rw [hne] at h
      exact absurd h.1 (notMem_empty q)

/-- **The positions after `seq_keep`**: the other sequences of the stream are gone. -/
theorem seqKeep_holds (h : Ok kp G st) {s : ℕ} (hs : s < kp.seqToStream.length) (q : ℕ) (p : ℤ) :
    Holds kp (st.seqKeep kp s).value q p ↔ Holds kp st q p ∧ (kp.streamOf q = kp.streamOf s → q = s) := by
  obtain ⟨-, -, hcell⟩ := seqKeep_spec h hs
  have ht := kp.streamOf_lt q
  unfold Holds
  by_cases hstream : kp.streamOf q = kp.streamOf s
  · simp only [hstream, true_implies]
    rw [hstream] at ht
    constructor
    · rintro ⟨i, hi, hq⟩
      rw [hcell _ ht i hi, if_pos rfl, seqKeepCell_holds] at hq
      exact ⟨⟨i, hi, hq.1⟩, hq.2⟩
    · rintro ⟨⟨i, hi, hq⟩, rfl⟩
      refine ⟨i, hi, ?_⟩
      rw [hcell _ ht i hi, if_pos rfl, seqKeepCell_holds]
      exact ⟨hq, rfl⟩
  · simp only [hstream, false_implies, and_true]
    refine exists_congr fun i => and_congr_right fun hi => ?_
    rw [hcell _ ht i hi, if_neg hstream]

/-! ### `seq_cp` -/

theorem seqCpAt_holds (x : KvCell) (src dst q : ℕ) (lo hi p : ℤ) :
    (q ∈ (seqCpAt src dst lo hi x).seq ∧ (seqCpAt src dst lo hi x).pos = p) ↔
      (q ∈ x.seq ∧ x.pos = p) ∨ q = dst ∧ (src ∈ x.seq ∧ x.pos = p) ∧ lo ≤ p ∧ p < hi := by
  unfold seqCpAt
  by_cases hhit : x.Hit src lo hi
  · rw [if_pos hhit]
    constructor
    · rintro ⟨hq, hp⟩
      rcases mem_insert.mp hq with rfl | hq
      · exact Or.inr ⟨rfl, ⟨hhit.2, hp⟩, hp ▸ hhit.1⟩
      · exact Or.inl ⟨hq, hp⟩
    · rintro (⟨hq, hp⟩ | ⟨rfl, ⟨-, hp⟩, -⟩)
      · exact ⟨mem_insert_of_mem hq, hp⟩
      · exact ⟨mem_insert_self _ _, hp⟩
  · rw [if_neg hhit]
    refine ⟨Or.inl, ?_⟩
    rintro (hq | ⟨-, ⟨hsrc, rfl⟩, hin⟩)
    · exact hq
    · exact absurd ⟨hin, hsrc⟩ hhit

/-- **The positions after a copy inside one stream**: the destination has those of the range as well. -/
theorem seqCp_holds_same (h : Ok kp G st) {src dst : ℕ} (hsrc : src < kp.seqToStream.length)
    (hdst : dst < kp.seqToStream.length) (hsame : kp.streamOf src = kp.streamOf dst) (hne : src ≠ dst)
    (p0 p1 : ℤ) (q : ℕ) (p : ℤ) :
    Holds kp (st.seqCp kp src dst p0 p1).value q p ↔
      Holds kp st q p ∨ q = dst ∧ Holds kp st src p ∧ rangeLo p0 ≤ p ∧ p < rangeHi p1 := by
  have ht := kp.streamOf_lt src
  obtain ⟨-, -, hcell⟩ := seqCpSame_spec (rangeLo p0) (rangeHi p1) (h _ ht)
    (lt_of_lt_of_le hsrc kp.seqToStream_length_le) hdst hsame.symm
  have hval : (st.seqCp kp src dst p0 p1).value
      = st.setStream (kp.streamOf src) (loopRange (st.vCells (kp.streamOf src)).size
          (seqCpSameStep src dst (rangeLo p0) (rangeHi p1)) (st.vCells (kp.streamOf src))).value
          (st.vHeads (kp.streamOf src)) := by
    simp [seqCp, ← hsame, hne]
  rw [hval]
  unfold Holds
  by_cases hstream : kp.streamOf q = kp.streamOf src
  · rw [hstream, setStream_vCells_self]
    constructor
    · rintro ⟨i, hi, hq⟩
      rw [hcell i hi, seqCpAt_holds] at hq
      exact hq.imp (fun hq => ⟨i, hi, hq⟩) fun hq => ⟨hq.1, ⟨i, hi, hq.2.1⟩, hq.2.2⟩
    · rintro (⟨i, hi, hq⟩ | ⟨heq, ⟨i, hi, hq⟩, hin⟩)
      · exact ⟨i, hi, by rw [hcell i hi, seqCpAt_holds]; exact Or.inl hq⟩
      · exact ⟨i, hi, by rw [hcell i hi, seqCpAt_holds]; exact Or.inr ⟨heq, hq, hin⟩⟩
  · rw [setStream_vCells_of_ne hstream]
    refine ⟨Or.inl, fun hor => hor.resolve_right fun hq => hstream ?_⟩
    rw [hq.1, hsame]

/-- **The positions after a copy across streams**: those of the source. -/
theorem seqCp_holds_cross (h : Ok kp G st) {src dst : ℕ} (hsrc : src < kp.seqToStream.length)
    (hdst : dst < kp.seqToStream.length) (hdiff : kp.streamOf src ≠ kp.streamOf dst) (p0 p1 : ℤ) (q : ℕ)
    (p : ℤ) :
    Holds kp (st.seqCp kp src dst p0 p1).value q p ↔
      if kp.streamOf q = kp.streamOf dst then q = dst ∧ Holds kp st src p else Holds kp st q p := by
  have ht := kp.streamOf_lt src
  obtain ⟨-, -, hcell⟩ := seqCpCross_spec (h _ ht) (h _ (kp.streamOf_lt dst)).size
    (lt_of_lt_of_le hsrc kp.seqToStream_length_le) hdst rfl
  have hval : (st.seqCp kp src dst p0 p1).value.vCells
      = (st.setStream (kp.streamOf dst) (loopRange (st.vCells (kp.streamOf src)).size
          (seqCpCrossStep src dst (st.vCells (kp.streamOf src))) (st.vCells (kp.streamOf dst)).reset).value
          (st.vHeads (kp.streamOf src))).vCells := by
    simp [seqCp, hdiff]
  unfold Holds
  rw [hval]
  split
  · next hstream =>
    rw [hstream, setStream_vCells_self]
    constructor
    · rintro ⟨i, hi, hq, hp⟩
      rw [hcell i hi] at hq hp
      split at hq
      · next hmem =>
        rw [if_pos hmem] at hp
        exact ⟨mem_singleton.mp hq, i, hi, hmem, hp⟩
      · exact absurd hq (notMem_empty q)
    · rintro ⟨rfl, i, hi, hmem, hp⟩
      have hcopy := (hcell i hi).trans (if_pos hmem)
      exact ⟨i, hi, by rw [hcopy]; exact mem_singleton_self q, by rw [hcopy]; exact hp⟩
  · next hstream => rw [setStream_vCells_of_ne hstream]

/-! ### `seq_add` -/

/-- Where `seq_add` moves position `p` of its sequence. -/
def shiftPos (lo hi d p : ℤ) : ℤ := if lo ≤ p ∧ p < hi then p + d else p

/-- **The positions of the shifted sequence after `seq_add`**; those that fall below zero are gone. -/
theorem seqAdd_holds (h : Ok kp G st) {s : ℕ} (hs : s < kp.seqToStream.length) (p0 p1 d r : ℤ) :
    Holds kp (st.seqAdd kp s p0 p1 d).value s r ↔
      0 ≤ r ∧ ∃ p, Holds kp st s p ∧ shiftPos (rangeLo p0) (rangeHi p1) d p = r := by
  obtain ⟨-, -, hcell⟩ := seqAdd_spec h hs p0 p1 d
  have ht := kp.streamOf_lt s
  -- at a cell of the sequence
  have hat : ∀ i < kp.kvSize, (s ∈ (((st.seqAdd kp s p0 p1 d).value.vCells (kp.streamOf s)).cell i).seq ∧
      (((st.seqAdd kp s p0 p1 d).value.vCells (kp.streamOf s)).cell i).pos = r) ↔
      0 ≤ r ∧ s ∈ ((st.vCells (kp.streamOf s)).cell i).seq ∧
        shiftPos (rangeLo p0) (rangeHi p1) d ((st.vCells (kp.streamOf s)).cell i).pos = r := by
    intro i hi
    rw [hcell _ ht i hi]
    set x := (st.vCells (kp.streamOf s)).cell i with hx
    have hnn : s ∈ x.seq → 0 ≤ x.pos := fun hmem => h.pos_nonneg ht hi hmem
    by_cases hnop : d = 0 ∨ rangeLo p0 = rangeHi p1
    · have hsame : shiftPos (rangeLo p0) (rangeHi p1) d x.pos = x.pos := by
        unfold shiftPos
        split
        · omega
        · rfl
      rw [if_neg fun hc => hc.2 hnop, hsame]
      refine ⟨fun hq => ⟨?_, hq⟩, fun hq => hq.2⟩
      have := hnn hq.1
      omega
    · rw [if_pos ⟨rfl, hnop⟩, seqAddAt]
      by_cases hmem : s ∈ x.seq
      · by_cases hin : rangeLo p0 ≤ x.pos ∧ x.pos < rangeHi p1
        · rw [if_pos ⟨hin, hmem⟩, shiftPos, if_pos hin, posAddCell]
          split
          · next hneg =>
            refine ⟨fun hq => absurd hq.1 (notMem_empty s), fun hq => ?_⟩
            omega
          · next hpos =>
            refine ⟨fun hq => ⟨?_, hmem, hq.2⟩, fun hq => ⟨hmem, hq.2.2⟩⟩
            have hr : x.pos + d = r := hq.2
            omega
        · rw [if_neg fun hc => hin hc.1, shiftPos, if_neg hin]
          refine ⟨fun hq => ⟨?_, hq⟩, fun hq => hq.2⟩
          have := hnn hmem
          omega
      · rw [if_neg fun hc => hmem hc.2]
        exact ⟨fun hq => absurd hq.1 hmem, fun hq => absurd hq.2.1 hmem⟩
  constructor
  · rintro ⟨i, hi, hq⟩
    obtain ⟨hr, hmem, hp⟩ := (hat i hi).mp hq
    exact ⟨hr, _, ⟨i, hi, hmem, rfl⟩, hp⟩
  · rintro ⟨hr, p, ⟨i, hi, hmem, rfl⟩, hp⟩
    exact ⟨i, hi, (hat i hi).mpr ⟨hr, hmem, hp⟩⟩

/-- No cell of the range holds sequence `s` together with another one. -/
def Alone (kp : KvParams) (st : KvCache) (s : ℕ) (lo hi : ℤ) : Prop :=
  ∀ i < kp.kvSize, ((st.vCells (kp.streamOf s)).cell i).Hit s lo hi →
    ((st.vCells (kp.streamOf s)).cell i).seq = {s}

theorem seqAdd_holds_other (h : Ok kp G st) {s : ℕ} (hs : s < kp.seqToStream.length) {p0 p1 : ℤ}
    (halone : Alone kp st s (rangeLo p0) (rangeHi p1)) (d : ℤ) {q : ℕ} (hq : q ≠ s) (r : ℤ) :
    Holds kp (st.seqAdd kp s p0 p1 d).value q r ↔ Holds kp st q r := by
  obtain ⟨-, -, hcell⟩ := seqAdd_spec h hs p0 p1 d
  have ht := kp.streamOf_lt q
  refine exists_congr fun i => and_congr_right fun hi => ?_
  rw [hcell _ ht i hi]
  split
  · next hin =>
    rw [seqAddAt]
    split
    · next hhit =>
      rw [hin.1] at hhit ⊢
      have hsingle := halone i hi hhit
      have hnot : q ∉ ((st.vCells (kp.streamOf s)).cell i).seq := by
        rw [hsingle, mem_singleton]
        exact hq
      exact ⟨fun hc => absurd (posAddCell_subset _ _ hc.1) hnot, fun hc => absurd hc.1 hnot⟩
    · rfl
  · rfl

/-! ### Placing a list of ubatches -/

/-- Position `p` of sequence `s` is above everything that is evicted from the sequence while the ubatches are
placed. -/
def Spared (kp : KvParams) (s : ℕ) (p : ℤ) : KvCache → List Ubatch → Prop
  | _, [] => True
  | st, u :: us =>
    match (st.findSlot kp u false).value with
    | none => True
    | some si => slotRm st si.places s < p ∧ Spared kp s p (st.applyUbatch kp si u).value us

theorem Spared.cons {s : ℕ} {p : ℤ} {us : List Ubatch} (hslot : (st.findSlot kp u false).value = some si) :
    Spared kp s p st (u :: us) ↔
      slotRm st si.places s < p ∧ Spared kp s p (st.applyUbatch kp si u).value us := by
  rw [Spared, hslot]

theorem placeAll_holds {us : List Ubatch} (hus : ∀ u ∈ us, UbatchOk kp u) (h : Ok kp G st) {s : ℕ} {p : ℤ}
    (hold : Holds kp (placeAll kp st us) s p) : Holds kp st s p ∨ p ∈ us.flatMap fun u => u.posOf s := by
  induction us generalizing st G with
  | nil => exact Or.inl hold
  | cons u us ih =>
    have hu := hus u (by simp)
    cases hslot : (st.findSlot kp u false).value with
    | none =>
      simp only [placeAll, hslot] at hold
      exact Or.inl hold
    | some si =>
      simp only [placeAll, hslot] at hold
      have hsi := (h.findSlot hu hslot).fits h
      obtain ⟨⟨G1, hok1, -, -⟩, -, -, -, -⟩ := applyUbatch_spec h hu hsi
      rw [List.flatMap_cons, List.mem_append]
      rcases ih (fun v hv => hus v (by simp [hv])) hok1 hold with hold | htok
      · rw [applyUbatch_holds_iff h hu hsi] at hold
        exact hold.2.imp_right Or.inl
      · exact Or.inr (Or.inr htok)

theorem Spared.placeAll {us : List Ubatch} (hus : ∀ u ∈ us, UbatchOk kp u) (h : Ok kp G st)
    {slots : List SlotInfo} (hfind : findAll kp st us = some slots) {s : ℕ} {p : ℤ}
    (hsp : Spared kp s p st us) (hold : Holds kp st s p ∨ p ∈ us.flatMap fun u => u.posOf s) :
    Holds kp (placeAll kp st us) s p := by
  induction us generalizing st G slots with
  | nil => exact hold.resolve_right (by simp)
  | cons u us ih =>
    have hu := hus u (by simp)
    cases hslot : (st.findSlot kp u false).value with
    | none => simp [findAll, hslot] at hfind
    | some si =>
      simp only [findAll, hslot] at hfind
      obtain ⟨slots', hfind', rfl⟩ := Option.map_eq_some_iff.mp hfind
      have hsi := (h.findSlot hu hslot).fits h
      obtain ⟨⟨G1, hok1, -, -⟩, -, -, -, -⟩ := applyUbatch_spec h hu hsi
      obtain ⟨hrm, hrest⟩ := (Spared.cons hslot).mp hsp
      simp only [placeAll, hslot]
      refine ih (fun v hv => hus v (by simp [hv])) hok1 hfind' hrest ?_
      rw [applyUbatch_holds_iff h hu hsi]
      rw [List.flatMap_cons, List.mem_append] at hold
      rcases hold with hold | htok | hlater
      · exact Or.inl ⟨hrm, Or.inl hold⟩
      · exact Or.inl ⟨hrm, Or.inr htok⟩
      · exact Or.inr hlater

theorem roundTrip_holds {us : List Ubatch} (hus : ∀ u ∈ us, UbatchOk kp u) (h : Ok kp G st) {s : ℕ} {p : ℤ}
    (hold : Holds kp (roundTrip kp st us) s p) : Holds kp st s p := by
  obtain ⟨-, -, -, hshrunk, -⟩ := roundTrip_spec us hus h
  obtain ⟨i, hi, hmem, hp⟩ := hold
  obtain ⟨hsub, hpos⟩ := hshrunk _ (kp.streamOf_lt s) i hi
  exact ⟨i, hi, hsub hmem, (hpos (ne_empty_of_mem hmem)).symm.trans hp⟩

theorem Spared.roundTrip_cell {us : List Ubatch} (hus : ∀ u ∈ us, UbatchOk kp u) (h : Ok kp G st) {s i : ℕ}
    (hi : i < kp.kvSize) (hmem : s ∈ ((st.vCells (kp.streamOf s)).cell i).seq)
    (hsp : Spared kp s ((st.vCells (kp.streamOf s)).cell i).pos st us) :
    s ∈ (((roundTrip kp st us).vCells (kp.streamOf s)).cell i).seq ∧
      (((roundTrip kp st us).vCells (kp.streamOf s)).cell i).pos = ((st.vCells (kp.streamOf s)).cell i).pos := by
  induction us generalizing st G with
  | nil => exact ⟨hmem, rfl⟩
  | cons u us ih =>
    have hu := hus u (by simp)
    have hus' : ∀ v ∈ us, UbatchOk kp v := fun v hv => hus v (by simp [hv])
    have ht := kp.streamOf_lt s
    cases hslot : (st.findSlot kp u false).value with
    | none =>
      simp only [roundTrip, hslot]
      exact ⟨hmem, trivial⟩
    | some si =>
      have hsi := (h.findSlot hu hslot).fits h
      obtain ⟨⟨G1, hok1, -, -⟩, hoff, -, -, -⟩ := applyUbatch_spec h hu hsi
      obtain ⟨G2, hok2, -, -, -, -⟩ := roundTrip_spec us hus' hok1
      obtain ⟨-, hroff, hrat, -, -⟩ := restore_spec hok2 h hu hsi
      obtain ⟨hrm, hrest⟩ := (Spared.cons hslot).mp hsp
      simp only [roundTrip, hslot]
      by_cases hcell : (kp.streamOf s, i) ∈ si.cells
      · -- a cell of the slot comes back from the snapshot
        rw [hrat _ i hcell]
        exact ⟨hmem, rfl⟩
      · rw [hroff _ i hcell]
        have hkept : s ∈ keptBy st si ((st.vCells (kp.streamOf s)).cell i) := mem_filter.mpr ⟨hmem, hrm⟩
        have hnew := hoff _ ht i hi hcell
        have hpos : (((st.applyUbatch kp si u).value.vCells (kp.streamOf s)).cell i).pos
            = ((st.vCells (kp.streamOf s)).cell i).pos := by
          rw [hnew, KvCell.restrict_pos (ne_empty_of_mem hkept)]
        have hstep := ih hus' hok1 (by rw [hnew, KvCell.restrict_seq]; exact hkept) (by rw [hpos]; exact hrest)
        exact ⟨hstep.1, hstep.2.trans hpos⟩

theorem Spared.roundTrip {us : List Ubatch} (hus : ∀ u ∈ us, UbatchOk kp u) (h : Ok kp G st) {s : ℕ} {p : ℤ}
    (hsp : Spared kp s p st us) (hold : Holds kp st s p) : Holds kp (roundTrip kp st us) s p := by
  obtain ⟨i, hi, hmem, rfl⟩ := hold
  obtain ⟨hmem', hpos⟩ := Spared.roundTrip_cell hus h hi hmem hsp
  exact ⟨i, hi, hmem', hpos⟩

theorem spared_of_none (hswa : kp.swaType = .none) {us : List Ubatch} (hus : ∀ u ∈ us, UbatchOk kp u)
    (h : Ok kp G st) (s : ℕ) {p : ℤ} (hp : 0 ≤ p) : Spared kp s p st us := by
  induction us generalizing st G with
  | nil => trivial
  | cons u us ih =>
    have hu := hus u (by simp)
    cases hslot : (st.findSlot kp u false).value with
    | none => simp only [Spared, hslot]
    | some si =>
      have hok := h.findSlot hu hslot
      obtain ⟨⟨G1, hok1, -, -⟩, -, -, -, -⟩ := applyUbatch_spec h hu (hok.fits h)
      refine (Spared.cons hslot).mpr ⟨?_, ih (fun v hv => hus v (by simp [hv])) hok1⟩
      by_contra hle
      obtain ⟨x, hx, -, hmem, -⟩ := (le_slotRm_iff hp).mp (Int.not_lt.mp hle)
      obtain ⟨hmasked, -⟩ := hok.evicted_masked hu h hx hmem
      rw [KvParams.isMasked, hswa] at hmasked
      exact absurd hmasked (by simp [isMaskedSwa])

end KvCache
