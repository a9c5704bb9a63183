import LlamaRafaelia.Kv.SeqOps

/-!
# The invariant of the KV cache

`Ok kp G st` collects what holds of the streams between two operations; with `G = 0` it is the representation
invariant of the cells.  Only a copy inside one stream can raise the surplus `G`, where a cell already holds the
destination.
-/

namespace KvParams

variable (kp : KvParams)

theorem nStream_pos : 0 < kp.nStream := by
  unfold nStream
  split
  · exact Nat.one_pos
  · exact kp.nSeqMax_pos

theorem seqToStream_length_le : kp.seqToStream.length ≤ llamaMaxSeq := by
  unfold seqToStream
  split
  · rw [List.length_range]
    unfold nStream
    split
    · decide
    · exact kp.nSeqMax_le
  · rw [List.length_replicate]

theorem streamOf_of_lt (h : 1 < kp.nStream) {s : ℕ} (hs : s < kp.seqToStream.length) :
    kp.streamOf s = s := by
  have hlen : s < kp.nStream := by
    rw [seqToStream, if_pos h, List.length_range] at hs
    exact hs
  simp [streamOf, seqToStream, h, hlen]

theorem streamOf_of_le (h : kp.nStream ≤ 1) (s : ℕ) : kp.streamOf s = 0 := by
  simp only [streamOf, seqToStream, if_neg (Nat.not_lt.mpr h), List.getD_eq_getElem?_getD,
    List.getElem?_replicate]
  split <;> rfl

theorem streamOf_lt (s : ℕ) : kp.streamOf s < kp.nStream := by
  by_cases h : 1 < kp.nStream
  · by_cases hs : s < kp.seqToStream.length
    · rw [kp.streamOf_of_lt h hs]
      rwa [seqToStream, if_pos h, List.length_range] at hs
    · have hnone : kp.seqToStream[s]? = none := List.getElem?_eq_none (Nat.not_lt.mp hs)
      simp only [streamOf, List.getD_eq_getElem?_getD, hnone, Option.getD_none]
      exact kp.nStream_pos
  · rw [kp.streamOf_of_le (Nat.not_lt.mp h)]
    exact kp.nStream_pos

end KvParams

namespace KvCache

open Checked KvCells KvCache Function

/-- The invariant of stream `t`, up to the surplus `g`. -/
structure StreamOk (kp : KvParams) (t : ℕ) (g : ℕ → ℤ → ℕ) (c : KvCells) (head : ℕ) : Prop where
  size : c.size = kp.kvSize
  sound : Sound g c
  owned : ∀ i < kp.kvSize, (c.cell i).Owned
  stream : ∀ i < kp.kvSize, ∀ s ∈ (c.cell i).seq, s < kp.seqToStream.length ∧ kp.streamOf s = t
  head_le : head ≤ kp.kvSize

/-- The invariant of the cache, up to the surplus `G t` of each stream `t`. -/
def Ok (kp : KvParams) (G : ℕ → ℕ → ℤ → ℕ) (st : KvCache) : Prop :=
  ∀ t < kp.nStream, StreamOk kp t (G t) (st.vCells t) (st.vHeads t)

variable {kp : KvParams} {st : KvCache} {G : ℕ → ℕ → ℤ → ℕ} {t : ℕ} {c : KvCells} {head : ℕ}

@[simp] theorem setStream_vCells_self : (st.setStream t c head).vCells t = c := by
  simp only [setStream, update_self]

@[simp] theorem setStream_vHeads_self : (st.setStream t c head).vHeads t = head := by
  simp only [setStream, update_self]

theorem setStream_vCells_of_ne {t' : ℕ} (h : t' ≠ t) :
    (st.setStream t c head).vCells t' = st.vCells t' := by
  simp only [setStream, update_of_ne h]

theorem setStream_vHeads_of_ne {t' : ℕ} (h : t' ≠ t) :
    (st.setStream t c head).vHeads t' = st.vHeads t' := by
  simp only [setStream, update_of_ne h]

theorem Ok.setStream {g : ℕ → ℤ → ℕ} (h : Ok kp G st) (hc : StreamOk kp t g c head) :
    Ok kp (Function.update G t g) (st.setStream t c head) := by
  intro t' ht'
  by_cases hne : t' = t
  · subst hne
    simpa using hc
  · simpa only [setStream_vCells_of_ne hne, setStream_vHeads_of_ne hne, update_of_ne hne]
      using h t' ht'

theorem StreamOk.cellLoop {σ : Type} {view : σ → KvCells} {F : KvCell → KvCell}
    {step : σ → ℕ → Checked σ} {g : ℕ → ℤ → ℕ} {head' : ℕ} (h : StreamOk kp t g c head)
    (hstep : CellStep view F step) {a : σ} (ha : view a = c) (hhead : head' ≤ kp.kvSize) :
    let r := loopRange c.size step a
    r.asserts = true ∧ StreamOk kp t g (view r.value) head' ∧
      ∀ i < kp.kvSize, (view r.value).cell i = F (c.cell i) := by
  have hspec := hstep.loop_spec (a := a) (ha ▸ h.sound)
  rw [ha, h.size] at hspec
  obtain ⟨hsound, hsize, hcell, hok⟩ := hspec
  rw [h.size]
  refine ⟨hok h.owned, ⟨hsize, hsound, fun i hi => ?_, fun i hi s hs => ?_, hhead⟩, hcell⟩
  · rw [hcell i hi]
    exact hstep.owned _ (h.owned i hi)
  · rw [hcell i hi] at hs
    exact h.stream i hi s (hstep.seq_subset _ hs)

theorem Ok.cellLoop {σ : Type} {view : σ → KvCells} {F : KvCell → KvCell} {step : σ → ℕ → Checked σ}
    (h : Ok kp G st) (ht : t < kp.nStream) (hstep : CellStep view F step) {a : σ}
    (ha : view a = st.vCells t) (hhead : head ≤ kp.kvSize) :
    let r := loopRange (st.vCells t).size step a
    r.asserts = true ∧ Ok kp G (st.setStream t (view r.value) head) ∧
      ∀ t' < kp.nStream, ∀ i < kp.kvSize,
        ((st.setStream t (view r.value) head).vCells t').cell i
          = if t' = t then F ((st.vCells t').cell i) else (st.vCells t').cell i := by
  obtain ⟨hok, hstream, hcell⟩ := (h t ht).cellLoop hstep ha hhead
  have hset := h.setStream hstream
  rw [update_eq_self] at hset
  refine ⟨hok, hset, fun t' _ i hi => ?_⟩
  by_cases hne : t' = t
  · subst hne
    rw [if_pos rfl, setStream_vCells_self]
    exact hcell i hi
  · rw [if_neg hne, setStream_vCells_of_ne hne]

theorem freedHead_le {size newHead n : ℕ} (h : head ≤ n) : freedHead size newHead head ≤ n := by
  unfold freedHead
  split <;> omega

/-! ### `seq_rm` -/

theorem rangeLo_nonneg (p : ℤ) : 0 ≤ rangeLo p := by
  unfold rangeLo
  split <;> omega

theorem seqRm_value (s : ℕ) (p0 p1 : ℤ) :
    (st.seqRm kp s p0 p1).value =
      let t := kp.streamOf s
      let r := (st.streamLoop t (seqRmStep s (rangeLo p0) (rangeHi p1))).value
      st.setStream t r.1 (freedHead (st.vCells t).size r.2 (st.vHeads t)) := by
  simp [seqRm]

theorem seqRm_asserts_eq (s : ℕ) (p0 p1 : ℤ) :
    (st.seqRm kp s p0 p1).asserts
      = (st.streamLoop (kp.streamOf s) (seqRmStep s (rangeLo p0) (rangeHi p1))).asserts := by
  simp [seqRm]

/-- **`seq_rm` of one sequence** meets its assertions, keeps the invariant, and removes the sequence from
the cells of its stream that are within the range. -/
theorem seqRm_spec (h : Ok kp G st) {s : ℕ} (hs : s < kp.seqToStream.length) (p0 p1 : ℤ) :
    (st.seqRm kp s p0 p1).asserts = true ∧ Ok kp G (st.seqRm kp s p0 p1).value ∧
      ∀ t < kp.nStream, ∀ i < kp.kvSize, ((st.seqRm kp s p0 p1).value.vCells t).cell i =
        if t = kp.streamOf s then seqRmAt s (rangeLo p0) (rangeHi p1) ((st.vCells t).cell i)
        else (st.vCells t).cell i := by
  have ht : kp.streamOf s < kp.nStream := kp.streamOf_lt s
  have hstep := seqRmStep_cellStep (rangeLo p0) (rangeHi p1) (st.vCells (kp.streamOf s)).size
    (Nat.lt_of_lt_of_le hs kp.seqToStream_length_le)
  rw [seqRm_asserts_eq, seqRm_value]
  exact h.cellLoop ht hstep (a := (st.vCells (kp.streamOf s), (st.vCells (kp.streamOf s)).size)) rfl
    (freedHead_le (h _ ht).head_le)

theorem seqRm_vHeads_of_ne {s t' : ℕ} (p0 p1 : ℤ) (h : t' ≠ kp.streamOf s) :
    (st.seqRm kp s p0 p1).value.vHeads t' = st.vHeads t' := by
  rw [seqRm_value]
  exact setStream_vHeads_of_ne h

theorem rmStream_spec (h : Ok kp G st) (ht : t < kp.nStream) (p0 p1 : ℤ) :
    let r := st.streamLoop t (rmStep (rangeLo p0) (rangeHi p1))
    let st' := st.setStream t r.value.1 (freedHead (st.vCells t).size r.value.2 (st.vHeads t))
    r.asserts = true ∧ Ok kp G st' ∧ ∀ t' < kp.nStream, ∀ i < kp.kvSize, (st'.vCells t').cell i
      = if t' = t then rmAt (rangeLo p0) (rangeHi p1) ((st.vCells t').cell i) else (st.vCells t').cell i :=
  h.cellLoop ht (rmStep_cellStep (rangeHi p1) (st.vCells t).size (rangeLo_nonneg p0))
    (a := (st.vCells t, (st.vCells t).size)) rfl (freedHead_le (h t ht).head_le)

/-- **`seq_rm` of all sequences** clears the cells of every stream that are within the range. -/
theorem seqRmAll_spec (h : Ok kp G st) (p0 p1 : ℤ) :
    (st.seqRm kp (-1) p0 p1).asserts = true ∧ Ok kp G (st.seqRm kp (-1) p0 p1).value ∧
      ∀ t < kp.nStream, ∀ i < kp.kvSize, ((st.seqRm kp (-1) p0 p1).value.vCells t).cell i
        = rmAt (rangeLo p0) (rangeHi p1) ((st.vCells t).cell i) := by
  obtain ⟨hok, hkeep, hcell⟩ := loopRange_rule (f := fun st t => do
    let r ← streamLoop st t (rmStep (rangeLo p0) (rangeHi p1))
    return st.setStream t r.1 (freedHead (st.vCells t).size r.2 (st.vHeads t)))
    (fun k st' => Ok kp G st' ∧ ∀ t < kp.nStream, ∀ i < kp.kvSize, (st'.vCells t).cell i
      = if t < k then rmAt (rangeLo p0) (rangeHi p1) ((st.vCells t).cell i) else (st.vCells t).cell i)
    kp.nStream (s := st) ⟨h, fun t _ i _ => by simp⟩ (fun k st' hk ⟨hst', hdone⟩ => by
      obtain ⟨hok, hkeep, hcell⟩ := rmStream_spec hst' hk p0 p1
      refine ⟨by simp only [bind_asserts, hok, pure_asserts, Bool.and_self], hkeep, fun t ht i hi => ?_⟩
      have hnew := hcell t ht i hi
      rw [hdone t ht i hi] at hnew
      simp only [bind_value, pure_value]
      rw [hnew]
      by_cases htk : t = k
      · subst htk
        simp
      · have hiff : t < k + 1 ↔ t < k := by omega
        simp only [htk, if_false, hiff])
  have hval : st.seqRm kp (-1) p0 p1 = (do
      check (-1 = (-1 : ℤ) ∨ (0 ≤ (-1 : ℤ) ∧ (-1 : ℤ) < kp.seqToStream.length))
      loopRange kp.nStream (fun st t => do
        let r ← streamLoop st t (rmStep (rangeLo p0) (rangeHi p1))
        return st.setStream t r.1 (freedHead (st.vCells t).size r.2 (st.vHeads t))) st) := rfl
  rw [hval]
  refine ⟨by simpa using hok, hkeep, fun t ht i hi => ?_⟩
  exact (hcell t ht i hi).trans (if_pos ht)

theorem seqRm_ok (h : Ok kp G st) {seqId : ℤ} (p0 p1 : ℤ)
    (hc : (st.seqRm kp seqId p0 p1).checks = true) :
    (st.seqRm kp seqId p0 p1).asserts = true ∧ Ok kp G (st.seqRm kp seqId p0 p1).value := by
  simp only [seqRm, bind_checks, check_checks, Bool.and_eq_true, decide_eq_true_eq] at hc
  rcases hc.1 with rfl | ⟨hnn, hlt⟩
  · obtain ⟨hok, hkeep, -⟩ := seqRmAll_spec h p0 p1
    exact ⟨hok, hkeep⟩
  · lift seqId to ℕ using hnn
    obtain ⟨hok, hkeep, -⟩ := seqRm_spec h (by exact_mod_cast hlt) p0 p1
    exact ⟨hok, hkeep⟩

/-! ### `clear`, `seq_keep`, `seq_add` and `seq_div` -/

theorem streamOk_reset {c : KvCells} (h : c.size = kp.kvSize) : StreamOk kp t 0 c.reset 0 where
  size := h
  sound := reset_sound c
  owned := fun _ _ hne => absurd rfl hne
  stream := fun i _ s hs => by simp [reset, KvCell.empty] at hs
  head_le := Nat.zero_le _

theorem init_ok : Ok kp 0 (init kp) := fun _ _ => streamOk_reset (c := resize kp.kvSize) rfl

theorem clear_ok (h : Ok kp G st) (data : Bool) : Ok kp 0 (st.clear kp data) := by
  intro t ht
  simp only [clear, ht, if_true]
  exact streamOk_reset (h t ht).size

/-- **`seq_keep`** leaves its sequence alone in the cells of its stream. -/
theorem seqKeep_spec (h : Ok kp G st) {s : ℕ} (hs : s < kp.seqToStream.length) :
    (st.seqKeep kp s).asserts = true ∧ Ok kp G (st.seqKeep kp s).value ∧
      ∀ t < kp.nStream, ∀ i < kp.kvSize, ((st.seqKeep kp s).value.vCells t).cell i =
        if t = kp.streamOf s then seqKeepCell ((st.vCells t).cell i) s else (st.vCells t).cell i := by
  have ht := kp.streamOf_lt s
  have hasserts : (st.seqKeep kp s).asserts = (st.streamLoop (kp.streamOf s) (seqKeepStep s)).asserts := by
    simp [seqKeep]
  have hval : (st.seqKeep kp s).value =
      let r := (st.streamLoop (kp.streamOf s) (seqKeepStep s)).value
      st.setStream (kp.streamOf s) r.1
        (freedHead (st.vCells (kp.streamOf s)).size r.2 (st.vHeads (kp.streamOf s))) := by
    simp [seqKeep]
  rw [hasserts, hval]
  exact h.cellLoop ht
    (seqKeepStep_cellStep (st.vCells (kp.streamOf s)).size (lt_of_lt_of_le hs kp.seqToStream_length_le))
    (a := (st.vCells (kp.streamOf s), (st.vCells (kp.streamOf s)).size)) rfl
    (freedHead_le (h _ ht).head_le)

theorem seqKeep_ok (h : Ok kp G st) {seqId : ℤ} (hc : (st.seqKeep kp seqId).checks = true) :
    (st.seqKeep kp seqId).asserts = true ∧ Ok kp G (st.seqKeep kp seqId).value := by
  simp only [seqKeep, bind_checks, check_checks, Bool.and_eq_true, decide_eq_true_eq] at hc
  obtain ⟨⟨hnn, hlt⟩, -⟩ := hc
  lift seqId to ℕ using hnn
  obtain ⟨hok, hkeep, -⟩ := seqKeep_spec h (s := seqId) (by exact_mod_cast hlt)
  exact ⟨hok, hkeep⟩

/-- **`seq_add`** shifts the cells of its sequence that are within the range. -/
theorem seqAdd_spec (h : Ok kp G st) {s : ℕ} (hs : s < kp.seqToStream.length) (p0 p1 d : ℤ) :
    (st.seqAdd kp s p0 p1 d).asserts = true ∧ Ok kp G (st.seqAdd kp s p0 p1 d).value ∧
      ∀ t < kp.nStream, ∀ i < kp.kvSize, ((st.seqAdd kp s p0 p1 d).value.vCells t).cell i =
        if t = kp.streamOf s ∧ ¬ (d = 0 ∨ rangeLo p0 = rangeHi p1)
        then seqAddAt s (rangeLo p0) (rangeHi p1) d ((st.vCells t).cell i) else (st.vCells t).cell i := by
  by_cases hnop : d = 0 ∨ rangeLo p0 = rangeHi p1
  · have hval : (st.seqAdd kp s p0 p1 d).value = st := by simp [seqAdd, hnop]
    rw [hval]
    refine ⟨by simp [seqAdd, hnop], h, fun t _ i _ => ?_⟩
    rw [if_neg fun hc => hc.2 hnop]
  · have ht := kp.streamOf_lt s
    have hle := loopRange_head_le
      (seqAddStep s (rangeLo p0) (rangeHi p1) d (st.vCells (kp.streamOf s)).size)
      (n := (st.vCells (kp.streamOf s)).size)
      (a := (st.vCells (kp.streamOf s), (st.vCells (kp.streamOf s)).size)) le_rfl
      (fun _ _ hi hb => seqAddStep_head hi hb)
    have hhead : (if (st.streamLoop (kp.streamOf s)
          (seqAddStep s (rangeLo p0) (rangeHi p1) d)).value.2 ≠ (st.vCells (kp.streamOf s)).size
        then (st.streamLoop (kp.streamOf s)
          (seqAddStep s (rangeLo p0) (rangeHi p1) d)).value.2 else 0) ≤ kp.kvSize := by
      split
      · exact le_of_le_of_eq hle (h _ ht).size
      · exact Nat.zero_le _
    have hloop := h.cellLoop ht
      (seqAddStep_cellStep (rangeLo p0) (rangeHi p1) d (st.vCells (kp.streamOf s)).size
        (lt_of_lt_of_le hs kp.seqToStream_length_le))
      (a := (st.vCells (kp.streamOf s), (st.vCells (kp.streamOf s)).size)) rfl hhead
    have hval : (st.seqAdd kp s p0 p1 d).value =
        let r := (st.streamLoop (kp.streamOf s) (seqAddStep s (rangeLo p0) (rangeHi p1) d)).value
        st.setStream (kp.streamOf s) r.1 (if r.2 ≠ (st.vCells (kp.streamOf s)).size then r.2 else 0) := by
      simp only [seqAdd, bind_value, pure_value, if_neg hnop, Int.toNat_natCast]
    rw [hval]
    refine ⟨?_, hloop.2.1, fun t ht' i hi => ?_⟩
    · simpa [seqAdd, streamLoop, hnop] using hloop.1
    · simp only [hnop, not_false_eq_true, and_true]
      exact hloop.2.2 t ht' i hi

theorem seqAdd_ok (h : Ok kp G st) {seqId : ℤ} (p0 p1 d : ℤ)
    (hc : (st.seqAdd kp seqId p0 p1 d).checks = true) :
    (st.seqAdd kp seqId p0 p1 d).asserts = true ∧ Ok kp G (st.seqAdd kp seqId p0 p1 d).value := by
  simp only [seqAdd, bind_checks, check_checks, Bool.and_eq_true, decide_eq_true_eq] at hc
  obtain ⟨⟨hnn, hlt⟩, -⟩ := hc
  lift seqId to ℕ using hnn
  obtain ⟨hok, hkeep, -⟩ := seqAdd_spec h (s := seqId) (by exact_mod_cast hlt) p0 p1 d
  exact ⟨hok, hkeep⟩

theorem seqDiv_ok (h : Ok kp G st) {seqId : ℤ} (p0 p1 : ℤ) {d : ℤ} (hd : 1 ≤ d)
    (hc : (st.seqDiv kp seqId p0 p1 d).checks = true) :
    (st.seqDiv kp seqId p0 p1 d).asserts = true ∧ Ok kp G (st.seqDiv kp seqId p0 p1 d).value := by
  simp only [seqDiv, bind_checks, check_checks, Bool.and_eq_true, decide_eq_true_eq] at hc
  obtain ⟨⟨hnn, hlt⟩, -⟩ := hc
  lift seqId to ℕ using hnn
  by_cases hnop : d = 1 ∨ rangeLo p0 = rangeHi p1
  · simpa [seqDiv, hnop] using h
  · have ht := kp.streamOf_lt seqId
    have hs : seqId < llamaMaxSeq := lt_of_lt_of_le (by exact_mod_cast hlt) kp.seqToStream_length_le
    obtain ⟨hok, hkeep, -⟩ := h.cellLoop ht
      (seqDivStep_cellStep (rangeLo p0) (rangeHi p1) hs hd)
      (a := st.vCells (kp.streamOf seqId)) rfl (h _ ht).head_le
    constructor
    · simpa [seqDiv, hnop] using hok
    · simpa [seqDiv, hnop] using hkeep

/-! ### `seq_cp` inside one stream -/

variable {src dst : ℕ} {lo hi : ℤ} {g : ℕ → ℤ → ℕ}

theorem seqCpSameStep_value (c : KvCells) (i : ℕ) :
    (seqCpSameStep src dst lo hi c i).value
      = if (c.cell i).Hit src lo hi then (c.seqAdd i dst).value else c := by
  by_cases h1 : lo ≤ (c.cell i).pos ∧ (c.cell i).pos < hi
  · by_cases h2 : src ∈ (c.cell i).seq <;>
      simp [seqCpSameStep, posIn, seqHas, KvCell.Hit, pos, seq, h1, h2]
  · simp [seqCpSameStep, posIn, KvCell.Hit, pos, h1]

theorem seqCpSameStep_cell (c : KvCells) (i : ℕ) :
    (seqCpSameStep src dst lo hi c i).value.cell
      = Function.update c.cell i (seqCpAt src dst lo hi (c.cell i)) := by
  rw [seqCpSameStep_value, seqCpAt]
  split
  · exact seqAdd_cell c i dst
  · rw [update_eq_self]

theorem seqCpSameStep_size (c : KvCells) (i : ℕ) :
    (seqCpSameStep src dst lo hi c i).value.size = c.size := by
  rw [seqCpSameStep_value]
  split <;> rfl

theorem seqCpSameStep_sound {i : ℕ} (h : Sound g c) (hi' : i < c.size) (hdst : dst < llamaMaxSeq) :
    ∃ g', Sound g' (seqCpSameStep src dst lo hi c i).value ∧
      (¬ ((c.cell i).Hit src lo hi ∧ dst ∈ (c.cell i).seq) → g' = g) := by
  rw [seqCpSameStep_value]
  by_cases hhit : (c.cell i).Hit src lo hi
  · rw [if_pos hhit]
    by_cases hm : dst ∈ (c.cell i).seq
    · exact ⟨_, seqAdd_sound_again h hm, fun hno => absurd ⟨hhit, hm⟩ hno⟩
    · exact ⟨g, seqAdd_sound h hi' hdst (hit_pos_ne h hi' hhit) hm, fun _ => rfl⟩
  · rw [if_neg hhit]
    exact ⟨g, h, fun _ => rfl⟩

theorem seqCpSameStep_asserts {i : ℕ} (h : Sound g c) (hi' : i < c.size) (hsrc : src < llamaMaxSeq)
    (hdst : dst < llamaMaxSeq) (hno : ¬ ((c.cell i).Hit src lo hi ∧ dst ∈ (c.cell i).seq)) :
    (seqCpSameStep src dst lo hi c i).asserts = true := by
  by_cases h1 : lo ≤ (c.cell i).pos ∧ (c.cell i).pos < hi
  · by_cases h2 : src ∈ (c.cell i).seq
    · have hadd := (seqAdd_asserts c i dst).mpr
        ⟨hi', hdst, hit_pos_ne h hi' ⟨h1, h2⟩, fun hm => hno ⟨⟨h1, h2⟩, hm⟩⟩
      simp [seqCpSameStep, posIn, seqHas, pos, seq, h1, h2, hi', hsrc, hadd]
    · simp [seqCpSameStep, posIn, seqHas, pos, seq, h1, h2, hi', hsrc]
  · simp [seqCpSameStep, posIn, pos, h1, hi']

/-- Every cell of the source within the range is still without the destination. -/
def CopyFresh (src dst : ℕ) (lo hi : ℤ) (c : KvCells) : Prop :=
  ∀ i < c.size, (c.cell i).Hit src lo hi → dst ∉ (c.cell i).seq

/-- **A copy inside one stream** keeps the invariant up to a larger surplus; when no cell already holds
the destination it meets the assertions and keeps the surplus as well. -/
theorem seqCpSame_spec (lo hi : ℤ) {head : ℕ} (h : StreamOk kp t g c head) (hsrc : src < llamaMaxSeq)
    (hdst : dst < kp.seqToStream.length) (hstream : kp.streamOf dst = t) :
    let r := loopRange c.size (seqCpSameStep src dst lo hi) c
    (∃ g', StreamOk kp t g' r.value head) ∧
      (CopyFresh src dst lo hi c → r.asserts = true ∧ StreamOk kp t g r.value head) ∧
      ∀ j < kp.kvSize, r.value.cell j = seqCpAt src dst lo hi (c.cell j) := by
  intro r
  have hdst' : dst < llamaMaxSeq := lt_of_lt_of_le hdst kp.seqToStream_length_le
  have hcell : ∀ j < kp.kvSize, r.value.cell j = seqCpAt src dst lo hi (c.cell j) := by
    intro j hj
    rw [← h.size] at hj
    exact (cellLoop_cell id seqCpSameStep_cell c.size c j).trans (if_pos hj)
  -- the cells alone settle every part of the invariant but the counts
  have hrest : ∀ {g'}, Sound g' r.value → r.value.size = c.size → StreamOk kp t g' r.value head := by
    intro g' hsound hsize
    refine ⟨hsize.trans h.size, hsound, fun i hi' => ?_, fun i hi' s hs => ?_, h.head_le⟩
    · rw [hcell i hi', seqCpAt]
      split
      · exact fun _ => Finset.insert_ne_empty dst _
      · exact h.owned i hi'
    · rw [hcell i hi', seqCpAt] at hs
      split at hs
      · rcases Finset.mem_insert.mp hs with rfl | hs
        · exact ⟨hdst, hstream⟩
        · exact h.stream i hi' s hs
      · exact h.stream i hi' s hs
  refine ⟨?_, ?_, hcell⟩
  · obtain ⟨⟨g', hg'⟩, hsize⟩ := loopRange_value_rule (f := seqCpSameStep src dst lo hi)
      (fun _ (d : KvCells) => (∃ g', Sound g' d) ∧ d.size = c.size) c.size (s := c)
      ⟨⟨g, h.sound⟩, rfl⟩ (by
        rintro i d hi' ⟨⟨g', hd⟩, hsize⟩
        obtain ⟨g'', hd', -⟩ := @seqCpSameStep_sound d src dst lo hi g' i hd (hsize ▸ hi') hdst'
        exact ⟨⟨g'', hd'⟩, (seqCpSameStep_size d i).trans hsize⟩)
    exact ⟨g', hrest hg' hsize⟩
  · intro hfresh
    obtain ⟨hok, hsound, hsize, -⟩ := loopRange_rule (f := seqCpSameStep src dst lo hi)
      (fun i (d : KvCells) => Sound g d ∧ d.size = c.size ∧ ∀ j, i ≤ j → d.cell j = c.cell j)
      c.size (s := c) ⟨h.sound, rfl, fun _ _ => rfl⟩ (by
        rintro i d hi' ⟨hd, hsize, hsame⟩
        have hno : ¬ ((d.cell i).Hit src lo hi ∧ dst ∈ (d.cell i).seq) := by
          rw [hsame i le_rfl]
          exact fun hcon => hfresh i hi' hcon.1 hcon.2
        obtain ⟨g', hd', hg'⟩ := seqCpSameStep_sound hd (hsize ▸ hi') hdst'
        rw [hg' hno] at hd'
        refine ⟨seqCpSameStep_asserts hd (hsize ▸ hi') hsrc hdst' hno, hd',
          (seqCpSameStep_size d i).trans hsize, fun j hj => ?_⟩
        rw [seqCpSameStep_cell, update_of_ne (by omega)]
        exact hsame j (by omega))
    exact ⟨hok, hrest hsound hsize⟩

/-! ### `seq_cp` across streams -/

def crossCell (dst : ℕ) (x : KvCell) : KvCell := { x with seq := {dst} }

theorem seqCpCross_place {c1 : KvCells} {i : ℕ} (p : ℤ) (hempty : c1.cell i = KvCell.empty) :
    ((c1.posSet i p).value.seqAdd i dst).value
      = { c1 with
          used := insert i c1.used
          cell := Function.update c1.cell i ⟨p, ⟨0, 0⟩, 0, {dst}⟩
          seqPos := Function.update c1.seqPos dst ((c1.seqPos dst).inc p) } := by
  simp [posSet, KvCells.seqAdd, setCell, seqPosInc, pos, seq, hempty, KvCell.empty]

theorem seqCpReshift_facts (c1 : KvCells) {i : ℕ} {d p : ℤ} {e : KvCellExt} (hdst : dst < llamaMaxSeq)
    (hcell : c1.cell i = ⟨p, e, 0, {dst}⟩) (hnn : 0 ≤ p + d) :
    let c' := (seqCpReshift c1 i d).value
    c'.cell = Function.update c1.cell i ⟨p + d, e, d, {dst}⟩ ∧ c'.size = c1.size ∧ c'.used = c1.used ∧
      c'.seqPos = if d = 0 then c1.seqPos
        else Function.update c1.seqPos dst (((c1.seqPos dst).dec p).inc (p + d)) := by
  by_cases hd : d = 0
  · subst hd
    simp [seqCpReshift, ← hcell]
  · have hlt : ¬ p + d < 0 := Int.not_lt.mpr hnn
    have hval : (seqCpReshift c1 i d).value = (c1.posAdd i d).value.1 := by
      simp [seqCpReshift, hd]
    rw [hval, if_neg hd]
    refine ⟨?_, posAdd_size c1 i d, ?_, ?_⟩
    · rw [posAdd_cell, hcell, posAddCell, if_neg hlt, zero_add]
    · simp [KvCells.posAdd, seqPosRm, seqPosAdd, setCell, pos, hcell, hlt]
    · funext t
      by_cases ht : t = dst
      · subst ht
        simp [KvCells.posAdd, seqPosRm, seqPosAdd, setCell, pos, seq, hcell, hlt, hdst]
      · simp [KvCells.posAdd, seqPosRm, seqPosAdd, setCell, pos, seq, hcell, hlt, ht]

theorem seqCpCrossStep_copy {c0 c1 : KvCells} {i : ℕ} (hsrc : src ∈ c0.seq i)
    (hempty : c1.cell i = KvCell.empty) (hpos : 0 ≤ c0.pos i) (hdst : dst < llamaMaxSeq) :
    let c' := (seqCpCrossStep src dst c0 c1 i).value
    c'.cell = Function.update c1.cell i (crossCell dst (c0.cell i)) ∧ c'.size = c1.size ∧
      c'.used = insert i c1.used ∧ (∀ t, t ≠ dst → c'.seqPos t = c1.seqPos t) ∧
      ∀ f, (c1.seqPos dst).Tracks f →
        (c'.seqPos dst).Tracks (fun p => f p + (crossCell dst (c0.cell i)).ind dst p) := by
  have hmem : src ∈ (c0.cell i).seq := hsrc
  have hsum : c0.pos i - c0.shift i + c0.shift i = c0.pos i := by omega
  have hval : (seqCpCrossStep src dst c0 c1 i).value
      = ((seqCpReshift ((c1.posSet i (c0.pos i - c0.shift i)).value.seqAdd i dst).value i
          (c0.shift i)).value.extSet i (c0.ext i)).value := by
    simp [seqCpCrossStep, seqHas, seq, hmem, seqCpOrigin_value, getShift, extGet]
  obtain ⟨hcell, hsize, hused, hseqPos⟩ := seqCpReshift_facts
    ((c1.posSet i (c0.pos i - c0.shift i)).value.seqAdd i dst).value (i := i)
    (d := c0.shift i) (p := c0.pos i - c0.shift i) (e := ⟨0, 0⟩) hdst
    (by rw [seqCpCross_place _ hempty]; simp) (by rw [hsum]; exact hpos)
  rw [hsum] at hcell hseqPos
  rw [seqCpCross_place _ hempty] at hcell hsize hused hseqPos hval
  rw [hval]
  refine ⟨?_, hsize, hused, fun t ht => ?_, fun f hf => ?_⟩
  · rw [extSet_cell, hcell]
    simp only [Function.update_self, Function.update_idem]
    rfl
  · show (seqCpReshift _ i (c0.shift i)).value.seqPos t = _
    rw [hseqPos]
    split <;> simp [ht]
  · show ((seqCpReshift _ i (c0.shift i)).value.seqPos dst).Tracks _
    have hm : dst ∈ (crossCell dst (c0.cell i)).seq := Finset.mem_singleton_self dst
    rw [hseqPos]
    split
    · next h0 =>
      simp only [update_self, h0, sub_zero]
      exact tracks_inc_ind (x := crossCell dst (c0.cell i)) hf hm
    · simp only [update_self]
      exact tracks_inc_ind (x := crossCell dst (c0.cell i)) (hf.inc_dec _) hm

theorem seqCpCrossStep_skip {c0 c1 : KvCells} {i : ℕ} (hsrc : src ∉ c0.seq i) :
    (seqCpCrossStep src dst c0 c1 i).value = c1 := by
  simp [seqCpCrossStep, seqHas, hsrc]

/-- The position that `seq_cp` rebuilds for each cell of the source is a position. -/
def OriginsSound (src : ℕ) (c0 : KvCells) : Prop :=
  ∀ i < c0.size, src ∈ c0.seq i → 0 ≤ c0.pos i - c0.shift i

theorem seqCpCrossStep_asserts {c0 c1 : KvCells} {i : ℕ} (h0 : Sound g c0) (h1 : Counted 0 c1)
    (hi' : i < c0.size) (hsize : c1.size = c0.size) (hsrc : src < llamaMaxSeq) (hdst : dst < llamaMaxSeq)
    (hempty : c1.cell i = KvCell.empty) (horig : src ∈ c0.seq i → 0 ≤ c0.pos i - c0.shift i) :
    (seqCpCrossStep src dst c0 c1 i).asserts = true := by
  by_cases hm : src ∈ c0.seq i
  · have hp : c0.pos i ≠ -1 := h0.seq_used i hi' (Finset.ne_empty_of_mem hm)
    have hnn := horig hm
    have hi1 : i < c1.size := hsize ▸ hi'
    have hset := (posSet_asserts c1 i (c0.pos i - c0.shift i)).mpr
      ⟨hi1, by simp [pos, hempty, KvCell.empty], by simp [seq, hempty, KvCell.empty]⟩
    have hc1 := posSet_counted h1 hi1 (p := c0.pos i - c0.shift i) (by omega)
      (by simp [seq, hempty, KvCell.empty])
    have hp1 : (c1.posSet i (c0.pos i - c0.shift i)).value.pos i ≠ -1 := by
      rw [pos, posSet_cell, update_self]
      show c0.pos i - c0.shift i ≠ -1
      omega
    have hfresh : dst ∉ (c1.posSet i (c0.pos i - c0.shift i)).value.seq i := by
      rw [seq, posSet_cell, update_self, hempty]
      exact Finset.notMem_empty dst
    have hadd := (seqAdd_asserts (c1.posSet i (c0.pos i - c0.shift i)).value i dst).mpr
      ⟨hi1, hdst, hp1, hfresh⟩
    have hc2 := seqAdd_counted hc1 hi1 hdst hp1 hfresh
    have hp2 : ((c1.posSet i (c0.pos i - c0.shift i)).value.seqAdd i dst).value.pos i ≠ -1 := by
      rw [pos, seqAdd_cell, update_self]
      exact hp1
    have hre := (posAdd_asserts hc2 (c0.shift i)).mpr ⟨hi1, hp2⟩
    have hre' : (seqCpReshift ((c1.posSet i (c0.pos i - c0.shift i)).value.seqAdd i dst).value i
        (c0.shift i)).asserts = true := by
      by_cases hd : c0.shift i = 0 <;> simp [seqCpReshift, hd, hre]
    have hsz : (seqCpReshift ((c1.posSet i (c0.pos i - c0.shift i)).value.seqAdd i dst).value i
        (c0.shift i)).value.size = c1.size := by
      by_cases hd : c0.shift i = 0 <;> simp [seqCpReshift, hd]
    have horigin : (seqCpOrigin c0 i).asserts = true := by
      by_cases hd : c0.shift i = 0
      · simp [seqCpOrigin, posGet, getShift, hi', hp, hd]
      · simp [seqCpOrigin, posGet, getShift, hi', hp, hd, Int.sub_nonneg.mp hnn]
    simp [seqCpCrossStep, seqHas, hm, hi', hsrc, seqCpOrigin_value, horigin, getShift, extGet, hp, hset,
      hadd, hre', extSet, hsz, hi1]
  · simp [seqCpCrossStep, seqHas, hm, hi', hsrc]

/-- **A copy across streams** leaves the other stream with a copy of each cell of the source, and the
invariant without any surplus; the assertions hold when the rebuilt positions are sound. -/
theorem seqCpCross_spec {t' : ℕ} {c0 c1 : KvCells} {head : ℕ} (h0 : StreamOk kp t' g c0 head)
    (hsize : c1.size = kp.kvSize) (hsrc : src < llamaMaxSeq) (hdst : dst < kp.seqToStream.length)
    (hstream : kp.streamOf dst = t) :
    let r := loopRange c0.size (seqCpCrossStep src dst c0) c1.reset
    StreamOk kp t 0 r.value head ∧ (OriginsSound src c0 → r.asserts = true) ∧
      ∀ j < kp.kvSize, r.value.cell j = if src ∈ c0.seq j then crossCell dst (c0.cell j) else KvCell.empty := by
  have hdst' : dst < llamaMaxSeq := lt_of_lt_of_le hdst kp.seqToStream_length_le
  -- before iteration `i` the cells from `i` on are still empty
  have hstep : ∀ i d, i < c0.size → (Sound 0 d ∧ d.size = kp.kvSize ∧ ∀ j, d.cell j =
      if j < i ∧ src ∈ c0.seq j then crossCell dst (c0.cell j) else KvCell.empty) →
      let d' := (seqCpCrossStep src dst c0 d i).value
      Sound 0 d' ∧ d'.size = kp.kvSize ∧ ∀ j, d'.cell j =
        if j < i + 1 ∧ src ∈ c0.seq j then crossCell dst (c0.cell j) else KvCell.empty := by
    rintro i d hi' ⟨hd, hsz, hcell⟩
    have hempty : d.cell i = KvCell.empty := by simp [hcell i]
    by_cases hm : src ∈ c0.seq i
    · have hp : c0.pos i ≠ -1 := h0.sound.seq_used i hi' (Finset.ne_empty_of_mem hm)
      have hnn := h0.sound.pos_nonneg hi' hp
      obtain ⟨hcell', hsz', hused, hother, htr⟩ := seqCpCrossStep_copy hm hempty hnn hdst'
      have hid : i < d.size := by
        rw [hsz, ← h0.size]
        exact hi'
      have hcount : Counted 0 (seqCpCrossStep src dst c0 d i).value := by
        refine hd.toCounted.of_update hid hsz' hcell' ?_ (fun _ => hp) (by simpa [crossCell]) ?_
        · rw [hused]
          exact used_insert (x := crossCell dst (c0.cell i)) hp
        · intro s hs
          have hrest : ∀ q, d.count s q + (0 : ℕ → ℤ → ℕ) s q = restCount 0 d i s q := fun q => by
            rw [restCount_eq hid s q, hempty, ind_of_seq_empty rfl, Nat.add_zero]
          by_cases hsd : s = dst
          · subst hsd
            exact (htr _ (hd.tracks s hs)).congr fun q => by rw [hrest q]
          · rw [hother s hsd]
            refine (hd.tracks s hs).congr fun q => ?_
            rw [KvCell.ind_of_notMem (by simpa [crossCell] using hsd), Nat.add_zero]
            exact hrest q
      refine ⟨hd.of_update hcount hsz' hcell' fun _ => Or.inr hnn, hsz'.trans hsz, fun j => ?_⟩
      rw [hcell']
      by_cases hj : j = i
      · subst hj
        simp [hm]
      · rw [Function.update_of_ne hj, hcell j]
        have : j < i ↔ j < i + 1 := by omega
        simp only [this]
    · dsimp only
      rw [seqCpCrossStep_skip hm]
      refine ⟨hd, hsz, fun j => ?_⟩
      rw [hcell j]
      by_cases hj : j = i
      · subst hj
        simp [hm]
      · have : j < i ↔ j < i + 1 := by omega
        simp only [this]
  have hinit : Sound 0 c1.reset ∧ c1.reset.size = kp.kvSize ∧ ∀ j, c1.reset.cell j =
      if j < 0 ∧ src ∈ c0.seq j then crossCell dst (c0.cell j) else KvCell.empty :=
    ⟨reset_sound c1, hsize, fun j => by simp [KvCells.reset]⟩
  obtain ⟨hsound, hsz, hcell⟩ := loopRange_value_rule (f := seqCpCrossStep src dst c0)
    (fun i (d : KvCells) => Sound 0 d ∧ d.size = kp.kvSize ∧ ∀ j, d.cell j =
      if j < i ∧ src ∈ c0.seq j then crossCell dst (c0.cell j) else KvCell.empty)
    c0.size hinit fun i d hi' hd => hstep i d hi' hd
  refine ⟨⟨hsz, hsound, fun i _ => ?_, fun i _ s hs => ?_, h0.head_le⟩, fun horig => ?_, fun j hj => ?_⟩
  · rw [hcell i]
    split
    · exact fun _ => Finset.singleton_ne_empty dst
    · exact fun hne => absurd rfl hne
  · rw [hcell i] at hs
    split at hs
    · rw [Finset.mem_singleton.mp hs]
      exact ⟨hdst, hstream⟩
    · simp [KvCell.empty] at hs
  · refine (loopRange_rule (f := seqCpCrossStep src dst c0)
      (fun i (d : KvCells) => Sound 0 d ∧ d.size = kp.kvSize ∧ ∀ j, d.cell j =
        if j < i ∧ src ∈ c0.seq j then crossCell dst (c0.cell j) else KvCell.empty)
      c0.size hinit fun i d hi' hd => ⟨?_, hstep i d hi' hd⟩).1
    exact seqCpCrossStep_asserts h0.sound hd.1.toCounted hi' (hd.2.1.trans h0.size.symm) hsrc hdst'
      (by simp [hd.2.2 i]) (horig i hi')
  · have hj' : j < c0.size := h0.size.symm ▸ hj
    rw [hcell j]
    simp only [hj', true_and]

/-! ### `seq_cp` -/

/-- When a copy meets the assertions of the cells: inside one stream no cell that is to be copied holds
the destination yet, and across streams the rebuilt positions are sound. -/
def CopySound (kp : KvParams) (st : KvCache) (src dst : ℕ) (p0 p1 : ℤ) : Prop :=
  if kp.streamOf src = kp.streamOf dst then
    src ≠ dst → CopyFresh src dst (rangeLo p0) (rangeHi p1) (st.vCells (kp.streamOf src))
  else OriginsSound src (st.vCells (kp.streamOf src))

theorem update_zero (t : ℕ) : Function.update (0 : ℕ → ℕ → ℤ → ℕ) t 0 = 0 :=
  Function.update_eq_self t 0

theorem seqCp_ok (h : Ok kp G st) {src dst : ℕ} (p0 p1 : ℤ)
    (hc : (st.seqCp kp src dst p0 p1).checks = true) :
    (∃ G', Ok kp G' (st.seqCp kp src dst p0 p1).value) ∧
      (G = 0 → CopySound kp st src dst p0 p1 →
        (st.seqCp kp src dst p0 p1).asserts = true ∧ Ok kp 0 (st.seqCp kp src dst p0 p1).value) := by
  simp only [seqCp, bind_checks, check_checks, Bool.and_eq_true, decide_eq_true_eq] at hc
  obtain ⟨⟨-, hsrc⟩, ⟨-, hdst⟩, -⟩ := hc
  have hsrc' : src < llamaMaxSeq := lt_of_lt_of_le (by exact_mod_cast hsrc) kp.seqToStream_length_le
  have hdst' : dst < kp.seqToStream.length := by exact_mod_cast hdst
  have ht := kp.streamOf_lt src
  by_cases hsame : kp.streamOf src = kp.streamOf dst
  · by_cases heq : src = dst
    · subst heq
      have hval : (st.seqCp kp src src p0 p1).value = st := by simp [seqCp]
      rw [hval]
      refine ⟨⟨G, h⟩, fun hG _ => ⟨by simp [seqCp], hG ▸ h⟩⟩
    · obtain ⟨⟨g', hweak⟩, hstrong, -⟩ := seqCpSame_spec (rangeLo p0) (rangeHi p1) (h _ ht)
        hsrc' hdst' hsame.symm
      have hval : (st.seqCp kp src dst p0 p1).value
          = st.setStream (kp.streamOf src) (loopRange (st.vCells (kp.streamOf src)).size
              (seqCpSameStep src dst (rangeLo p0) (rangeHi p1)) (st.vCells (kp.streamOf src))).value
              (st.vHeads (kp.streamOf src)) := by
        simp [seqCp, ← hsame, heq]
      rw [hval]
      refine ⟨⟨_, h.setStream hweak⟩, fun hG hcopy => ?_⟩
      rw [CopySound, if_pos hsame] at hcopy
      obtain ⟨hok, hkeep⟩ := hstrong (hcopy heq)
      subst hG
      refine ⟨by simpa [seqCp, ← hsame, heq] using hok, ?_⟩
      have hset := h.setStream hkeep
      rwa [Function.update_eq_self] at hset
  · obtain ⟨hkeep, hstrong, -⟩ := seqCpCross_spec (h _ ht) (h _ (kp.streamOf_lt dst)).size hsrc' hdst' rfl
    have hval : Ok kp (Function.update G (kp.streamOf dst) 0) (st.seqCp kp src dst p0 p1).value := by
      have hset := h.setStream hkeep
      simp only [seqCp, bind_value, Int.toNat_natCast, if_neg hsame, pure_value]
      exact hset
    refine ⟨⟨_, hval⟩, fun hG hcopy => ?_⟩
    rw [CopySound, if_neg hsame] at hcopy
    subst hG
    rw [update_zero] at hval
    exact ⟨by simpa [seqCp, hsame] using hstrong hcopy, hval⟩

end KvCache
