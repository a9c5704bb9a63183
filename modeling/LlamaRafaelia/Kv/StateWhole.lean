import LlamaRafaelia.Kv.Runs
import LlamaRafaelia.Kv.StateData

/-!
# Saving and restoring the whole cache

Every stream that is not empty is read into a cache that was cleared completely.  After `state_read` the cache holds
the last such stream, and nothing else.
-/

namespace KvCache

open List Checked KvCells Fallible

variable {kp : KvParams} {st src tgt : KvCache} {G : ℕ → ℕ → ℤ → ℕ}

/-! ### Entries -/

/-- What the cache stores in one cell: position, K rows, V rows and owners. -/
def entry (kp : KvParams) (st : KvCache) (t i : ℕ) :
    ℤ × List (List UInt8) × List (List UInt8) × Finset ℕ :=
  ((st.vCells t).pos i, kp.layers.zipIdx.map fun x => kRow x st t i,
    kp.layers.zipIdx.map fun x => vRow kp x st t i, (st.vCells t).seq i)

/-- The cells of stream `t` that hold sequence `s`. -/
def cellsOf (kp : KvParams) (st : KvCache) (t s : ℕ) : List ℕ :=
  (range kp.kvSize).filter fun i => s ∈ (st.vCells t).seq i

/-- The entries of sequence `s` in stream `t`. -/
def entries (kp : KvParams) (st : KvCache) (t s : ℕ) :
    Multiset (ℤ × List (List UInt8) × List (List UInt8) × Finset ℕ) :=
  Multiset.ofList ((cellsOf kp st t s).map (entry kp st t))

/-- Stream `t` has a cell in use. -/
def InUse (kp : KvParams) (st : KvCache) (t : ℕ) : Prop := ∃ i < kp.kvSize, (st.vCells t).pos i ≠ -1

instance (kp : KvParams) (st : KvCache) (t : ℕ) : Decidable (InUse kp st t) :=
  inferInstanceAs (Decidable (∃ i < kp.kvSize, (st.vCells t).pos i ≠ -1))

def PosFits (kp : KvParams) (st : KvCache) : Prop :=
  ∀ t < kp.nStream, ∀ i < kp.kvSize, (st.vCells t).pos i ≤ llamaPosMax

theorem entries_eq_zero {t s : ℕ} (h : ∀ i < kp.kvSize, s ∉ (st.vCells t).seq i) : entries kp st t s = 0 := by
  have hnil : cellsOf kp st t s = [] := by
    refine filter_eq_nil_iff.mpr fun i hi => ?_
    simpa using h i (mem_range.mp hi)
  rw [entries, hnil]
  rfl

theorem entries_ne_zero {t s i : ℕ} (hi : i < kp.kvSize) (hs : s ∈ (st.vCells t).seq i) :
    entries kp st t s ≠ 0 := by
  have hmem : i ∈ cellsOf kp st t s := mem_filter.mpr ⟨mem_range.mpr hi, by simpa using hs⟩
  rw [entries, Ne, Multiset.coe_eq_zero, map_eq_nil_iff]
  exact ne_nil_of_mem hmem

theorem writtenAll_eq_nil {t : ℕ} (hsize : (st.vCells t).size = kp.kvSize) :
    writtenCells (st.vCells t) (-1) = [] ↔ ¬ InUse kp st t := by
  simp only [writtenCells, filter_eq_nil_iff, mem_range, hsize, decide_eq_true_eq, Written, InUse,
    true_or, and_true, not_exists, not_and]

/-! ### One stream -/

/-- The records of the cells `l`. -/
def records (kp : KvParams) (c : KvCells) (l : List ℕ) : List (ℤ × List ℕ) :=
  l.map fun i => (c.pos i, keptSeqIds kp c (-1) i)

/-- The cache holds the cells of stream `L` of `src`, packed at its start, and nothing else. -/
structure Restored (kp : KvParams) (src : KvCache) (L : ℕ) (st : KvCache) : Prop where
  size : ∀ t < kp.nStream, (st.vCells t).size = kp.kvSize
  off : ∀ t < kp.nStream, t ≠ L → ∀ i, (st.vCells t).cell i = KvCell.empty
  cells : ∀ k (hk : k < (writtenCells (src.vCells L) (-1)).length),
    (st.vCells L).pos k = (src.vCells L).pos ((writtenCells (src.vCells L) (-1)).get ⟨k, hk⟩) ∧
    (st.vCells L).seq k
      = (keptSeqIds kp (src.vCells L) (-1) ((writtenCells (src.vCells L) (-1)).get ⟨k, hk⟩)).toFinset
  beyond : ∀ i, (writtenCells (src.vCells L) (-1)).length ≤ i → (st.vCells L).cell i = KvCell.empty
  rows : ∀ x ∈ kp.layers.zipIdx, ∀ k (hk : k < (writtenCells (src.vCells L) (-1)).length),
    kRow x st L k = kRow x src L ((writtenCells (src.vCells L) (-1)).get ⟨k, hk⟩) ∧
    vRow kp x st L k = vRow kp x src L ((writtenCells (src.vCells L) (-1)).get ⟨k, hk⟩)

theorem keptSeqIds_length_lt (kp : KvParams) (c : KvCells) (seqId : ℤ) (i : ℕ) :
    (keptSeqIds kp c seqId i).length < 2 ^ 32 := by
  have h1 : (keptSeqIds kp c seqId i).length ≤ kp.nSeqMax :=
    (length_filter_le _ _).trans (by rw [length_range])
  have h2 := kp.nSeqMax_le
  have h3 : llamaMaxSeq = 256 := rfl
  omega

theorem mem_keptSeqIds {c : KvCells} {i s : ℕ} :
    s ∈ keptSeqIds kp c (-1) i ↔ s < kp.nSeqMax ∧ s ∈ c.seq i := by
  simp [keptSeqIds]

theorem records_fit (hsrc : Ok kp G src) (hpos : PosFits kp src) {L : ℕ} (hL : L < kp.nStream) {l : List ℕ}
    (hl : ∀ i ∈ l, i < kp.kvSize) :
    (∀ x ∈ records kp (src.vCells L) l, -2147483648 ≤ x.1 ∧ x.1 ≤ llamaPosMax) ∧
      ∀ x ∈ records kp (src.vCells L) l, x.2.length < 2 ^ 32 ∧ ∀ s ∈ x.2, s < kp.nSeqMax := by
  constructor
  · intro x hx
    obtain ⟨i, hi, rfl⟩ := mem_map.mp hx
    have hlt := hl i hi
    have hok := (hsrc L hL).sound.pos_ok i ((hsrc L hL).size ▸ hlt)
    refine ⟨?_, hpos L hL i hlt⟩
    show -2147483648 ≤ (src.vCells L).pos i
    omega
  · intro x hx
    obtain ⟨i, -, rfl⟩ := mem_map.mp hx
    exact ⟨keptSeqIds_length_lt .., fun s hs => ((mem_keptSeqIds).mp hs).1⟩

/-- The cache after `state_read_meta` has read the records `l` into stream `t`. -/
def metaRead (kp : KvParams) (t : ℕ) (l : List (ℤ × List ℕ)) (st : KvCache) : KvCache :=
  ((st.clear kp true).setStream t (putCells ((st.clear kp true).vCells t) 0 l)
    ((st.clear kp true).vHeads t)).setHead t 0

theorem readMetaAll_run {t : ℕ} (hsize : (st.vCells t).size = kp.kvSize) {l : List (ℤ × List ℕ)}
    (hlen : l.length ≤ kp.kvSize) (hpos : ∀ x ∈ l, -2147483648 ≤ x.1 ∧ x.1 ≤ llamaPosMax)
    (hids : ∀ x ∈ l, x.2.length < 2 ^ 32 ∧ ∀ s ∈ x.2, s < kp.nSeqMax) (rest : List UInt8) :
    (readMetaAll kp t l.length).run ⟨st, (l.flatMap fun x => cellBytes x.1 x.2) ++ rest⟩
      = (.ok true, ⟨metaRead kp t l st, rest⟩) := by
  have hle : ¬ (st.vCells t).size < l.length := by omega
  rw [readMetaAll, run_bind_ok (run_get _)]
  simp only [hle, if_false]
  have hcells := readCells_run (st.clear kp true) t hpos hids 0 rest
  rw [← range_eq_range'] at hcells
  rw [run_bind_ok (onCache_run _ _)]
  simp only [pure_value]
  rw [run_bind_ok hcells]
  simp only [if_true]
  rw [run_bind_ok (onCache_run _ _), run_pure]
  rfl

theorem metaRead_spec {t : ℕ} (ht : t < kp.nStream) (hsize : ∀ t < kp.nStream, (st.vCells t).size = kp.kvSize)
    (l : List (ℤ × List ℕ)) :
    (metaRead kp t l st).vHeads t = 0 ∧
      (∀ t' < kp.nStream, ((metaRead kp t l st).vCells t').size = kp.kvSize) ∧
      (∀ t' < kp.nStream, t' ≠ t → ∀ i, ((metaRead kp t l st).vCells t').cell i = KvCell.empty) ∧
      (∀ k (hk : k < l.length), ((metaRead kp t l st).vCells t).cell k
        = ⟨(l.get ⟨k, hk⟩).1, KvCell.empty.ext, 0, (l.get ⟨k, hk⟩).2.toFinset⟩) ∧
      ∀ i, l.length ≤ i → ((metaRead kp t l st).vCells t).cell i = KvCell.empty := by
  have hclear : ∀ t' < kp.nStream, (st.clear kp true).vCells t' = (st.vCells t').reset := fun t' ht' => by
    simp only [clear, ht', if_true]
  have hself : (metaRead kp t l st).vCells t = putCells ((st.clear kp true).vCells t) 0 l :=
    Function.update_self ..
  have hother : ∀ t', t' ≠ t → (metaRead kp t l st).vCells t' = (st.clear kp true).vCells t' := fun t' hne =>
    Function.update_of_ne hne ..
  obtain ⟨hsame, hin, hout⟩ := putCells_cell l 0 ((st.clear kp true).vCells t)
    (fun i _ => by rw [hclear t ht]; rfl)
  refine ⟨Function.update_self .., fun t' ht' => ?_, fun t' ht' hne i => ?_, fun k hk => ?_, fun i hi => ?_⟩
  · by_cases hne : t' = t
    · rw [hne, hself, hsame, hclear t ht]
      exact hsize t ht
    · rw [hother t' hne, hclear t' ht']
      exact hsize t' ht'
  · rw [hother t' hne, hclear t' ht']
    rfl
  · have hcell := hin k hk
    rw [Nat.zero_add] at hcell
    rw [hself, hcell]
  · rw [hself, hout i (Or.inr (by omega)), hclear t ht]
    rfl

theorem written_lt {c : KvCells} {seqId : ℤ} {i : ℕ} (h : i ∈ writtenCells c seqId) :
    i < c.size ∧ Written c seqId i := by
  rw [writtenCells, mem_filter, mem_range, decide_eq_true_eq] at h
  exact h

theorem written_length_le (c : KvCells) (seqId : ℤ) : (writtenCells c seqId).length ≤ c.size :=
  (length_filter_le _ _).trans (by rw [length_range])

/-- **One stream that is not empty**: it is restored, and the others are cleared. -/
theorem readStreamAll_run (hfit : kp.OffsetsFit) (hsrc : Ok kp G src) (hpos : PosFits kp src)
    (hsize : ∀ t < kp.nStream, (st.vCells t).size = kp.kvSize) {L : ℕ} (hL : L < kp.nStream)
    (hne : writtenCells (src.vCells L) (-1) ≠ []) (rest : List UInt8) :
    ∃ st', (readStream kp (-1) L).run
        ⟨st, blockBytes kp src (-1) L (writtenCells (src.vCells L) (-1)) ++ rest⟩ = (.ok (), ⟨st', rest⟩) ∧
      Restored kp src L st' := by
  have hlt : ∀ i ∈ writtenCells (src.vCells L) (-1), i < kp.kvSize := fun i hi =>
    (hsrc L hL).size ▸ (written_lt hi).1
  have hlen : (writtenCells (src.vCells L) (-1)).length ≤ kp.kvSize :=
    (hsrc L hL).size ▸ written_length_le (src.vCells L) (-1)
  obtain ⟨hrecpos, hrecids⟩ := records_fit hsrc hpos hL hlt
  generalize hl : writtenCells (src.vCells L) (-1) = l at hne hlen hrecpos hrecids
  have hreclen : (records kp (src.vCells L) l).length = l.length := length_map ..
  have hflat : (l.flatMap fun i => cellBytes ((src.vCells L).pos i) (keptSeqIds kp (src.vCells L) (-1) i))
      = (records kp (src.vCells L) l).flatMap fun x => cellBytes x.1 x.2 := by
    rw [records, flatMap_map]
  have hmeta := readMetaAll_run (hsize L hL) (hreclen.trans_le hlen) hrecpos hrecids (dataBytes kp src L l ++ rest)
  obtain ⟨hhead, hsizes, hoff, hcells, hbeyond⟩ := metaRead_spec hL hsize (records kp (src.vCells L) l)
  obtain ⟨st2, hdata, hsame, hput⟩ :=
    stateReadData_run src L hfit hne hhead (hsizes L hL) (by rwa [Nat.zero_add]) rest
  refine ⟨st2, ?_, ⟨fun t ht => ?_, fun t ht hne i => ?_, fun k hk => ?_, fun i hi => ?_, fun x hx k hk => ?_⟩⟩
  · have hcount : l.length < 2 ^ 32 := lt_of_le_of_lt hlen kp.kvSize_lt
    have hne0 : ¬ l.length = 0 := mt length_eq_zero_iff.mp hne
    have hblock : (readBlock kp L l.length (-1)).run ⟨st,
        (l.flatMap fun i => cellBytes ((src.vCells L).pos i) (keptSeqIds kp (src.vCells L) (-1) i)) ++
          (dataBytes kp src L l ++ rest)⟩ = (.ok true, ⟨st2, rest⟩) := by
      rw [hreclen] at hmeta
      rw [readBlock, stateReadMeta, if_neg (by decide), hflat, run_bind_ok hmeta]
      exact hdata
    rw [blockBytes, if_neg hne, append_assoc, append_assoc, readStream,
      run_bind_ok (readU32_u32 hcount _)]
    simp only [hne0, if_false, if_true]
    rw [run_bind_ok hblock]
    rfl
  · rw [hsame.vCells]
    exact hsizes t ht
  · rw [hsame.vCells]
    exact hoff t ht hne i
  · subst hl
    have hcell := hcells k (hreclen ▸ hk)
    rw [pos, seq, hsame.vCells, hcell]
    simp [records]
  · subst hl
    rw [hsame.vCells]
    exact hbeyond i (hreclen ▸ hi)
  · subst hl
    have hk1 := (hput x hx).1.new k hk
    have hk2 := (hput x hx).2.new k hk
    rw [Nat.zero_add] at hk1 hk2
    exact ⟨hk1, hk2⟩

/-! ### All streams -/

/-- What was read of the streams before `n`: nothing, or the last of them that is not empty. -/
def ReadTo (kp : KvParams) (src tgt : KvCache) (n : ℕ) (st : KvCache) : Prop :=
  ((∀ t < n, ¬ InUse kp src t) ∧ st = tgt) ∨
    ∃ L < n, InUse kp src L ∧ (∀ t < n, L < t → ¬ InUse kp src t) ∧ Restored kp src L st

theorem ReadTo.size {n : ℕ} (htgt : ∀ t < kp.nStream, (tgt.vCells t).size = kp.kvSize)
    (h : ReadTo kp src tgt n st) : ∀ t < kp.nStream, (st.vCells t).size = kp.kvSize := by
  rcases h with ⟨-, rfl⟩ | ⟨L, -, -, -, hres⟩
  · exact htgt
  · exact hres.size

theorem readStreamAll_step (hfit : kp.OffsetsFit) (hsrc : Ok kp G src) (hpos : PosFits kp src)
    (htgt : ∀ t < kp.nStream, (tgt.vCells t).size = kp.kvSize) {n : ℕ} (hn : n < kp.nStream)
    (h : ReadTo kp src tgt n st) (rest : List UInt8) :
    ∃ st', (readStream kp (-1) n).run
        ⟨st, blockBytes kp src (-1) n (writtenCells (src.vCells n) (-1)) ++ rest⟩ = (.ok (), ⟨st', rest⟩) ∧
      ReadTo kp src tgt (n + 1) st' := by
  by_cases huse : InUse kp src n
  · have hne : writtenCells (src.vCells n) (-1) ≠ [] := fun he =>
      (writtenAll_eq_nil (hsrc n hn).size).mp he huse
    obtain ⟨st', hrun, hres⟩ := readStreamAll_run hfit hsrc hpos (h.size htgt) hn hne rest
    exact ⟨st', hrun, Or.inr ⟨n, Nat.lt_succ_self n, huse, fun t ht hlt => by omega, hres⟩⟩
  · -- an empty stream is skipped
    have hnil := (writtenAll_eq_nil (hsrc n hn).size).mpr huse
    refine ⟨st, ?_, ?_⟩
    · rw [hnil, blockBytes, if_pos rfl, readStream, run_bind_ok (readU32_u32 (by norm_num) _)]
      rfl
    · rcases h with ⟨hall, rfl⟩ | ⟨L, hL, huseL, hafter, hres⟩
      · refine Or.inl ⟨fun t ht => ?_, rfl⟩
        rcases Nat.lt_succ_iff_lt_or_eq.mp ht with hlt | rfl
        · exact hall t hlt
        · exact huse
      · refine Or.inr ⟨L, by omega, huseL, fun t ht hlt => ?_, hres⟩
        rcases Nat.lt_succ_iff_lt_or_eq.mp ht with hlt' | rfl
        · exact hafter t hlt' hlt
        · exact huse

theorem nStream_lt (kp : KvParams) : kp.nStream < 2 ^ 32 := by
  have h1 := kp.nSeqMax_le
  have h2 : llamaMaxSeq = 256 := rfl
  rw [KvParams.nStream]
  split <;> omega

/-- **Reading the whole cache back** succeeds, and leaves the last stream that was not empty. -/
theorem stateReadAll_run (hfit : kp.OffsetsFit) (hsrc : Ok kp G src) (hpos : PosFits kp src)
    (htgt : ∀ t < kp.nStream, (tgt.vCells t).size = kp.kvSize) (rest : List UInt8) :
    ∃ st', (stateRead kp (-1)).run ⟨tgt, (src.stateWrite kp (-1)).value ++ rest⟩ = (.ok (), ⟨st', rest⟩) ∧
      ReadTo kp src tgt kp.nStream st' := by
  obtain ⟨⟨st', bytes⟩, hrun, hbytes, hend⟩ := forM_rule (f := readStream kp (-1))
    (fun done s => s.bytes = ((range' done.length (kp.nStream - done.length)).flatMap fun t =>
        blockBytes kp src (-1) t (writtenCells (src.vCells t) (-1))) ++ rest ∧
      ReadTo kp src tgt done.length s.cache)
    (range kp.nStream)
    (s := ⟨tgt, ((range kp.nStream).flatMap fun t =>
      blockBytes kp src (-1) t (writtenCells (src.vCells t) (-1))) ++ rest⟩)
    ⟨by simp [range_eq_range'], Or.inl ⟨fun t ht => absurd ht (Nat.not_lt_zero t), rfl⟩⟩
    (by
      intro done t more s hsplit hI
      obtain ⟨ht, rfl⟩ := range_split hsplit
      obtain ⟨cache, bytes⟩ := s
      obtain ⟨hb, hto⟩ := hI
      simp only [length_range] at hb hto
      have hnext : kp.nStream - t = kp.nStream - (t + 1) + 1 := by omega
      rw [hnext, range'_succ, flatMap_cons, append_assoc] at hb
      obtain ⟨st', hrun, hto'⟩ := readStreamAll_step hfit hsrc hpos htgt ht hto
        (((range' (t + 1) (kp.nStream - (t + 1))).flatMap fun t =>
          blockBytes kp src (-1) t (writtenCells (src.vCells t) (-1))) ++ rest)
      refine ⟨_, hb ▸ hrun, ?_, ?_⟩
      · simp only [length_append, length_range, length_singleton]
      · simpa only [length_append, length_range, length_singleton] using hto')
  simp only [length_range, Nat.sub_self, range'_zero, flatMap_nil, nil_append] at hbytes hend
  subst hbytes
  refine ⟨st', ?_, hend⟩
  rw [stateWrite_value hfit fun t ht => (hsrc t ht).size, append_assoc, stateRead,
    run_bind_ok (run_lift _ _), run_bind_ok (readU32_u32 (nStream_lt kp) _)]
  simp only [ne_eq, not_true_eq_false, if_false]
  exact hrun

/-! ### When the entries come back -/

theorem filter_map_places {α : Type} {P Q : ℕ → Prop} [DecidablePred P] [DecidablePred Q] {f g : ℕ → α}
    (l : List ℕ) (a m : ℕ) (hm : l.length ≤ m)
    (hin : ∀ k (hk : k < l.length), (P (a + k) ↔ Q (l.get ⟨k, hk⟩)) ∧ f (a + k) = g (l.get ⟨k, hk⟩))
    (hout : ∀ k, l.length ≤ k → ¬ P (a + k)) :
    ((range' a m).filter fun i => P i).map f = (l.filter fun i => Q i).map g := by
  induction l generalizing a m with
  | nil =>
    have hnil : ((range' a m).filter fun i => P i) = [] := by
      refine filter_eq_nil_iff.mpr fun i hi => ?_
      rw [mem_range'_1] at hi
      have := hout (i - a) (Nat.zero_le _)
      rw [show a + (i - a) = i by omega] at this
      simpa using this
    rw [hnil]
    rfl
  | cons x l ih =>
    obtain ⟨m, rfl⟩ : ∃ m', m = m' + 1 := ⟨m - 1, by simp only [length_cons] at hm; omega⟩
    have hrest := ih (a + 1) m (by simpa using hm)
      (fun k hk => by
        have := hin (k + 1) (by simpa using hk)
        rw [show a + 1 + k = a + (k + 1) by omega]
        simpa using this)
      (fun k hk => by
        have := hout (k + 1) (by simpa using hk)
        rwa [show a + 1 + k = a + (k + 1) by omega])
    obtain ⟨hP, hf⟩ := hin 0 (by simp)
    simp only [Nat.add_zero, get_eq_getElem, getElem_cons_zero] at hP hf
    rw [range'_succ, filter_cons, filter_cons]
    by_cases hQ : Q x
    · simp only [hP.mpr hQ, hQ, decide_true, if_true, map_cons, hf, hrest]
    · simp only [mt hP.mp hQ, hQ, decide_false, Bool.false_eq_true, if_false, hrest]

theorem Restored.entries_eq {L : ℕ} (hsrc : Ok kp G src) (hL : L < kp.nStream) (h : Restored kp src L st)
    (howner : ∀ i < kp.kvSize, ∀ s ∈ (src.vCells L).seq i, s < kp.nSeqMax) (s : ℕ) :
    entries kp st L s = entries kp src L s := by
  have hokL := hsrc L hL
  have hlt : ∀ k (hk : k < (writtenCells (src.vCells L) (-1)).length),
      (writtenCells (src.vCells L) (-1)).get ⟨k, hk⟩ < kp.kvSize := fun k hk =>
    hokL.size ▸ (written_lt (get_mem _ _)).1
  have hseq : ∀ k (hk : k < (writtenCells (src.vCells L) (-1)).length), (st.vCells L).seq k
      = (src.vCells L).seq ((writtenCells (src.vCells L) (-1)).get ⟨k, hk⟩) := by
    intro k hk
    rw [(h.cells k hk).2]
    ext q
    rw [mem_toFinset, mem_keptSeqIds]
    exact ⟨fun hq => hq.2, fun hq => ⟨howner _ (hlt k hk) q hq, hq⟩⟩
  have hplaces := filter_map_places (P := fun i => s ∈ (st.vCells L).seq i)
    (Q := fun i => s ∈ (src.vCells L).seq i) (f := entry kp st L) (g := entry kp src L)
    (writtenCells (src.vCells L) (-1)) 0 kp.kvSize (hokL.size ▸ written_length_le _ _)
    (fun k hk => by
      rw [Nat.zero_add, hseq k hk]
      refine ⟨Iff.rfl, ?_⟩
      rw [entry, entry, (h.cells k hk).1, hseq k hk]
      refine Prod.ext rfl (Prod.ext ?_ (Prod.ext ?_ rfl))
      · exact map_congr_left fun x hx => (h.rows x hx k hk).1
      · exact map_congr_left fun x hx => (h.rows x hx k hk).2)
    (fun k hk hs => by
      rw [Nat.zero_add, seq, h.beyond k hk] at hs
      exact Finset.notMem_empty s hs)
  -- a cell that holds a sequence is not empty
  have hwritten : ((writtenCells (src.vCells L) (-1)).filter fun i => s ∈ (src.vCells L).seq i)
      = cellsOf kp src L s := by
    rw [writtenCells, filter_filter, cellsOf, hokL.size]
    refine filter_congr fun i hi => ?_
    have himp : s ∈ (src.vCells L).seq i → (src.vCells L).pos i ≠ -1 := fun hm =>
      hokL.sound.seq_used i (hokL.size ▸ mem_range.mp hi) (Finset.ne_empty_of_mem hm)
    by_cases hm : s ∈ (src.vCells L).seq i
    · simp [hm, Written, himp hm]
    · simp [hm]
  rw [entries, entries, cellsOf, range_eq_range', hplaces, hwritten]

theorem entries_of_not_inUse (hok : Ok kp G st) {t : ℕ} (ht : t < kp.nStream) (h : ¬ InUse kp st t) (s : ℕ) :
    entries kp st t s = 0 := by
  refine entries_eq_zero fun i hi hs => h ⟨i, hi, ?_⟩
  exact (hok t ht).sound.seq_used i ((hok t ht).size ▸ hi) (Finset.ne_empty_of_mem hs)

theorem inUse_entries (hok : Ok kp G st) {t : ℕ} (ht : t < kp.nStream) (h : InUse kp st t) :
    ∃ s < llamaMaxSeq, entries kp st t s ≠ 0 := by
  obtain ⟨i, hi, hp⟩ := h
  obtain ⟨s, hs⟩ := Finset.nonempty_of_ne_empty ((hok t ht).owned i hi hp)
  exact ⟨s, (hok t ht).sound.seq_lt i ((hok t ht).size ▸ hi) s hs, entries_ne_zero hi hs⟩

/-- What the round trip of the whole cache needs: every owner has an id that is written, at most one stream is
in use, and if none is the target is empty as well. -/
structure WholeSaved (kp : KvParams) (src tgt : KvCache) : Prop where
  owners : ∀ t < kp.nStream, ∀ i < kp.kvSize, ∀ s ∈ (src.vCells t).seq i, s < kp.nSeqMax
  single : ∀ t < kp.nStream, ∀ t' < kp.nStream, InUse kp src t → InUse kp src t' → t = t'
  empty : (∀ t < kp.nStream, ¬ InUse kp src t) → ∀ t < kp.nStream, ¬ InUse kp tgt t

theorem Restored.entries_off {L t : ℕ} (h : Restored kp src L st) (ht : t < kp.nStream) (hne : t ≠ L) (s : ℕ) :
    entries kp st t s = 0 := by
  refine entries_eq_zero fun i _ hm => ?_
  rw [seq, h.off t ht hne i] at hm
  exact Finset.notMem_empty s hm

theorem Restored.entries_lt {L s : ℕ} (h : Restored kp src L st) (hent : entries kp st L s ≠ 0) :
    s < kp.nSeqMax := by
  by_contra hge
  refine hent (entries_eq_zero fun k _ hm => ?_)
  by_cases hk : k < (writtenCells (src.vCells L) (-1)).length
  · rw [(h.cells k hk).2, mem_toFinset, mem_keptSeqIds] at hm
    exact hge hm.1
  · rw [seq, h.beyond k (Nat.not_lt.mp hk)] at hm
    exact Finset.notMem_empty s hm

theorem wholeSaved_of_entries {G' : ℕ → ℕ → ℤ → ℕ} (hok : Ok kp G src) (hok' : Ok kp G' tgt)
    (hto : ReadTo kp src tgt kp.nStream st)
    (hsame : ∀ t < kp.nStream, ∀ s < llamaMaxSeq, entries kp st t s = entries kp src t s) :
    WholeSaved kp src tgt := by
  rcases hto with ⟨hnone, rfl⟩ | ⟨L, hL, huseL, -, hres⟩
  · refine ⟨fun t ht i hi s hs => ?_, fun t ht _ _ huse => absurd huse (hnone t ht), fun _ t ht huse => ?_⟩
    · have hp := (hok t ht).sound.seq_used i ((hok t ht).size ▸ hi) (Finset.ne_empty_of_mem hs)
      exact absurd ⟨i, hi, hp⟩ (hnone t ht)
    · obtain ⟨s, hs, hent⟩ := inUse_entries hok' ht huse
      rw [hsame t ht s hs] at hent
      exact hent (entries_of_not_inUse hok ht (hnone t ht) s)
  · -- a stream that was in use and is not the last one has lost its entries
    have hlast : ∀ t < kp.nStream, InUse kp src t → t = L := by
      intro t ht huse
      by_contra hne
      obtain ⟨s, hs, hent⟩ := inUse_entries hok ht huse
      rw [← hsame t ht s hs] at hent
      exact hent (hres.entries_off ht hne s)
    refine ⟨fun t ht i hi s hs => ?_, fun t ht t' ht' huse huse' => ?_, fun hnone => absurd huseL (hnone L hL)⟩
    · have hsize := (hok t ht).size
      have hp := (hok t ht).sound.seq_used i (hsize ▸ hi) (Finset.ne_empty_of_mem hs)
      have hslt := (hok t ht).sound.seq_lt i (hsize ▸ hi) s hs
      have hent := entries_ne_zero hi hs
      rw [← hsame t ht s hslt, hlast t ht ⟨i, hi, hp⟩] at hent
      exact hres.entries_lt hent
    · exact (hlast t ht huse).trans (hlast t' ht' huse').symm

theorem WholeSaved.entries_eq {G' : ℕ → ℕ → ℤ → ℕ} (hw : WholeSaved kp src tgt) (hok : Ok kp G src)
    (hok' : Ok kp G' tgt) (hto : ReadTo kp src tgt kp.nStream st) {t : ℕ} (ht : t < kp.nStream) (s : ℕ) :
    entries kp st t s = entries kp src t s := by
  rcases hto with ⟨hnone, rfl⟩ | ⟨L, hL, huseL, -, hres⟩
  · rw [entries_of_not_inUse hok' ht (hw.empty hnone t ht), entries_of_not_inUse hok ht (hnone t ht)]
  · by_cases htL : t = L
    · rw [htL]
      exact hres.entries_eq hok hL (hw.owners L hL) s
    · have hempty : ¬ InUse kp src t := fun huse => htL (hw.single t ht L hL huse huseL)
      rw [entries_of_not_inUse hok ht hempty]
      exact hres.entries_off ht htL s

/-- **When the whole cache survives the round trip.**  Writing meets its checks and reading it back succeeds;
the entries come back in exactly these cases. -/
theorem stateRead_whole_iff (kp : KvParams) (hfit : kp.OffsetsFit) (src tgt : KvCache) (hsrc : PlacedReach kp src)
    (htgt : PlacedReach kp tgt) (hpos : PosFits kp src) (rest : List UInt8) :
    ((src.stateWrite kp (-1)).checks = true ∧
      ∃ st', (stateRead kp (-1)).run ⟨tgt, (src.stateWrite kp (-1)).value ++ rest⟩ = (.ok (), ⟨st', rest⟩) ∧
        ∀ t < kp.nStream, ∀ s < llamaMaxSeq, entries kp st' t s = entries kp src t s) ↔
    WholeSaved kp src tgt := by
  obtain ⟨G, hok⟩ := reach_ok hsrc
  obtain ⟨G', hok'⟩ := reach_ok htgt
  obtain ⟨st', hrun, hto⟩ := stateReadAll_run hfit hok hpos (fun t ht => (hok' t ht).size) rest
  constructor
  · rintro ⟨-, st'', hrun', hsame⟩
    obtain rfl : st'' = st' := by
      rw [hrun] at hrun'
      exact (congrArg ReadState.cache (congrArg Prod.snd hrun')).symm
    exact wholeSaved_of_entries hok hok' hto hsame
  · intro hw
    exact ⟨stateWrite_checks kp src (-1), st', hrun, fun t ht s _ => hw.entries_eq hok hok' hto ht s⟩

def layeredCache : KvParams where
  unified := true
  kvSize := 2
  nSeqMax := 2
  nSwa := 0
  swaType := .none
  nPosPerEmbd := 1
  vTrans := true
  layers := [⟨1, 2, 1, 2, 1, 2, by decide, by decide, by decide, by decide, by decide, smallCache.kvSize_lt⟩]
  nPosPerEmbd_pos := smallCache.nPosPerEmbd_pos
  nSeqMax_pos := smallCache.nSeqMax_pos
  nSeqMax_le := smallCache.nSeqMax_le
  kvSize_lt := smallCache.kvSize_lt
  layers_lt := by decide

/-- One token, saved and restored into an empty cache. -/
theorem stateRead_whole_iff_token :
    let src := ((KvCache.init layeredCache).step layeredCache (.decode oneToken)).value
    ∃ st', (stateRead layeredCache (-1)).run
        ⟨KvCache.init layeredCache, (src.stateWrite layeredCache (-1)).value ++ []⟩ = (.ok (), ⟨st', []⟩) ∧
      ∀ t < layeredCache.nStream, ∀ s < llamaMaxSeq,
        entries layeredCache st' t s = entries layeredCache src t s := by
  have hfit : layeredCache.OffsetsFit := by
    intro _ l hl
    obtain rfl := mem_singleton.mp hl
    decide
  have hreach := PlacedReach.init.step (.decode oneToken) trivial
    (oneToken_placed layeredCache (KvCache.init layeredCache)) (by decide +kernel)
  have hpos : PosFits layeredCache ((KvCache.init layeredCache).step layeredCache (.decode oneToken)).value := by
    unfold PosFits
    decide +kernel
  exact ((stateRead_whole_iff layeredCache hfit _ _ hreach .init hpos []).mpr
    ⟨by decide +kernel, by decide +kernel, fun _ => by decide +kernel⟩).2

theorem bothIds_length : ([[0], [1]] : List (List ℤ)).length = ([0, 0] : List ℤ).length := rfl

def bothTokens : DecodeArgs := .whole (.text [0, 0] [[0], [1]] bothIds_length) 2

/-- The two streams filled by `bothTokens`. -/
def bothFull : KvCache := ((KvCache.init twoStreams).step twoStreams (.decode bothTokens)).value

theorem bothFull_reach : PlacedReach twoStreams bothFull := by
  refine PlacedReach.init.step (.decode bothTokens) trivial (fun a ha i hi => ?_) (by decide +kernel)
  obtain ⟨-, -, -, rfl⟩ := BatchAllocr.init_ok ha
  have hi' : i < 2 := hi
  show ([[0], [1]] : List (List ℕ)).getD i [] ≠ [] ∧ 0 ≤ ([0, 0] : List ℤ).getD i 0
  revert i
  decide

/-- What `state_read` leaves when both streams were saved. -/
def bothRead : Except StateError Unit × ReadState :=
  (stateRead twoStreams (-1)).run ⟨KvCache.init twoStreams, (bothFull.stateWrite twoStreams (-1)).value⟩

theorem bothFull_entries : entries twoStreams bothFull 0 0 ≠ 0 :=
  @entries_ne_zero twoStreams bothFull 0 0 0 (by decide) (by decide +kernel)

theorem bothRead_entries : entries twoStreams bothRead.2.cache 0 0 = 0 :=
  @entries_eq_zero twoStreams bothRead.2.cache 0 0 (by decide +kernel)

/-- Two streams with one token each: reading the second stream clears the first. -/
theorem stateRead_clears_first :
    PlacedReach twoStreams bothFull ∧ ShiftFree twoStreams bothFull ∧ PosFits twoStreams bothFull ∧
      ¬ ∃ st', bothRead = (.ok (), ⟨st', []⟩) ∧ ∀ t < twoStreams.nStream, ∀ s < llamaMaxSeq,
        entries twoStreams st' t s = entries twoStreams bothFull t s := by
  have hshift : ∀ t < 2, ∀ i < 2, (bothFull.vCells t).shift i = 0 := by decide +kernel
  have hpos : ∀ t < 2, ∀ i < 2, (bothFull.vCells t).pos i ≤ llamaPosMax := by decide +kernel
  refine ⟨bothFull_reach, hshift, hpos, ?_⟩
  intro hsaved
  obtain ⟨st', hrun, hsame⟩ := hsaved
  have hlost := bothRead_entries
  rw [hrun] at hlost
  have hentry := hsame 0 (by decide) 0 (by decide)
  exact bothFull_entries (hentry.symm.trans hlost)

end KvCache
