import LlamaRafaelia.Kv.CacheInvariant
import LlamaRafaelia.Kv.Search

/-!
# What `apply_ubatch` does to the cells

The cells of the slot take the tokens of the ubatch.  `seq_pos_max_rm` remembers the largest position evicted from
each sequence; afterwards every cell of such a sequence at or below that position loses it.
-/

namespace KvCell

/-- The cell that is left when only the sequences in `S` stay. -/
def restrict (x : KvCell) (S : Finset ℕ) : KvCell :=
  if S = x.seq then x else if S = ∅ then KvCell.empty else { x with seq := S }

variable {x : KvCell} {S S' : Finset ℕ}

theorem restrict_self (x : KvCell) : x.restrict x.seq = x := if_pos rfl

theorem restrict_seq (x : KvCell) (S : Finset ℕ) : (x.restrict S).seq = S := by
  unfold restrict
  split
  · next h => exact h.symm
  · split
    · next h => exact h.symm
    · rfl

theorem restrict_eq_of_nonempty (hS : S ≠ ∅) : x.restrict S = { x with seq := S } := by
  unfold restrict
  split
  · next h => subst h; rfl
  · rfl

theorem restrict_pos (hS : S ≠ ∅) : (x.restrict S).pos = x.pos := by
  rw [restrict_eq_of_nonempty hS]

theorem restrict_restrict (h : S' ⊆ S) (h' : S ⊆ x.seq) : (x.restrict S).restrict S' = x.restrict S' := by
  by_cases hS : S = x.seq
  · rw [hS, restrict_self]
  · by_cases hE : S = ∅
    · subst hE
      have hx : x.restrict ∅ = KvCell.empty := by simp [restrict, hS]
      rw [Finset.subset_empty.mp h, hx]
      exact restrict_self KvCell.empty
    · rw [restrict_eq_of_nonempty hE]
      have hne : S' ≠ x.seq := fun he => hS (Finset.Subset.antisymm h' (he ▸ h))
      by_cases hS' : S' = S
      · subst hS'
        rw [restrict_eq_of_nonempty (x := x) hE]
        exact restrict_self { x with seq := S' }
      · simp [restrict, hS', hne]

end KvCell

namespace KvCache

open Checked KvCells Function Finset

variable {kp : KvParams} {st : KvCache} {G : ℕ → ℕ → ℤ → ℕ} {u : Ubatch}

theorem seqRmCell_eq_restrict {x : KvCell} {s : ℕ} (h : s ∈ x.seq) :
    seqRmCell x s = x.restrict (x.seq.erase s) := by
  have hne : x.seq.erase s ≠ x.seq := by
    intro he
    rw [← he] at h
    exact notMem_erase s _ h
  simp only [seqRmCell, KvCell.restrict, if_neg hne]

/-! ### The purge -/

/-- The sequences that a cell keeps when the positions up to `rm s` of each sequence `s` are purged. -/
def keptSeqs (rm : ℕ → ℤ) (x : KvCell) : Finset ℕ := x.seq.filter fun s => rm s < x.pos

def purgeAt (rm : ℕ → ℤ) (s : ℕ) (x : KvCell) : KvCell :=
  if s ∈ x.seq ∧ x.pos ≤ rm s then seqRmCell x s else x

theorem seqPosMin_le {g : ℕ → ℤ → ℕ} {c : KvCells} (h : Sound g c) {s i : ℕ} (hi : i < c.size)
    (hs : s ∈ c.seq i) : (c.seqPosMin s).value ≤ c.pos i := by
  have hlt := h.seq_lt i hi s hs
  have hmem : c.pos i ∈ (c.seqPos s).keys := by
    rw [(h.tracks s hlt).mem_keys, restCount_eq hi s (c.pos i), pos, KvCell.ind_self (x := c.cell i) hs]
    omega
  exact (CountMap.firstKey_isLeast (-1) ⟨_, hmem⟩).2 (mem_coe.mpr hmem)

theorem le_seqPosMax {g : ℕ → ℤ → ℕ} {c : KvCells} (h : Sound g c) {s i : ℕ} (hi : i < c.size)
    (hs : s ∈ c.seq i) : c.pos i ≤ (c.seqPosMax s).value := by
  have hlt := h.seq_lt i hi s hs
  have hmem : c.pos i ∈ (c.seqPos s).keys := by
    rw [(h.tracks s hlt).mem_keys, restCount_eq hi s (c.pos i), pos, KvCell.ind_self (x := c.cell i) hs]
    omega
  exact (CountMap.lastKey_isGreatest (-1) ⟨_, hmem⟩).2 (mem_coe.mpr hmem)

theorem Ok.pos_nonneg (h : Ok kp G st) {t i s : ℕ} (ht : t < kp.nStream) (hi : i < kp.kvSize)
    (hs : s ∈ ((st.vCells t).cell i).seq) : 0 ≤ ((st.vCells t).cell i).pos := by
  have hi' : i < (st.vCells t).size := (h t ht).size ▸ hi
  exact (h t ht).sound.pos_nonneg hi' ((h t ht).sound.seq_used i hi' (ne_empty_of_mem hs))

/-- **The purge of one sequence** keeps the invariant and acts on every cell of the cache as `purgeAt`. -/
theorem purgeStep_spec (h : Ok kp G st) {rm : ℕ → ℤ} {s : ℕ} (hge : -1 ≤ rm s)
    (hs : rm s ≠ -1 → s < kp.seqToStream.length) :
    Ok kp G (purgeStep kp rm st s).value ∧
      ∀ t < kp.nStream, ∀ i < kp.kvSize, ((purgeStep kp rm st s).value.vCells t).cell i
        = purgeAt rm s ((st.vCells t).cell i) := by
  by_cases hrm : rm s = -1
  · -- nothing was evicted: positions are not negative, so nothing is at or below `-1`
    have hval : (purgeStep kp rm st s).value = st := by simp [purgeStep, hrm]
    rw [hval]
    refine ⟨h, fun t ht i hi => ?_⟩
    rw [purgeAt, if_neg]
    rintro ⟨hm, hle⟩
    have := h.pos_nonneg ht hi hm
    omega
  · have hlt := hs hrm
    have ht' := kp.streamOf_lt s
    obtain ⟨-, hkeep, hcell⟩ := seqRm_spec h hlt ((st.vCells (kp.streamOf s)).seqPosMin s).value (rm s + 1)
    -- a cell that holds `s` is in the stream of `s`
    have hother : ∀ t < kp.nStream, ∀ i < kp.kvSize, t ≠ kp.streamOf s →
        purgeAt rm s ((st.vCells t).cell i) = (st.vCells t).cell i := by
      intro t ht i hi hne
      rw [purgeAt, if_neg]
      rintro ⟨hm, -⟩
      exact hne ((h t ht).stream i hi s hm).2.symm
    have hmin : ∀ i < kp.kvSize, s ∈ ((st.vCells (kp.streamOf s)).cell i).seq →
        ((st.vCells (kp.streamOf s)).seqPosMin s).value ≤ ((st.vCells (kp.streamOf s)).cell i).pos :=
      fun i hi hm => seqPosMin_le (h _ ht').sound ((h _ ht').size ▸ hi) hm
    by_cases hle : ((st.vCells (kp.streamOf s)).seqPosMin s).value ≤ rm s
    · have hval : (purgeStep kp rm st s).value
          = (st.seqRm kp s ((st.vCells (kp.streamOf s)).seqPosMin s).value (rm s + 1)).value := by
        simp [purgeStep, hrm, hle]
      rw [hval]
      refine ⟨hkeep, fun t ht i hi => ?_⟩
      rw [hcell t ht i hi]
      by_cases hne : t = kp.streamOf s
      · subst hne
        rw [if_pos rfl, seqRmAt, purgeAt]
        congr 1
        rw [eq_iff_iff, KvCell.Hit]
        have hhi : rangeHi (rm s + 1) = rm s + 1 := if_neg (by omega)
        rw [hhi]
        constructor
        · rintro ⟨⟨-, hlt'⟩, hm⟩
          exact ⟨hm, by omega⟩
        · rintro ⟨hm, hle'⟩
          have h1 := hmin i hi hm
          have h2 := h.pos_nonneg ht hi hm
          refine ⟨⟨?_, by omega⟩, hm⟩
          unfold rangeLo
          split <;> omega
      · rw [if_neg hne, hother t ht i hi hne]
    · have hval : (purgeStep kp rm st s).value = st := by simp [purgeStep, hrm, hle]
      rw [hval]
      refine ⟨h, fun t ht i hi => ?_⟩
      by_cases hne : t = kp.streamOf s
      · subst hne
        rw [purgeAt, if_neg]
        rintro ⟨hm, hle'⟩
        have := hmin i hi hm
        omega
      · exact (hother t ht i hi hne).symm

/-- The sequences left in a cell after the purge of the sequences below `k`. -/
def keptUpTo (rm : ℕ → ℤ) (k : ℕ) (x : KvCell) : Finset ℕ :=
  x.seq.filter fun s => ¬ (s < k ∧ x.pos ≤ rm s)

theorem purgeAt_restrict (rm : ℕ → ℤ) (k : ℕ) (x : KvCell) :
    purgeAt rm k (x.restrict (keptUpTo rm k x)) = x.restrict (keptUpTo rm (k + 1) x) := by
  by_cases hk : k ∈ x.seq ∧ x.pos ≤ rm k
  · have hmem : k ∈ keptUpTo rm k x :=
      mem_filter.mpr ⟨hk.1, fun hlt => absurd hlt.1 (Nat.lt_irrefl k)⟩
    have hne : keptUpTo rm k x ≠ ∅ := ne_empty_of_mem hmem
    have herase : (keptUpTo rm k x).erase k = keptUpTo rm (k + 1) x := by
      ext s
      simp only [keptUpTo, mem_erase, mem_filter]
      constructor
      · rintro ⟨hsk, hsx, hs⟩
        exact ⟨hsx, fun hcon => hs ⟨by omega, hcon.2⟩⟩
      · rintro ⟨hsx, hs⟩
        refine ⟨?_, hsx, fun hcon => hs ⟨by omega, hcon.2⟩⟩
        rintro rfl
        exact hs ⟨Nat.lt_succ_self s, hk.2⟩
    have hmem' : k ∈ (x.restrict (keptUpTo rm k x)).seq := by rwa [KvCell.restrict_seq]
    rw [purgeAt, if_pos ⟨hmem', by rw [KvCell.restrict_pos hne]; exact hk.2⟩,
      seqRmCell_eq_restrict hmem', KvCell.restrict_seq, herase]
    exact KvCell.restrict_restrict (herase ▸ erase_subset k _) (filter_subset _ _)
  · have hsame : keptUpTo rm (k + 1) x = keptUpTo rm k x := by
      ext s
      simp only [keptUpTo, mem_filter]
      refine and_congr_right fun hsx => not_congr ⟨fun hcon => ⟨?_, hcon.2⟩, fun hcon => ⟨by omega, hcon.2⟩⟩
      have hne : s ≠ k := by
        rintro rfl
        exact hk ⟨hsx, hcon.2⟩
      omega
    rw [hsame, purgeAt, if_neg]
    rintro ⟨hm, hle⟩
    rw [KvCell.restrict_seq] at hm
    rw [KvCell.restrict_pos (ne_empty_of_mem hm)] at hle
    exact hk ⟨(mem_filter.mp hm).1, hle⟩

/-- **The whole purge**: a cell keeps the sequences of which nothing was evicted at or above its
position. -/
theorem purge_spec (h : Ok kp G st) {rm : ℕ → ℤ} (hge : ∀ s, -1 ≤ rm s)
    (hs : ∀ s, rm s ≠ -1 → s < kp.seqToStream.length) :
    Ok kp G (loopRange llamaMaxSeq (purgeStep kp rm) st).value ∧
      ∀ t < kp.nStream, ∀ i < kp.kvSize,
        ((loopRange llamaMaxSeq (purgeStep kp rm) st).value.vCells t).cell i
          = ((st.vCells t).cell i).restrict (keptSeqs rm ((st.vCells t).cell i)) := by
  obtain ⟨hok, hcell⟩ := loopRange_value_rule (f := purgeStep kp rm)
    (fun k st' => Ok kp G st' ∧ ∀ t < kp.nStream, ∀ i < kp.kvSize, (st'.vCells t).cell i
      = ((st.vCells t).cell i).restrict (keptUpTo rm k ((st.vCells t).cell i)))
    llamaMaxSeq (s := st) ⟨h, fun t _ i _ => by simp [keptUpTo, KvCell.restrict_self]⟩ (by
      rintro k st' - ⟨hst', hcell⟩
      obtain ⟨hok, hstep⟩ := purgeStep_spec hst' (hge k) (hs k)
      refine ⟨hok, fun t ht i hi => ?_⟩
      rw [hstep t ht i hi, hcell t ht i hi, purgeAt_restrict])
  refine ⟨hok, fun t ht i hi => ?_⟩
  rw [hcell t ht i hi]
  congr 1
  apply filter_congr
  intro s hsx
  have hlt := (h t ht).sound.seq_lt i ((h t ht).size ▸ hi) s hsx
  constructor
  · intro hno
    by_contra hcon
    exact hno ⟨hlt, by omega⟩
  · rintro hlt' ⟨-, hle⟩
    omega

theorem seqPosMin_asserts {g : ℕ → ℤ → ℕ} {c : KvCells} (h : Sound g c) {s : ℕ} (hs : s < llamaMaxSeq) :
    (c.seqPosMin s).asserts = true := by
  simp only [KvCells.seqPosMin, bind_asserts, assert_asserts, pure_asserts, Bool.and_true,
    Bool.and_eq_true, decide_eq_true_eq]
  refine ⟨hs, ?_⟩
  by_cases he : (c.seqPos s).keys = ∅
  · exact Or.inl he
  · right
    have hkey := (CountMap.firstKey_isLeast (-1) (nonempty_iff_ne_empty.mpr he)).1
    exact (h.tracks s hs).count_pos (mem_coe.mp hkey)

theorem seqPosMax_asserts {g : ℕ → ℤ → ℕ} {c : KvCells} (h : Sound g c) {s : ℕ} (hs : s < llamaMaxSeq) :
    (c.seqPosMax s).asserts = true := by
  simp only [KvCells.seqPosMax, bind_asserts, assert_asserts, pure_asserts, Bool.and_true,
    Bool.and_eq_true, decide_eq_true_eq]
  refine ⟨hs, ?_⟩
  by_cases he : (c.seqPos s).keys = ∅
  · exact Or.inl he
  · right
    have hkey := (CountMap.lastKey_isGreatest (-1) (nonempty_iff_ne_empty.mpr he)).1
    exact (h.tracks s hs).count_pos (mem_coe.mp hkey)

theorem purge_asserts (h : Ok kp G st) {rm : ℕ → ℤ} (hge : ∀ s, -1 ≤ rm s)
    (hs : ∀ s, rm s ≠ -1 → s < kp.seqToStream.length) :
    (loopRange llamaMaxSeq (purgeStep kp rm) st).asserts = true := by
  refine (loopRange_rule (f := purgeStep kp rm) (fun _ st' => Ok kp G st') llamaMaxSeq h
    fun s st' _ hst' => ⟨?_, (purgeStep_spec hst' (hge s) (hs s)).1⟩).1
  by_cases hrm : rm s = -1
  · simp [purgeStep, hrm]
  · have hmin := seqPosMin_asserts (hst' _ (kp.streamOf_lt s)).sound
      (lt_of_lt_of_le (hs s hrm) kp.seqToStream_length_le)
    have hrmok := (seqRm_spec hst' (hs s hrm)
      ((st'.vCells (kp.streamOf s)).seqPosMin s).value (rm s + 1)).1
    by_cases hle : ((st'.vCells (kp.streamOf s)).seqPosMin s).value ≤ rm s
    · simp [purgeStep, hrm, hle, hmin, hrmok]
    · simp [purgeStep, hrm, hle, hmin]

theorem purge_vHeads {rm : ℕ → ℤ} {t : ℕ} (hrm : ∀ s, rm s ≠ -1 → kp.streamOf s ≠ t) (st : KvCache) :
    (loopRange llamaMaxSeq (purgeStep kp rm) st).value.vHeads t = st.vHeads t := by
  refine loopRange_value_rule (f := purgeStep kp rm) (fun _ st' => st'.vHeads t = st.vHeads t)
    llamaMaxSeq rfl fun s st' _ hst' => ?_
  by_cases h : rm s = -1
  · simpa [purgeStep, h] using hst'
  · by_cases hle : ((st'.vCells (kp.streamOf s)).seqPosMin s).value ≤ rm s
    · simp only [purgeStep, h, if_false, bind_value, hle, if_true]
      rw [seqRm_vHeads_of_ne _ _ (Ne.symm (hrm s h))]
      exact hst'
    · simpa [purgeStep, h, hle] using hst'

/-! ### Evictions -/

theorem usable_iff {g : ℕ → ℤ → ℕ} {c : KvCells} (h : Sound g c) {i : ℕ} (hi : i < c.size) :
    Usable kp c i ↔ c.pos i = -1 ∨ (c.pos i ≠ -1 ∧ ∃ s, c.seq i = {s} ∧
      (kp.isMasked (c.pos i) ((c.seqPosMax s).value + 1)).value = true) := by
  rw [usable_iff_free (h.seq_lt i hi), Free]
  by_cases hp : c.pos i = -1
  · simp [hp]
  · simp only [hp, false_or, ne_eq, not_false_eq_true, true_and]

/-- What `apply_ubatch` makes of the old cell before the token is stored. -/
def evictCell (x : KvCell) : KvCell := if x.pos = -1 then x else KvCell.empty

/-- What `seq_pos_max_rm` becomes when the cell is taken. -/
def evictRm (rm : ℕ → ℤ) (x : KvCell) : ℕ → ℤ :=
  fun s => if x.pos ≠ -1 ∧ s ∈ x.seq then max (rm s) x.pos else rm s

theorem evict_spec {g : ℕ → ℤ → ℕ} {c : KvCells} (h : Sound g c) (rm : ℕ → ℤ) {i : ℕ} (hi : i < c.size)
    (hone : c.pos i ≠ -1 → ∃ s, c.seq i = {s}) :
    (evict c rm i).asserts = true ∧ Sound g (evict c rm i).value.1 ∧
      (evict c rm i).value.1.size = c.size ∧
      (evict c rm i).value.1.cell = Function.update c.cell i (evictCell (c.cell i)) ∧
      (evict c rm i).value.2 = evictRm rm (c.cell i) := by
  by_cases hp : c.pos i = -1
  · have hval : (evict c rm i).value = (c, rm) := by simp [evict, isEmpty, hp]
    have hcell : evictCell (c.cell i) = c.cell i := if_pos hp
    rw [hval, hcell, update_eq_self]
    refine ⟨by simp [evict, isEmpty, hp, hi], h, rfl, rfl, ?_⟩
    funext s
    exact (if_neg (fun hcon => hcon.1 hp)).symm
  · obtain ⟨s, hs⟩ := hone hp
    have hlt : s < llamaMaxSeq := h.seq_lt i hi s (hs ▸ mem_singleton_self s)
    have hnn : 0 ≤ c.pos i := h.pos_nonneg hi hp
    have hval : (evict c rm i).value = ((c.rm i).value, Function.update rm s (max (rm s) (c.pos i))) := by
      simp only [evict, isEmpty, bind_value, pure_value, hp, decide_false, Bool.false_eq_true, if_false,
        seqGet_of_singleton hs hlt, posGet, Int.toNat_natCast]
    have hcell : evictCell (c.cell i) = KvCell.empty := if_neg hp
    rw [hval, hcell]
    refine ⟨?_, rm_sound h hi, rfl, rm_cell c i, ?_⟩
    · simp [evict, isEmpty, hp, hi, hnn, seqCount, seqGet, posGet, hs,
        (rm_asserts h.toCounted).mpr ⟨hi, hp⟩]
    · funext s'
      have hx : (c.cell i).seq = {s} := hs
      show Function.update rm s (max (rm s) (c.pos i)) s' = _
      by_cases hne : s' = s
      · subst hne
        rw [Function.update_self, evictRm, if_pos ⟨hp, by simp [hx]⟩]
        rfl
      · rw [Function.update_of_ne hne, evictRm, if_neg]
        rintro ⟨-, hm⟩
        exact hne (by simpa [hx] using hm)

/-! ### Storing a token -/

/-- The surplus `g'` is `g` or more, and only sequences that exist have one. -/
structure Grows (g g' : ℕ → ℤ → ℕ) : Prop where
  le : ∀ s p, g s p ≤ g' s p
  frame : ∀ s, llamaMaxSeq ≤ s → g' s = g s

theorem Grows.refl (g : ℕ → ℤ → ℕ) : Grows g g := ⟨fun _ _ => le_rfl, fun _ _ => rfl⟩

theorem Grows.trans {g g' g'' : ℕ → ℤ → ℕ} (h : Grows g g') (h' : Grows g' g'') : Grows g g'' :=
  ⟨fun s p => le_trans (h.le s p) (h'.le s p), fun s hs => (h'.frame s hs).trans (h.frame s hs)⟩

theorem grows_bump (g : ℕ → ℤ → ℕ) {s : ℕ} (q : ℤ) (hs : s < llamaMaxSeq) : Grows g (bump g s q) := by
  refine ⟨fun s' p => Nat.le_add_right _ _, fun s' hs' => ?_⟩
  have hne : s' ≠ s := by omega
  funext p
  simp [bump, hne]

/-- The cell that holds token `i` of the ubatch, where `x` was the empty cell. -/
def placeCell (u : Ubatch) (i : ℕ) (x : KvCell) : KvCell where
  pos := u.posAt i
  ext := if u.isPos2d then u.extAt i else x.ext
  shift := x.shift
  seq := x.seq ∪ (u.seqAt i).toFinset

theorem seqAddLoop_cell (c : KvCells) (i : ℕ) (l : List ℕ) :
    (loop (fun c s => KvCells.seqAdd c i s) c l).value.size = c.size ∧
      (loop (fun c s => KvCells.seqAdd c i s) c l).value.cell
        = Function.update c.cell i { c.cell i with seq := (c.cell i).seq ∪ l.toFinset } := by
  induction l generalizing c with
  | nil => simp
  | cons s l ih =>
    obtain ⟨hsize, hcell⟩ := ih (c.seqAdd i s).value
    refine ⟨hsize, ?_⟩
    show (loop (fun c s => KvCells.seqAdd c i s) (c.seqAdd i s).value l).value.cell = _
    rw [hcell, seqAdd_cell]
    simp [Function.update_idem]

theorem seqAddLoop_sound {g : ℕ → ℤ → ℕ} {c : KvCells} {i : ℕ} (h : Sound g c) (hi : i < c.size)
    (hp : c.pos i ≠ -1) (l : List ℕ) (hl : ∀ s ∈ l, s < llamaMaxSeq) :
    ∃ g', Sound g' (loop (fun c s => KvCells.seqAdd c i s) c l).value ∧ Grows g g' ∧
      ((l.Nodup ∧ ∀ s ∈ l, s ∉ c.seq i) ↔ g' = g) ∧
      (g' = g → (loop (fun c s => KvCells.seqAdd c i s) c l).asserts = true) := by
  induction l generalizing g c with
  | nil => exact ⟨g, h, Grows.refl g, by simp, by simp⟩
  | cons s l ih =>
    have hs := hl s (by simp)
    have hp' : (c.seqAdd i s).value.pos i ≠ -1 := by
      rw [pos, seqAdd_cell, update_self]
      exact hp
    have hseq : (c.seqAdd i s).value.seq i = insert s (c.seq i) := by
      rw [seq, seqAdd_cell, update_self]
      rfl
    by_cases hm : s ∈ c.seq i
    · -- the second time: the surplus is larger from here on
      obtain ⟨g', hg', hle, -, -⟩ := ih (seqAdd_sound_again h hm) hi hp' (fun s' hs' => hl s' (by simp [hs']))
      have hne : g' ≠ g := by
        rintro rfl
        have := hle.le s (c.pos i)
        simp [bump] at this
      refine ⟨g', hg', (grows_bump g (c.pos i) hs).trans hle, ?_, fun heq => absurd heq hne⟩
      exact ⟨fun hcon => absurd hm (hcon.2 s (by simp)), fun heq => absurd heq hne⟩
    · obtain ⟨g', hg', hle, hiff, hok⟩ := ih (seqAdd_sound h hi hs hp hm) hi hp'
        (fun s' hs' => hl s' (by simp [hs']))
      refine ⟨g', hg', hle, ?_, fun heq => ?_⟩
      · rw [← hiff, hseq, List.nodup_cons]
        constructor
        · rintro ⟨⟨hsl, hnd⟩, hno⟩
          refine ⟨hnd, fun s' hs' hcon => ?_⟩
          rcases mem_insert.mp hcon with rfl | hcon
          · exact hsl hs'
          · exact hno s' (by simp [hs']) hcon
        · rintro ⟨hnd, hno⟩
          refine ⟨⟨fun hsl => hno s hsl (mem_insert_self s _), hnd⟩, fun s' hs' hcon => ?_⟩
          rcases List.mem_cons.mp hs' with rfl | hs'
          · exact hm hcon
          · exact hno s' hs' (mem_insert_of_mem hcon)
      · simp only [loop_cons, bind_asserts, (seqAdd_asserts c i s).mpr ⟨hi, hs, hp, hm⟩, Bool.true_and]
        exact hok heq

theorem placeToken_spec {g : ℕ → ℤ → ℕ} {c : KvCells} {idx i : ℕ} (h : Sound g c) (hidx : idx < c.size)
    (hempty : c.pos idx = -1) (hpos : 0 ≤ u.posAt i) (hl : ∀ s ∈ u.seqAt i, s < llamaMaxSeq) :
    (placeToken c u idx i).value.size = c.size ∧
      (placeToken c u idx i).value.cell = Function.update c.cell idx (placeCell u i (c.cell idx)) ∧
      ∃ g', Sound g' (placeToken c u idx i).value ∧ Grows g g' ∧
        ((u.seqAt i).Nodup ↔ g' = g) ∧ (g' = g → (placeToken c u idx i).asserts = true) := by
  have hseq : c.seq idx = ∅ := not_not.mp fun hne => h.seq_used idx hidx hne hempty
  have hset := posSet_sound h hidx hpos hseq
  -- the cell once position and 2D position are stored
  have hext : Sound g (placeExt (c.posSet idx (u.posAt i)).value u idx i).value ∧
      (placeExt (c.posSet idx (u.posAt i)).value u idx i).value.size = c.size ∧
      (placeExt (c.posSet idx (u.posAt i)).value u idx i).asserts = true ∧
      (placeExt (c.posSet idx (u.posAt i)).value u idx i).value.cell = Function.update c.cell idx
        { c.cell idx with pos := u.posAt i, ext := if u.isPos2d then u.extAt i else (c.cell idx).ext } := by
    unfold placeExt
    by_cases h2d : u.isPos2d
    · simp only [h2d, if_true]
      refine ⟨extSet_sound hset hidx _, rfl, by simp [extSet, hidx], ?_⟩
      rw [extSet_cell, posSet_cell]
      simp [Function.update_idem]
    · simp only [h2d, Bool.false_eq_true, if_false]
      exact ⟨hset, rfl, rfl, posSet_cell c idx _⟩
  obtain ⟨hsound, hsize, hok, hcell⟩ := hext
  have hval : (placeToken c u idx i).value = (loop (fun c s => KvCells.seqAdd c idx s)
      (placeExt (c.posSet idx (u.posAt i)).value u idx i).value (u.seqAt i)).value := rfl
  obtain ⟨hsize', hcell'⟩ :=
    seqAddLoop_cell (placeExt (c.posSet idx (u.posAt i)).value u idx i).value idx (u.seqAt i)
  have hp : (placeExt (c.posSet idx (u.posAt i)).value u idx i).value.pos idx ≠ -1 := by
    rw [pos, hcell, update_self]
    show u.posAt i ≠ -1
    omega
  have hnone : ∀ s ∈ u.seqAt i, s ∉ (placeExt (c.posSet idx (u.posAt i)).value u idx i).value.seq idx := by
    intro s _
    rw [seq, hcell, update_self]
    show s ∉ (c.cell idx).seq
    rw [show (c.cell idx).seq = ∅ from hseq]
    exact notMem_empty s
  obtain ⟨g', hg', hle, hiff, hasserts⟩ := seqAddLoop_sound hsound (hsize ▸ hidx) hp (u.seqAt i) hl
  rw [hval]
  refine ⟨hsize'.trans hsize, ?_, g', hg', hle, ?_, fun heq => ?_⟩
  · rw [hcell', hcell]
    simp only [update_self, update_idem]
    rfl
  · rw [← hiff]
    exact ⟨fun hnd => ⟨hnd, hnone⟩, fun hnd => hnd.1⟩
  · simp only [placeToken, bind_asserts, Bool.and_eq_true]
    exact ⟨(posSet_asserts c idx _).mpr ⟨hidx, hempty, hseq⟩, hok, hasserts heq⟩

/-- **One token and its cell**: what was there is evicted and the token is stored. -/
theorem placeStream_spec {t idx i head : ℕ} {g : ℕ → ℤ → ℕ} {c : KvCells} (h : StreamOk kp t g c head)
    (rm : ℕ → ℤ) (hidx : idx < kp.kvSize) (hone : c.pos idx ≠ -1 → ∃ s, c.seq idx = {s})
    (hpos : 0 ≤ u.posAt i) (hne : u.seqAt i ≠ [])
    (hseq : ∀ s ∈ u.seqAt i, s < kp.seqToStream.length ∧ kp.streamOf s = t) :
    (evict c rm idx).value.2 = evictRm rm (c.cell idx) ∧
      (placeToken (evict c rm idx).value.1 u idx i).value.cell
        = Function.update c.cell idx (placeCell u i (evictCell (c.cell idx))) ∧
      ∃ g', StreamOk kp t g' (placeToken (evict c rm idx).value.1 u idx i).value head ∧
        Grows g g' ∧ ((u.seqAt i).Nodup ↔ g' = g) ∧
        ((u.seqAt i).Nodup → (evict c rm idx).asserts = true ∧
          (placeToken (evict c rm idx).value.1 u idx i).asserts = true) := by
  have hidx' : idx < c.size := h.size ▸ hidx
  obtain ⟨heok, hesound, hesize, hecell, herm⟩ := evict_spec h.sound rm hidx' hone
  have hempty : (evict c rm idx).value.1.pos idx = -1 := by
    rw [pos, hecell, update_self, evictCell]
    split
    · next hp => exact hp
    · rfl
  obtain ⟨hsize, hpcell, g', hsound, hle, hiff, hok⟩ := placeToken_spec (u := u) (i := i) hesound
    (hesize ▸ hidx') hempty hpos
    (fun s hs => lt_of_lt_of_le (hseq s hs).1 kp.seqToStream_length_le)
  have hcell : (placeToken (evict c rm idx).value.1 u idx i).value.cell
      = Function.update c.cell idx (placeCell u i (evictCell (c.cell idx))) := by
    rw [hpcell, hecell]
    simp only [update_self, update_idem]
  refine ⟨herm, hcell, g', ⟨hsize.trans (hesize.trans h.size), hsound, fun j hj => ?_, fun j hj s hs => ?_,
    h.head_le⟩, hle, hiff, fun hnd => ⟨heok, hok (hiff.mp hnd)⟩⟩
  · rw [hcell]
    by_cases hji : j = idx
    · subst hji
      rw [update_self]
      intro _ hcon
      have hsub : (u.seqAt i).toFinset ⊆ ∅ := hcon ▸ subset_union_right
      exact hne ((List.toFinset_eq_empty_iff _).mp (subset_empty.mp hsub))
    · rw [update_of_ne hji]
      exact h.owned j hj
  · rw [hcell] at hs
    by_cases hji : j = idx
    · subst hji
      rw [update_self] at hs
      rcases mem_union.mp hs with hs | hs
      · have hsub : (evictCell (c.cell j)).seq ⊆ (c.cell j).seq := by
          rw [evictCell]
          split
          · exact Finset.Subset.refl _
          · exact empty_subset _
        exact h.stream j hj s (hsub hs)
      · exact hseq s (List.mem_toFinset.mp hs)
    · rw [update_of_ne hji] at hs
      exact h.stream j hj s hs

/-! ### All tokens of a ubatch -/

/-- A cell of the slot and the token that goes there fit together. -/
structure PlaceOk (kp : KvParams) (u : Ubatch) (st : KvCache) (x : ℕ × ℕ × ℕ) : Prop where
  stream_lt : x.1 < kp.nStream
  idx_lt : x.2.1 < kp.kvSize
  pos_nonneg : 0 ≤ u.posAt x.2.2
  seq_ne : u.seqAt x.2.2 ≠ []
  seq_stream : ∀ s ∈ u.seqAt x.2.2, s < kp.seqToStream.length ∧ kp.streamOf s = x.1
  single : (st.vCells x.1).pos x.2.1 ≠ -1 → ∃ s, (st.vCells x.1).seq x.2.1 = {s}

def placeOf (x : ℕ × ℕ × ℕ) : ℕ × ℕ := (x.1, x.2.1)

/-- `seq_pos_max_rm` after the given places: the largest position evicted from each sequence. -/
def slotRm (st : KvCache) (l : List (ℕ × ℕ × ℕ)) : ℕ → ℤ :=
  l.foldl (fun rm x => evictRm rm ((st.vCells x.1).cell x.2.1)) fun _ => -1

def GrowsIn (kp : KvParams) (G G' : ℕ → ℕ → ℤ → ℕ) : Prop :=
  ∀ t, Grows (G t) (G' t) ∧ (kp.nStream ≤ t → G' t = G t)

theorem GrowsIn.refl (G : ℕ → ℕ → ℤ → ℕ) : GrowsIn kp G G := fun t => ⟨Grows.refl (G t), fun _ => rfl⟩

theorem GrowsIn.trans {G' G'' : ℕ → ℕ → ℤ → ℕ} (h : GrowsIn kp G G') (h' : GrowsIn kp G' G'') :
    GrowsIn kp G G'' :=
  fun t => ⟨(h t).1.trans (h' t).1, fun ht => ((h' t).2 ht).trans ((h t).2 ht)⟩

theorem GrowsIn.squeeze {G' G'' : ℕ → ℕ → ℤ → ℕ} (h : GrowsIn kp G G') (h' : GrowsIn kp G' G'')
    (heq : G'' = G) : G' = G := by
  funext t s p
  have h1 := (h t).1.le s p
  have h2 := (h' t).1.le s p
  rw [heq] at h2
  omega

theorem GrowsIn.update {G' : ℕ → ℕ → ℤ → ℕ} {t : ℕ} {g' : ℕ → ℤ → ℕ} (h : GrowsIn kp G G')
    (ht : t < kp.nStream) (hg : Grows (G' t) g') : GrowsIn kp G (Function.update G' t g') := by
  intro t'
  by_cases hne : t' = t
  · subst hne
    rw [update_self]
    exact ⟨(h t').1.trans hg, fun hle => by omega⟩
  · rw [update_of_ne hne]
    exact h t'

/-- What holds of the streams once the tokens in `done` are stored. -/
structure Placed (kp : KvParams) (u : Ubatch) (st : KvCache) (G : ℕ → ℕ → ℤ → ℕ)
    (done : List (ℕ × ℕ × ℕ)) (a : (ℕ → KvCells) × (ℕ → ℤ)) : Prop where
  off : ∀ t i, (t, i) ∉ done.map placeOf → (a.1 t).cell i = (st.vCells t).cell i
  at_place : ∀ x ∈ done, (a.1 x.1).cell x.2.1
    = placeCell u x.2.2 (evictCell ((st.vCells x.1).cell x.2.1))
  rm : a.2 = slotRm st done
  ok : ∃ G', Ok kp G' { st with vCells := a.1 } ∧ GrowsIn kp G G' ∧
    ((∀ x ∈ done, (u.seqAt x.2.2).Nodup) ↔ G' = G)

theorem placed_nil (h : Ok kp G st) : Placed kp u st G [] (st.vCells, fun _ => -1) where
  off _ _ _ := rfl
  at_place := by simp
  rm := rfl
  ok := ⟨G, h, GrowsIn.refl G, by simp⟩

theorem update_surplus_iff {G' : ℕ → ℕ → ℤ → ℕ} {t : ℕ} {g' : ℕ → ℤ → ℕ}
    (hle : GrowsIn kp G G') (hle' : Grows (G' t) g') :
    Function.update G' t g' = G ↔ G' = G ∧ g' = G' t := by
  constructor
  · intro heq
    have hg : g' = G' t := by
      funext s p
      have h1 := (hle t).1.le s p
      have h2 := hle'.le s p
      have h3 : g' s p = G t s p := by rw [← heq, Function.update_self]
      omega
    rw [hg, update_eq_self] at heq
    exact ⟨heq, hg⟩
  · rintro ⟨rfl, rfl⟩
    exact update_eq_self t G'

theorem Placed.step {done : List (ℕ × ℕ × ℕ)} {a : (ℕ → KvCells) × (ℕ → ℤ)} {x : ℕ × ℕ × ℕ}
    (h : Placed kp u st G done a) (hx : PlaceOk kp u st x) (hnew : placeOf x ∉ done.map placeOf) :
    Placed kp u st G (done ++ [x]) (applyStep u a x).value ∧
      ((u.seqAt x.2.2).Nodup → (applyStep u a x).asserts = true) := by
  obtain ⟨G', hok, hle, hiff⟩ := h.ok
  have hstream : StreamOk kp x.1 (G' x.1) (a.1 x.1) (st.vHeads x.1) := hok x.1 hx.stream_lt
  have horig : (a.1 x.1).cell x.2.1 = (st.vCells x.1).cell x.2.1 := h.off x.1 x.2.1 hnew
  obtain ⟨hrm, hcell, g', hstream', hle', hiff', hasserts⟩ := placeStream_spec (u := u) (i := x.2.2)
    hstream a.2 hx.idx_lt (by rw [pos, seq, horig]; exact hx.single) hx.pos_nonneg hx.seq_ne hx.seq_stream
  rw [horig] at hrm hcell
  -- the cells after the step, by stream
  have hself : ((applyStep u a x).value.1 x.1).cell = Function.update (a.1 x.1).cell x.2.1
      (placeCell u x.2.2 (evictCell ((st.vCells x.1).cell x.2.1))) := by
    rw [← hcell]
    simp only [applyStep, bind_value, pure_value, update_self]
  have hother : ∀ t, t ≠ x.1 → (applyStep u a x).value.1 t = a.1 t := by
    intro t ht
    simp only [applyStep, bind_value, pure_value, update_of_ne ht]
  refine ⟨⟨fun t i hti => ?_, fun y hy => ?_, ?_, Function.update G' x.1 g', ?_,
    hle.update hx.stream_lt hle', ?_⟩, fun hnd => ?_⟩
  · simp only [List.map_append, List.map_cons, List.map_nil, List.mem_append, List.mem_singleton,
      not_or] at hti
    by_cases ht : t = x.1
    · subst ht
      rw [hself, update_of_ne]
      · exact h.off x.1 i hti.1
      · rintro rfl
        exact hti.2 rfl
    · rw [hother t ht]
      exact h.off t i hti.1
  · rcases List.mem_append.mp hy with hy | hy
    · have hne : y.1 = x.1 → y.2.1 ≠ x.2.1 := by
        intro h1 h2
        apply hnew
        rw [show placeOf x = placeOf y by rw [placeOf, placeOf, h1, h2]]
        exact List.mem_map_of_mem hy
      by_cases ht : y.1 = x.1
      · rw [ht, hself, update_of_ne (hne ht), ← ht]
        exact h.at_place y hy
      · rw [hother y.1 ht]
        exact h.at_place y hy
    · rw [List.mem_singleton.mp hy, hself, update_self]
  · show (evict (a.1 x.1) a.2 x.2.1).value.2 = _
    rw [hrm, slotRm, List.foldl_append, ← slotRm, ← h.rm]
    rfl
  · intro t ht
    by_cases hne : t = x.1
    · subst hne
      simpa only [update_self, applyStep, bind_value, pure_value] using hstream'
    · simp only [update_of_ne hne, hother t hne]
      exact hok t ht
  · rw [update_surplus_iff hle hle', ← hiff, ← hiff']
    simp only [List.mem_append, List.mem_singleton, or_imp, forall_and, forall_eq]
  · obtain ⟨h1, h2⟩ := hasserts hnd
    simp only [applyStep, bind_asserts, h1, h2, pure_asserts, Bool.and_self]

theorem placed_loop (h : Ok kp G st) {l : List (ℕ × ℕ × ℕ)} (hl : ∀ x ∈ l, PlaceOk kp u st x)
    (hnd : (l.map placeOf).Nodup) :
    Placed kp u st G l (loop (applyStep u) (st.vCells, fun _ => -1) l).value ∧
      ((∀ x ∈ l, (u.seqAt x.2.2).Nodup) →
        (loop (applyStep u) (st.vCells, fun _ => -1) l).asserts = true) := by
  have hnew : ∀ done x rest, l = done ++ x :: rest → placeOf x ∉ done.map placeOf := by
    rintro done x rest rfl hmem
    rw [List.map_append, List.map_cons] at hnd
    exact List.disjoint_of_nodup_append hnd hmem (by simp)
  have hmem : ∀ done x rest, l = done ++ x :: rest → x ∈ l := by
    rintro done x rest rfl
    simp
  constructor
  · exact loop_value_rule (fun done a => Placed kp u st G done a) l (placed_nil h)
      fun done x rest a hsplit ha => (ha.step (hl x (hmem _ _ _ hsplit)) (hnew _ _ _ hsplit)).1
  · intro hall
    refine (loop_rule (fun done a => Placed kp u st G done a) l (placed_nil h)
      fun done x rest a hsplit ha => ?_).1
    obtain ⟨hstep, hok⟩ := ha.step (hl x (hmem _ _ _ hsplit)) (hnew _ _ _ hsplit)
    exact ⟨hok (hall x (hmem _ _ _ hsplit)), hstep⟩

/-! ### What was evicted -/

/-- An evicted cell of sequence `s` at or above position `p`. -/
def EvictedFrom (st : KvCache) (l : List (ℕ × ℕ × ℕ)) (s : ℕ) (p : ℤ) : Prop :=
  ∃ x ∈ l, ((st.vCells x.1).cell x.2.1).pos ≠ -1 ∧ s ∈ ((st.vCells x.1).cell x.2.1).seq ∧
    p ≤ ((st.vCells x.1).cell x.2.1).pos

theorem le_foldl_evictRm {l : List (ℕ × ℕ × ℕ)} {rm : ℕ → ℤ} {s : ℕ} {p : ℤ} :
    p ≤ l.foldl (fun rm x => evictRm rm ((st.vCells x.1).cell x.2.1)) rm s ↔
      p ≤ rm s ∨ EvictedFrom st l s p := by
  induction l generalizing rm with
  | nil => simp [EvictedFrom]
  | cons x l ih =>
    rw [List.foldl_cons, ih]
    have hstep : p ≤ evictRm rm ((st.vCells x.1).cell x.2.1) s ↔ p ≤ rm s ∨
        (((st.vCells x.1).cell x.2.1).pos ≠ -1 ∧ s ∈ ((st.vCells x.1).cell x.2.1).seq ∧
          p ≤ ((st.vCells x.1).cell x.2.1).pos) := by
      unfold evictRm
      split
      · next h => rw [le_max_iff]; tauto
      · next h => tauto
    rw [hstep]
    simp only [EvictedFrom, List.mem_cons, exists_eq_or_imp, or_assoc]

theorem le_slotRm_iff {l : List (ℕ × ℕ × ℕ)} {s : ℕ} {p : ℤ} (hp : 0 ≤ p) :
    p ≤ slotRm st l s ↔ EvictedFrom st l s p := by
  rw [slotRm, le_foldl_evictRm]
  constructor
  · rintro (h | h)
    · omega
    · exact h
  · exact Or.inr

theorem slotRm_ge (l : List (ℕ × ℕ × ℕ)) (s : ℕ) : -1 ≤ slotRm st l s :=
  (le_foldl_evictRm).mpr (Or.inl le_rfl)

theorem slotRm_ne {l : List (ℕ × ℕ × ℕ)} {s : ℕ} (h : slotRm st l s ≠ -1) : EvictedFrom st l s 0 := by
  have hge : -1 ≤ slotRm st l s := slotRm_ge l s
  exact (le_slotRm_iff le_rfl).mp (by omega)

end KvCache
