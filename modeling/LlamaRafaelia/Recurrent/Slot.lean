import LlamaRafaelia.Recurrent.Claim
import Mathlib.Order.Interval.Finset.Nat

/-!
# `find_slot`, second half: moving the cells together

`find_slot` swaps cells until set `s` is in cell `min + s`; the swaps amount to a permutation (`Moved`).  Then the
sets are written into their cells (`Placed`) and the sources are staged (`Staged`).  A cell of the range without a
source is filled with zeros, taken from a cell of the range that is no source (`exists_zero`).
-/

namespace Recurrent

open List Checked

variable {st st₂ st₃ : Recurrent}

/-! ### The third loop: swapping cells -/

/-- `st` is `st₂` with the cells from `lo` to `hi` permuted by `σ`. -/
structure Moved (st₂ : Recurrent) (lo hi : ℕ) (σ : Equiv.Perm ℕ) (st : Recurrent) : Prop where
  size : st.size = st₂.size
  fix : ∀ t, t < lo ∨ hi < t → σ t = t
  tail : ∀ s, st.tail s = (st₂.tail s).map σ
  seqId : ∀ t, st.seqId (σ t) = st₂.seqId t
  pos : ∀ t, st.pos (σ t) = st₂.pos t
  src : ∀ t, st.src (σ t) = st₂.src t

theorem Moved.refl (st : Recurrent) (lo hi : ℕ) : Moved st lo hi (Equiv.refl ℕ) st :=
  ⟨rfl, fun _ _ => rfl, fun s => by simp, fun _ => rfl, fun _ => rfl, fun _ => rfl⟩

theorem swapCells_index (dst src t : ℕ) :
    (if Equiv.swap src dst t = dst then src else if Equiv.swap src dst t = src then dst
      else Equiv.swap src dst t) = t := by
  have h := Equiv.swap_apply_def dst src (Equiv.swap src dst t)
  rw [Equiv.swap_comm dst src, Equiv.swap_apply_self] at h
  exact h.symm

theorem Moved.swap {lo hi : ℕ} {σ : Equiv.Perm ℕ} (h : Moved st₂ lo hi σ st) {dst src : ℕ}
    (hdst : lo ≤ dst ∧ dst ≤ hi) (hsrc : lo ≤ src ∧ src ≤ hi) :
    Moved st₂ lo hi (σ.trans (Equiv.swap src dst)) (st.swapCells dst src) := by
  refine ⟨h.size, fun t ht => ?_, fun s => ?_, fun t => ?_, fun t => ?_, fun t => ?_⟩
  · rw [Equiv.trans_apply, h.fix t ht]
    exact Equiv.swap_apply_of_ne_of_ne (by omega) (by omega)
  · have htail : (st.swapCells dst src).tail s = (st.tail s).map (Equiv.swap src dst) := rfl
    rw [htail, h.tail, Option.map_map]
    rfl
  · show (st.cells _).seqId = _
    rw [Equiv.trans_apply, swapCells_index]
    exact h.seqId t
  · show (st.cells _).pos = _
    rw [Equiv.trans_apply, swapCells_index]
    exact h.pos t
  · show (st.cells _).src = _
    rw [Equiv.trans_apply, swapCells_index]
    exact h.src t

theorem Moved.inside {lo hi : ℕ} {σ : Equiv.Perm ℕ} (h : Moved st₂ lo hi σ st) {t : ℕ}
    (ht : lo ≤ t ∧ t ≤ hi) : lo ≤ σ t ∧ σ t ≤ hi := by
  by_contra hout
  have hfix := h.fix (σ t) (by omega)
  have := σ.injective hfix
  omega

theorem range_large {n lo hi : ℕ} (f : ℕ → ℕ) (hin : ∀ s < n, lo ≤ f s ∧ f s ≤ hi)
    (hinj : ∀ s < n, ∀ s' < n, f s = f s' → s = s') : n ≤ hi + 1 - lo := by
  have hcard := Finset.card_le_card_of_injOn (s := Finset.range n) (t := Finset.Icc lo hi) f
    (fun s hs => Finset.mem_Icc.mpr (hin s (Finset.mem_range.mp hs)))
    (fun s hs s' hs' => hinj s (Finset.mem_range.mp hs) s' (Finset.mem_range.mp hs'))
  rwa [Finset.card_range, Nat.card_Icc] at hcard

theorem gather_spec {u : Ubatch} {lo hi : ℕ} {f : ℕ → ℕ}
    (htail : ∀ s < u.nSeqs, st₂.tail (firstOf u s) = some (f s)) (hin : ∀ s < u.nSeqs, lo ≤ f s ∧ f s ≤ hi)
    (hinj : ∀ s < u.nSeqs, ∀ s' < u.nSeqs, f s = f s' → s = s') :
    ∃ σ, Moved st₂ lo hi σ ((List.range u.nSeqs).foldl (gather u lo) st₂) ∧
      ∀ s < u.nSeqs, σ (f s) = s + lo := by
  have hlarge := range_large f hin hinj
  -- the first `k` sets are in their places
  have hloop : ∀ k ≤ u.nSeqs, ∃ σ, Moved st₂ lo hi σ ((List.range k).foldl (gather u lo) st₂) ∧
      ∀ s < k, σ (f s) = s + lo := by
    intro k
    induction k with
    | zero => exact fun _ => ⟨Equiv.refl ℕ, Moved.refl st₂ lo hi, fun s hs => absurd hs (Nat.not_lt_zero s)⟩
    | succ k ih =>
      intro hk
      obtain ⟨σ, hmoved, hplace⟩ := ih (by omega)
      rw [range_succ, foldl_append, foldl_cons, foldl_nil]
      set st := (List.range k).foldl (gather u lo) st₂ with hst
      have hsrc : (st.tail (firstOf u k)).getD 0 = σ (f k) := by
        rw [hmoved.tail, htail k (by omega)]
        rfl
      have hsrcin := hmoved.inside (hin k (by omega))
      unfold gather
      dsimp only
      rw [hsrc]
      split
      · refine ⟨σ.trans (Equiv.swap (σ (f k)) (k + lo)), hmoved.swap (by omega) hsrcin, fun s hs => ?_⟩
        rw [Equiv.trans_apply]
        rcases Nat.lt_succ_iff_lt_or_eq.mp hs with hs | rfl
        · have hne : σ (f s) ≠ σ (f k) := fun heq =>
            absurd (hinj s (by omega) k (by omega) (σ.injective heq)) (by omega)
          rw [Equiv.swap_apply_of_ne_of_ne hne, hplace s hs]
          rw [hplace s hs]
          omega
        · exact Equiv.swap_apply_left _ _
      · next heq =>
        refine ⟨σ, hmoved, fun s hs => ?_⟩
        rcases Nat.lt_succ_iff_lt_or_eq.mp hs with hs | rfl
        · exact hplace s hs
        · omega
  exact hloop u.nSeqs (le_refl _)

/-! ### The fourth loop: writing the sets -/

/-- The position of the last token of set `s`. -/
def lastPos (u : Ubatch) (s : ℕ) : ℤ := u.posAt (s * u.nSeqTokens + u.nSeqTokens - 1)

/-- The first `k` sets are in the cells from `lo` on. -/
structure Placed (u : Ubatch) (lo : ℕ) (st₃ : Recurrent) (k : ℕ) (st : Recurrent) : Prop where
  size : st.size = st₃.size
  tail_in : ∀ s < k, ∀ q ∈ setOf u s, st.tail q = some (s + lo)
  tail_out : ∀ q, (∀ s < k, q ∉ setOf u s) → st.tail q = st₃.tail q
  cell_in : ∀ s < k, st.seqId (s + lo) = (setOf u s).toFinset ∧ st.pos (s + lo) = lastPos u s
  cell_out : ∀ t, (∀ s < k, t ≠ s + lo) → st.seqId t = st₃.seqId t ∧ st.pos t = st₃.pos t
  src : ∀ t, st.src t = st₃.src t

theorem placeIds_spec (c : ℕ) (ids : List ℕ) (st : Recurrent) :
    let st' := ids.foldl (fun st q => (st.setSeqId c (insert q (st.seqId c))).setTail q (some c)) st
    st'.size = st.size ∧ (∀ q, st'.tail q = if q ∈ ids then some c else st.tail q) ∧
      (∀ t, st'.seqId t = if t = c then st.seqId c ∪ ids.toFinset else st.seqId t) ∧
      (∀ t, st'.pos t = st.pos t) ∧ ∀ t, st'.src t = st.src t := by
  induction ids generalizing st with
  | nil =>
    refine ⟨rfl, fun q => by simp, fun t => ?_, fun _ => rfl, fun _ => rfl⟩
    split
    · next heq => simp [heq]
    · rfl
  | cons p ids ih =>
    obtain ⟨hsize, htail, hseq, hpos, hsrc⟩ := ih ((st.setSeqId c (insert p (st.seqId c))).setTail p (some c))
    refine ⟨hsize, fun q => ?_, fun t => ?_, fun t => ?_, fun t => ?_⟩
    · rw [foldl_cons, htail]
      by_cases hq : q ∈ ids
      · simp [hq]
      · simp [hq]
    · rw [foldl_cons, hseq]
      split
      · next heq =>
        rw [setTail_seqId, setSeqId_seqId, if_pos rfl, toFinset_cons, Finset.insert_union,
          Finset.union_insert]
      · next hne => rw [setTail_seqId, setSeqId_seqId, if_neg hne]
    · rw [foldl_cons, hpos, setTail_pos, setSeqId_pos]
    · rw [foldl_cons, hsrc, setTail_src, setSeqId_src]

theorem place_spec {size : ℕ} {u : Ubatch} (hu : SlotUbatch size u) (lo : ℕ) (st₃ : Recurrent) :
    Placed u lo st₃ u.nSeqs ((List.range u.nSeqs).foldl (place u lo) st₃) := by
  have hloop : ∀ k ≤ u.nSeqs, Placed u lo st₃ k ((List.range k).foldl (place u lo) st₃) := by
    intro k
    induction k with
    | zero =>
      intro _
      exact ⟨rfl, fun s hs => absurd hs (Nat.not_lt_zero s), fun _ _ => rfl,
        fun s hs => absurd hs (Nat.not_lt_zero s), fun _ _ => ⟨rfl, rfl⟩, fun _ => rfl⟩
    | succ k ih =>
      intro hk
      obtain ⟨hsize, htin, htout, hcin, hcout, hsrc⟩ := ih (by omega)
      rw [range_succ, foldl_append, foldl_cons, foldl_nil]
      set st := (List.range k).foldl (place u lo) st₃ with hst
      obtain ⟨hsize', htail', hseq', hpos', hsrc'⟩ := placeIds_spec (k + lo) (setOf u k)
        ((st.setPos (k + lo) (lastPos u k)).setSeqId (k + lo) ∅)
      refine ⟨hsize'.trans hsize, fun s hs q hq => ?_, fun q hq => ?_, fun s hs => ?_, fun t ht => ?_, fun t => ?_⟩
      · refine (htail' q).trans ?_
        rcases Nat.lt_succ_iff_lt_or_eq.mp hs with hs | rfl
        · rw [if_neg (hu.disjoint s (by omega) k (by omega) (by omega) q hq), setSeqId_tail, setPos_tail]
          exact htin s hs q hq
        · rw [if_pos hq]
      · refine (htail' q).trans ?_
        rw [if_neg (hq k (Nat.lt_succ_self k)), setSeqId_tail, setPos_tail]
        exact htout q fun s hs => hq s (by omega)
      · refine ⟨(hseq' _).trans ?_, (hpos' _).trans ?_⟩
        · rcases Nat.lt_succ_iff_lt_or_eq.mp hs with hs | rfl
          · rw [if_neg (by omega), setSeqId_seqId, if_neg (by omega), setPos_seqId]
            exact (hcin s hs).1
          · rw [if_pos rfl, setSeqId_seqId, if_pos rfl, Finset.empty_union]
        · rw [setSeqId_pos, setPos_pos]
          rcases Nat.lt_succ_iff_lt_or_eq.mp hs with hs | rfl
          · rw [if_neg (by omega)]
            exact (hcin s hs).2
          · rw [if_pos rfl]
      · have htk := ht k (Nat.lt_succ_self k)
        have hrest := hcout t fun s hs => ht s (by omega)
        refine ⟨(hseq' t).trans ?_, (hpos' t).trans ?_⟩
        · rw [if_neg htk, setSeqId_seqId, if_neg htk, setPos_seqId]
          exact hrest.1
        · rw [setSeqId_pos, setPos_pos, if_neg htk]
          exact hrest.2
      · refine (hsrc' t).trans ?_
        rw [setSeqId_src, setPos_src]
        exact hsrc t
  exact hloop u.nSeqs (le_refl _)

/-! ### The last loop: staging the sources -/

/-- The sources of the cells in `l` are staged. -/
structure Staged (rsZ : Option ℕ) (st : Recurrent) (l : List ℕ) (st' : Recurrent) : Prop where
  size : st'.size = st.size
  tail : ∀ s, st'.tail s = st.tail s
  seqId : ∀ t, st'.seqId t = st.seqId t
  pos : ∀ t, st'.pos t = st.pos t
  src0 : ∀ t ∈ l, st'.src0 t = (st.src t).or rsZ
  src_in : ∀ t ∈ l, st'.src t = some t
  src_out : ∀ t, t ∉ l → st'.src t = st.src t ∧ st'.src0 t = st.src0 t
  rsZ_eq : st'.rsZ = st.rsZ

theorem stage_spec {rsZ : Option ℕ} {i : ℕ} (h : st.src i = none → rsZ.isSome = true) :
    (stage rsZ st i).checks = true ∧
      (stage rsZ st i).value = (st.setSrc0 i ((st.src i).or rsZ)).setSrc i (some i) := by
  unfold stage
  cases hsrc : st.src i with
  | none => exact ⟨by simp [h hsrc], by simp⟩
  | some j => exact ⟨rfl, rfl⟩

theorem stageAll_spec {rsZ : Option ℕ} (l : List ℕ) (hnodup : l.Nodup) (st : Recurrent)
    (h : ∀ i ∈ l, st.src i = none → rsZ.isSome = true) :
    (Checked.loop (stage rsZ) st l).checks = true ∧ Staged rsZ st l (Checked.loop (stage rsZ) st l).value := by
  induction l generalizing st with
  | nil =>
    exact ⟨rfl, rfl, fun _ => rfl, fun _ => rfl, fun _ => rfl, fun t ht => absurd ht (by simp),
      fun t ht => absurd ht (by simp), fun _ _ => ⟨rfl, rfl⟩, rfl⟩
  | cons i l ih =>
    obtain ⟨hi, hl⟩ := nodup_cons.mp hnodup
    obtain ⟨hc, hval⟩ := stage_spec (h i mem_cons_self)
    have hother : ∀ t ∈ l, t ≠ i := fun t ht heq => hi (heq ▸ ht)
    obtain ⟨hc', hst⟩ := ih hl ((st.setSrc0 i ((st.src i).or rsZ)).setSrc i (some i)) fun j hj hsrc => by
      rw [setSrc_src, if_neg (hother j hj), setSrc0_src] at hsrc
      exact h j (mem_cons_of_mem _ hj) hsrc
    rw [loop_cons, bind_checks, bind_value, hc, hval]
    refine ⟨hc', hst.size, fun s => ?_, fun t => ?_, fun t => ?_, fun t ht => ?_, fun t ht => ?_, fun t ht => ?_,
      hst.rsZ_eq⟩
    · rw [hst.tail, setSrc_tail, setSrc0_tail]
    · rw [hst.seqId, setSrc_seqId, setSrc0_seqId]
    · rw [hst.pos, setSrc_pos, setSrc0_pos]
    · rcases mem_cons.mp ht with rfl | ht
      · rw [(hst.src_out t hi).2, setSrc_src0, setSrc0_src0, if_pos rfl]
      · rw [hst.src0 t ht, setSrc_src, if_neg (hother t ht), setSrc0_src]
    · rcases mem_cons.mp ht with rfl | ht
      · rw [(hst.src_out t hi).1, setSrc_src, if_pos rfl]
      · exact hst.src_in t ht
    · rw [mem_cons, not_or] at ht
      rw [(hst.src_out t ht.2).1, (hst.src_out t ht.2).2, setSrc_src, if_neg ht.1, setSrc0_src, setSrc_src0,
        setSrc0_src0, if_neg ht.1]
      exact ⟨rfl, rfl⟩

theorem mem_window {lo hi t : ℕ} (h : lo ≤ hi) : t ∈ window lo hi ↔ lo ≤ t ∧ t ≤ hi := by
  rw [window, mem_range'_1]
  omega

theorem refcount_eq_zero {i : ℕ} : st.refcount i = 0 ↔ ∀ j < st.size, st.src j ≠ some i := by
  rw [refcount, length_eq_zero_iff, filter_eq_nil_iff]
  simp

/-- **A cell for the zeros.**  The cells outside the range refer to none inside; if one of the cells inside
refers to nothing, some cell inside is no source. -/
theorem exists_zero {lo hi : ℕ} (hlo : lo ≤ hi)
    (hout : ∀ t < st.size, t < lo ∨ hi < t → st.src t = none ∨ st.src t = some t) {i : ℕ}
    (hi' : lo ≤ i ∧ i ≤ hi) (hnone : st.src i = none) : (st.findZero lo hi).isSome = true := by
  rw [findZero, find?_isSome]
  by_contra hall
  -- every cell of the range is the source of a cell of the range other than `i`
  have hsrc : ∀ t ∈ Finset.Icc lo hi, ∃ j ∈ (Finset.Icc lo hi).erase i, st.src j = some t := by
    intro t ht
    have ht' := Finset.mem_Icc.mp ht
    have hne : ¬ st.refcount t = 0 := fun hzero => hall ⟨t, (mem_window hlo).mpr ht', by simpa using hzero⟩
    rw [refcount_eq_zero] at hne
    simp only [not_forall, not_not] at hne
    obtain ⟨j, hj, hjt⟩ := hne
    refine ⟨j, Finset.mem_erase.mpr ⟨fun heq => ?_, Finset.mem_Icc.mpr ?_⟩, hjt⟩
    · rw [heq, hnone] at hjt
      exact absurd hjt (by simp)
    · by_contra hjout
      rcases hout j hj (by omega) with hj' | hj'
      · rw [hj'] at hjt
        exact absurd hjt (by simp)
      · rw [hj', Option.some.injEq] at hjt
        omega
  choose! f hf using hsrc
  have hcard := Finset.card_le_card_of_injOn f (fun t ht => (hf t ht).1) (by
    intro t ht t' ht' heq
    have h1 := (hf t ht).2
    have h2 := (hf t' ht').2
    rw [heq, h2] at h1
    exact (Option.some.inj h1).symm)
  rw [Finset.card_erase_of_mem (Finset.mem_Icc.mpr hi')] at hcard
  have hpos : 0 < (Finset.Icc lo hi).card := Finset.card_pos.mpr ⟨i, Finset.mem_Icc.mpr hi'⟩
  omega

/-! ### The whole function -/

/-- A state that `find_slot` may find: the tails are exact and a cell refers to itself or to nothing. -/
structure Valid (st : Recurrent) : Prop where
  exact : Exact st
  src : ∀ t < st.size, st.src t = none ∨ st.src t = some t
  head_le : st.head ≤ st.size

/-- The state of sequence `q` is in cell `c`. -/
def HasState (st : Recurrent) (q c : ℕ) : Prop := st.tail q = some c ∧ st.src c = some c

/-- An empty cell that an earlier `find_slot` has filled with zeros: it has a source, itself. -/
def Zeroed (st : Recurrent) (c : ℕ) : Prop := c < st.size ∧ st.seqId c = ∅ ∧ st.src c = some c

/-- What `find_slot` makes of the state `st`. -/
structure Slotted (st : Recurrent) (u : Ubatch) (st' : Recurrent) : Prop where
  size : st'.size = st.size
  n_ge : u.nSeqs ≤ st'.n
  n_le : st'.head + st'.n ≤ st.size
  /-- the sets are in neighbouring cells -/
  set_seqId : ∀ s < u.nSeqs, st'.seqId (st'.head + s) = (setOf u s).toFinset
  set_pos : ∀ s < u.nSeqs, st'.pos (st'.head + s) = lastPos u s
  set_tail : ∀ s < u.nSeqs, ∀ q ∈ setOf u s, st'.tail q = some (st'.head + s)
  /-- the other cells -/
  tail_other : ∀ q < st.size, (∀ s < u.nSeqs, q ∉ setOf u s) → ∀ t,
    st'.tail q = some t ↔ t < st.size ∧ q ∈ st'.seqId t
  seq_lt : ∀ t < st.size, ∀ q ∈ st'.seqId t, q < st.size
  seq_other : ∀ t < st.size, (∀ s < u.nSeqs, t ≠ st'.head + s) → ∀ q ∈ st'.seqId t, ∀ s < u.nSeqs, q ∉ setOf u s
  pos_other : ∀ t < st.size, (∀ s < u.nSeqs, t ≠ st'.head + s) → (0 ≤ st'.pos t ↔ st'.seqId t ≠ ∅)
  used_eq : st'.used = st'.countUsed
  src : ∀ t < st.size, st'.src t = none ∨ st'.src t = some t
  /-- where the states come from -/
  kept : ∀ q < st.size, q ∉ shared u → ∀ c, HasState st q c → ∃ d, st'.tail q = some d ∧
    ((d < st'.head ∨ st'.head + st'.n ≤ d) ∧ d = c ∨
      (st'.head ≤ d ∧ d < st'.head + st'.n) ∧ st'.src0 d = some c)
  fresh : ∀ s < u.nSeqs, (firstOf u s ∈ shared u ∨ ∀ c, ¬ HasState st (firstOf u s) c) →
    (∃ z, st'.rsZ = some z ∧ st'.src0 (st'.head + s) = some z) ∨
      ∃ c, st'.src0 (st'.head + s) = some c ∧ Zeroed st c
  empty : ∀ t, st'.head ≤ t ∧ t < st'.head + st'.n → st'.seqId t = ∅ →
    (∃ z, st'.rsZ = some z ∧ st'.src0 t = some z) ∨ ∃ c, st'.src0 t = some c ∧ Zeroed st c
  outside : ∀ t < st.size, t < st'.head ∨ st'.head + st'.n ≤ t → st'.seqId t = ∅ → st'.src t = some t → Zeroed st t
  zero_in : ∀ z, st'.rsZ = some z → st'.head ≤ z ∧ z < st'.head + st'.n
  zero_dead : ∀ q < st.size, q ∉ shared u → ∀ c, HasState st q c → st'.rsZ ≠ some c

theorem mem_firsts_of {u : Ubatch} {s : ℕ} (hs : s < u.nSeqs) : firstOf u s ∈ firsts u u.nSeqs :=
  (mem_firsts).mpr ⟨s, hs, rfl⟩

/-- The states between the loops of `find_slot`. -/
structure Pipeline (st : Recurrent) (u : Ubatch) (st₁ : Recurrent) (x : Claim) (σ : Equiv.Perm ℕ)
    (st₃ st₄ : Recurrent) : Prop where
  valid : Valid st
  ubatch : SlotUbatch st.size u
  detached : Detached st (shared u) st₁
  exact₁ : Exact st₁
  claimed : ClaimLoop st₁ u u.nSeqs x
  moved : Moved x.st x.min x.max σ st₃
  gathered : ∀ s < u.nSeqs, ∀ t, x.st.tail (firstOf u s) = some t → σ t = s + x.min
  placed : Placed u x.min st₃ u.nSeqs st₄

namespace Pipeline

variable {u : Ubatch} {st₁ st₄ : Recurrent} {x : Claim} {σ : Equiv.Perm ℕ} (h : Pipeline st u st₁ x σ st₃ st₄)
include h

theorem size₂ : x.st.size = st.size := h.claimed.claimed.size.trans h.detached.size

theorem size₄ : st₄.size = st.size := h.placed.size.trans (h.moved.size.trans h.size₂)

theorem min_le_max : x.min ≤ x.max := by
  obtain ⟨t, -, hlo, hhi⟩ := h.claimed.bounds 0 h.ubatch.nSeqs_pos
  exact hlo.trans hhi

theorem max_lt : x.max < st.size := h.size₂ ▸ h.claimed.max_lt

theorem cellOf {s : ℕ} (hs : s < u.nSeqs) :
    ∃ t, x.st.tail (firstOf u s) = some t ∧ t < st.size ∧ σ t = s + x.min := by
  obtain ⟨t, ht, htail, -⟩ := h.claimed.claimed.own _ (mem_firsts_of hs)
  exact ⟨t, htail, h.size₂ ▸ ht, h.gathered s hs t htail⟩

theorem perm_lt {t : ℕ} : σ t < st.size ↔ t < st.size := by
  have hlt := h.max_lt
  by_cases hin : x.min ≤ t ∧ t ≤ x.max
  · have := h.moved.inside hin
    omega
  · rw [h.moved.fix t (by omega)]

theorem fits {s : ℕ} (hs : s < u.nSeqs) : x.min ≤ s + x.min ∧ s + x.min ≤ x.max := by
  obtain ⟨t, htail, -, hσ⟩ := h.cellOf hs
  obtain ⟨t', htail', hb⟩ := h.claimed.bounds s hs
  rw [htail, Option.some.injEq] at htail'
  rw [← hσ]
  exact h.moved.inside (htail' ▸ hb)

theorem not_claimed {t : ℕ} (ht : ∀ s < u.nSeqs, σ t ≠ s + x.min) :
    ∀ q ∈ firsts u u.nSeqs, x.st.tail q ≠ some t := by
  intro q hq htail
  obtain ⟨s, hs, rfl⟩ := (mem_firsts).mp hq
  exact ht s hs (h.gathered s hs t htail)

theorem src₄ (t : ℕ) : st₄.src (σ t) = x.st.src t := by rw [h.placed.src, h.moved.src]

theorem src_outside {t : ℕ} (ht : t < st.size) (hout : t < x.min ∨ x.max < t) :
    st₄.src t = none ∨ st₄.src t = some t := by
  have hfix := h.moved.fix t hout
  have hclaim : ∀ q ∈ firsts u u.nSeqs, x.st.tail q ≠ some t := by
    intro q hq htail
    obtain ⟨s, hs, rfl⟩ := (mem_firsts).mp hq
    obtain ⟨t', htail', hb⟩ := h.claimed.bounds s hs
    rw [htail, Option.some.injEq] at htail'
    omega
  have hsrc := (h.claimed.claimed.src_other t (h.size₂ ▸ ht) hclaim).1
  rw [← hfix, h.src₄, hfix, hsrc]
  by_cases hnil : st₁.seqId t = ∅
  · rcases h.detached.src_empty t ht hnil with ⟨-, heq⟩ | hnone
    · rw [heq]
      exact h.valid.src t ht
    · exact Or.inl hnone
  · rw [h.detached.src t ht hnil]
    exact h.valid.src t ht

theorem src_of_empty {t : ℕ} (ht : t < st.size) (hnil : st₁.seqId t = ∅) :
    st₁.src t = none ∨ st₁.src t = some t ∧ Zeroed st t := by
  rcases h.detached.src_empty t ht hnil with ⟨hnil', heq⟩ | hnone
  · rw [heq]
    exact (h.valid.src t ht).imp_right fun hsrc => ⟨hsrc, ht, hnil', hsrc⟩
  · exact Or.inl hnone

theorem kept {q c : ℕ} (hq : q < st.size) (hns : q ∉ shared u) (hst : HasState st q c) :
    ∃ d, st₄.tail q = some d ∧ d < st.size ∧ st₄.src d = some c ∧ (d < x.min ∨ x.max < d → d = c) := by
  obtain ⟨htail, hsrc⟩ := hst
  have htail₁ : st₁.tail q = some c := by rw [h.detached.tail, if_neg hns, htail]
  obtain ⟨hc, hmem⟩ := (h.exact₁.tail_iff q (h.detached.size.symm ▸ hq) c).mp htail₁
  have hc' : c < st.size := h.detached.size ▸ hc
  have hsrc₁ : st₁.src c = some c := (h.detached.src c hc' (Finset.ne_empty_of_mem hmem)).trans hsrc
  obtain ⟨t, htail₂, hsrc₂⟩ := h.claimed.claimed.src_tail q (h.size₂.symm ▸ hq) c htail₁
  have ht := (h.claimed.claimed.tail_cases q (h.size₂.symm ▸ hq) t htail₂).1
  refine ⟨σ t, ?_, h.perm_lt.mpr (h.size₂ ▸ ht), by rw [h.src₄, hsrc₂, hsrc₁], fun hout => ?_⟩
  · by_cases hset : ∃ s < u.nSeqs, q ∈ setOf u s
    · obtain ⟨s, hs, hqs⟩ := hset
      obtain rfl := (h.ubatch.mem_cases hs hqs).resolve_right hns
      rw [h.placed.tail_in s hs _ hqs, h.gathered s hs t htail₂]
    · rw [h.placed.tail_out q fun s hs hqs => hset ⟨s, hs, hqs⟩, h.moved.tail, htail₂]
      rfl
  · -- outside the range nothing was moved
    have hfix : σ t = t := σ.injective (h.moved.fix (σ t) hout)
    have hnot : q ∉ firsts u u.nSeqs := by
      intro hq'
      obtain ⟨s, hs, rfl⟩ := (mem_firsts).mp hq'
      obtain ⟨t', htail', hb⟩ := h.claimed.bounds s hs
      rw [htail₂, Option.some.injEq] at htail'
      omega
    rw [h.claimed.claimed.tail_other q hnot, htail₁, Option.some.injEq] at htail₂
    rw [hfix, htail₂]

theorem fresh {s : ℕ} (hs : s < u.nSeqs)
    (hno : firstOf u s ∈ shared u ∨ ∀ c, ¬ HasState st (firstOf u s) c) :
    st₄.src (s + x.min) = none ∨ ∃ c, st₄.src (s + x.min) = some c ∧ Zeroed st c := by
  obtain ⟨t, htail₂, ht, hσ⟩ := h.cellOf hs
  rw [← hσ, h.src₄]
  have hlt := h.ubatch.firstOf_lt hs
  cases htail₁ : st₁.tail (firstOf u s) with
  | none =>
    obtain ⟨t', htail', hnil, hsrc⟩ := h.claimed.claimed.src_new _ (mem_firsts_of hs) htail₁
    rw [htail₂, Option.some.injEq] at htail'
    subst htail'
    rw [hsrc]
    exact (h.src_of_empty ht hnil).imp_right fun hz => ⟨t, hz⟩
  | some c =>
    have hns : firstOf u s ∉ shared u := by
      intro hmem
      rw [h.detached.tail, if_pos hmem] at htail₁
      exact absurd htail₁ (by simp)
    obtain ⟨hc, hmem⟩ := (h.exact₁.tail_iff _ (h.detached.size.symm ▸ hlt) c).mp htail₁
    have hc' : c < st.size := h.detached.size ▸ hc
    obtain ⟨t', htail', hsrc⟩ := h.claimed.claimed.src_tail _ (h.size₂.symm ▸ hlt) c htail₁
    rw [htail₂, Option.some.injEq] at htail'
    subst htail'
    rw [h.detached.tail, if_neg hns] at htail₁
    have hnone : st.src c = none :=
      (h.valid.src c hc').resolve_right fun hsrc' => (hno.resolve_left hns) c ⟨htail₁, hsrc'⟩
    rw [hsrc, h.detached.src c hc' (Finset.ne_empty_of_mem hmem), hnone]
    exact Or.inl rfl

theorem empty {t : ℕ} (ht : t < st.size) (hset : ∀ s < u.nSeqs, t ≠ s + x.min) (hnil : st₄.seqId t = ∅) :
    st₄.src t = none ∨ ∃ c, st₄.src t = some c ∧ Zeroed st c := by
  obtain ⟨t, rfl⟩ := σ.surjective t
  have ht' := h.perm_lt.mp ht
  rw [(h.placed.cell_out _ hset).1, h.moved.seqId] at hnil
  obtain ⟨hsrc, hnil₁⟩ := h.claimed.claimed.src_other t (h.size₂.symm ▸ ht') (h.not_claimed hset)
  rw [h.src₄, hsrc]
  exact (h.src_of_empty ht' (hnil₁ hnil)).imp_right fun hz => ⟨t, hz⟩

theorem tail_other {q : ℕ} (hq : q < st.size) (hset : ∀ s < u.nSeqs, q ∉ setOf u s) (t : ℕ) :
    st₄.tail q = some t ↔ t < st.size ∧ q ∈ st₄.seqId t := by
  have hq₂ : q < x.st.size := h.size₂.symm ▸ hq
  obtain ⟨t, rfl⟩ := σ.surjective t
  rw [h.placed.tail_out q hset, h.moved.tail]
  constructor
  · intro htail
    obtain ⟨t', htail₂, heq⟩ := Option.map_eq_some_iff.mp htail
    obtain rfl := σ.injective heq
    obtain ⟨ht, hcase⟩ := h.claimed.claimed.tail_cases q hq₂ t' htail₂
    have hnot : q ∉ firsts u u.nSeqs := by
      intro hmem
      obtain ⟨s, hs, rfl⟩ := (mem_firsts).mp hmem
      exact hset s hs (h.ubatch.firstOf_mem hs)
    have hmem : q ∈ x.st.seqId t' := hcase.resolve_right fun hd => hnot hd.1
    refine ⟨h.perm_lt.mpr (h.size₂ ▸ ht), ?_⟩
    rw [(h.placed.cell_out (σ t') fun s hs hσ => ?_).1, h.moved.seqId]
    · exact hmem
    · -- the cell of a set has no other sequence
      obtain ⟨t'', -, htail'', halone⟩ := h.claimed.claimed.own _ (mem_firsts_of hs)
      have hsame : t'' = t' := σ.injective ((h.gathered s hs t'' htail'').trans hσ.symm)
      exact hnot (halone q hq₂ (hsame ▸ htail₂) ▸ (mem_firsts_of hs))
  · rintro ⟨ht, hmem⟩
    have hout : ∀ s < u.nSeqs, σ t ≠ s + x.min := by
      intro s hs heq
      rw [heq, (h.placed.cell_in s hs).1] at hmem
      exact hset s hs (mem_toFinset.mp hmem)
    rw [(h.placed.cell_out _ hout).1, h.moved.seqId] at hmem
    rw [(h.claimed.claimed.seq_tail t (h.size₂.symm ▸ h.perm_lt.mp ht) q hmem).2]
    rfl

theorem seq_lt {t q : ℕ} (ht : t < st.size) (hmem : q ∈ st₄.seqId t) : q < st.size := by
  by_cases hset : ∃ s < u.nSeqs, t = s + x.min
  · obtain ⟨s, hs, rfl⟩ := hset
    rw [(h.placed.cell_in s hs).1] at hmem
    exact h.ubatch.lt s hs q (mem_toFinset.mp hmem)
  · obtain ⟨t, rfl⟩ := σ.surjective t
    rw [(h.placed.cell_out _ fun s hs heq => hset ⟨s, hs, heq⟩).1, h.moved.seqId] at hmem
    exact h.size₂ ▸ (h.claimed.claimed.seq_tail t (h.size₂.symm ▸ h.perm_lt.mp ht) q hmem).1

theorem seq_other {t q : ℕ} (ht : t < st.size) (hset : ∀ s < u.nSeqs, t ≠ s + x.min) (hmem : q ∈ st₄.seqId t)
    {s : ℕ} (hs : s < u.nSeqs) : q ∉ setOf u s := by
  intro hqs
  obtain ⟨t, rfl⟩ := σ.surjective t
  rw [(h.placed.cell_out _ hset).1, h.moved.seqId] at hmem
  have htail := (h.claimed.claimed.seq_tail t (h.size₂.symm ▸ h.perm_lt.mp ht) q hmem).2
  by_cases hfirst : q ∈ firsts u u.nSeqs
  · exact h.not_claimed hset q hfirst htail
  · have hshared := (h.ubatch.mem_cases hs hqs).resolve_left fun heq => hfirst (heq ▸ mem_firsts_of hs)
    rw [h.claimed.claimed.tail_other q hfirst, h.detached.tail, if_pos hshared] at htail
    exact absurd htail (by simp)

theorem zeroed_outside {t : ℕ} (ht : t < st.size) (hout : t < x.min ∨ x.max < t) (hnil : st₄.seqId t = ∅)
    (hsrc : st₄.src t = some t) : Zeroed st t := by
  have hset : ∀ s < u.nSeqs, t ≠ s + x.min := by
    rintro s hs rfl
    have := h.fits hs
    omega
  rcases h.empty ht hset hnil with hnone | ⟨c, hc, hzero⟩
  · rw [hsrc] at hnone
    exact absurd hnone (by simp)
  · rw [hsrc, Option.some.injEq] at hc
    exact hc ▸ hzero

theorem pos_other {t : ℕ} (ht : t < st.size) (hset : ∀ s < u.nSeqs, t ≠ s + x.min) :
    0 ≤ st₄.pos t ↔ st₄.seqId t ≠ ∅ := by
  obtain ⟨t, rfl⟩ := σ.surjective t
  rw [(h.placed.cell_out _ hset).1, (h.placed.cell_out _ hset).2, h.moved.seqId, h.moved.pos]
  exact h.claimed.claimed.pos_iff t (h.size₂.symm ▸ h.perm_lt.mp ht) (h.not_claimed hset)

theorem src0_cases {rsZ : Option ℕ} {st' : Recurrent} {t : ℕ} (hin : x.min ≤ t ∧ t ≤ x.max)
    (hst : Staged rsZ { st₄ with rsZ := rsZ } (window x.min x.max) st')
    (hsome : st₄.src t = none → rsZ.isSome = true)
    (hsrc : st₄.src t = none ∨ ∃ c, st₄.src t = some c ∧ Zeroed st c) :
    (∃ z, rsZ = some z ∧ st'.src0 t = some z) ∨ ∃ c, st'.src0 t = some c ∧ Zeroed st c := by
  have hsrc0 : st'.src0 t = (st₄.src t).or rsZ := hst.src0 t ((mem_window h.min_le_max).mpr hin)
  rcases hsrc with hnone | ⟨c, hc, hzero⟩
  · obtain ⟨z, hz⟩ := Option.isSome_iff_exists.mp (hsome hnone)
    exact Or.inl ⟨z, hz, by rw [hsrc0, hnone, hz]; rfl⟩
  · exact Or.inr ⟨c, by rw [hsrc0, hc]; rfl, hzero⟩

theorem findZero_isSome {t : ℕ} (hin : x.min ≤ t ∧ t ≤ x.max) (hnone : st₄.src t = none) :
    (st₄.findZero x.min x.max).isSome = true := by
  refine exists_zero h.min_le_max (fun t' ht' hout => ?_) hin hnone
  exact h.src_outside (h.size₄ ▸ ht') hout

theorem slotted {st₅ : Recurrent}
    (hst : Staged (st₄.findZero x.min x.max) { st₄ with rsZ := st₄.findZero x.min x.max } (window x.min x.max) st₅) :
    Slotted st u { st₅ with head := x.min, n := x.max + 1 - x.min, used := st₅.countUsed } := by
  have hmm := h.min_le_max
  have hlt := h.max_lt
  have hpos := h.ubatch.nSeqs_pos
  have hwin : ∀ t, t ∈ window x.min x.max ↔ x.min ≤ t ∧ t ≤ x.max := fun t => mem_window hmm
  have hsize : st₅.size = st.size := hst.size.trans h.size₄
  have hset : ∀ s, x.min + s = s + x.min := fun s => Nat.add_comm _ _
  have hother : ∀ t, (∀ s < u.nSeqs, t ≠ x.min + s) → ∀ s < u.nSeqs, t ≠ s + x.min :=
    fun t ht s hs => hset s ▸ ht s hs
  refine ⟨hsize, ?_, ?_, fun s hs => ?_, fun s hs => ?_, fun s hs q hq => ?_, fun q hq hout t => ?_, fun t ht q hq => ?_,
    fun t ht hout q hq s hs => ?_, fun t ht hout => ?_, rfl, fun t ht => ?_, fun q hq hns c hc => ?_,
    fun s hs hno => ?_, fun t hin hnil => ?_, fun t ht hout hnil hsrc => ?_, fun z hz => ?_,
    fun q hq hns c hc hz => ?_⟩
  · have := (h.fits (Nat.sub_lt hpos Nat.one_pos)).2
    show u.nSeqs ≤ x.max + 1 - x.min
    omega
  · show x.min + (x.max + 1 - x.min) ≤ st.size
    omega
  · show st₅.seqId (x.min + s) = _
    rw [hst.seqId, hset]
    exact (h.placed.cell_in s hs).1
  · show st₅.pos (x.min + s) = _
    rw [hst.pos, hset]
    exact (h.placed.cell_in s hs).2
  · show st₅.tail q = some (x.min + s)
    rw [hst.tail, hset]
    exact h.placed.tail_in s hs q hq
  · show st₅.tail q = some t ↔ t < st.size ∧ q ∈ st₅.seqId t
    rw [hst.tail, hst.seqId]
    exact h.tail_other hq hout t
  · refine h.seq_lt ht ?_
    rw [← show st₅.seqId t = st₄.seqId t from hst.seqId t]
    exact hq
  · exact h.seq_other ht (hother t hout) ((hst.seqId t) ▸ hq : q ∈ st₄.seqId t) hs
  · show 0 ≤ st₅.pos t ↔ st₅.seqId t ≠ ∅
    rw [hst.pos, hst.seqId]
    exact h.pos_other ht (hother t hout)
  · show st₅.src t = none ∨ st₅.src t = some t
    by_cases hin : t ∈ window x.min x.max
    · exact Or.inr (hst.src_in t hin)
    · rw [(hst.src_out t hin).1]
      rw [hwin] at hin
      exact h.src_outside ht (by omega)
  · obtain ⟨d, htail, hd, hsrc, hstay⟩ := h.kept hq hns hc
    refine ⟨d, (hst.tail q).trans htail, ?_⟩
    by_cases hin : x.min ≤ d ∧ d ≤ x.max
    · refine Or.inr ⟨⟨hin.1, ?_⟩, ?_⟩
      · show d < x.min + (x.max + 1 - x.min)
        omega
      · have hsrc0 : st₅.src0 d = (st₄.src d).or _ := hst.src0 d ((hwin d).mpr hin)
        show st₅.src0 d = some c
        rw [hsrc0, hsrc]
        rfl
    · refine Or.inl ⟨?_, hstay (by omega)⟩
      show d < x.min ∨ x.min + (x.max + 1 - x.min) ≤ d
      omega
  · have hfit := h.fits hs
    have hrsZ : st₅.rsZ = st₄.findZero x.min x.max := hst.rsZ_eq
    show (∃ z, st₅.rsZ = some z ∧ st₅.src0 (x.min + s) = some z) ∨ ∃ c, st₅.src0 (x.min + s) = some c ∧ Zeroed st c
    rw [hrsZ, hset]
    exact h.src0_cases hfit hst (h.findZero_isSome hfit) (h.fresh hs hno)
  · have hin' : x.min ≤ t ∧ t ≤ x.max := by
      have h2 : t < x.min + (x.max + 1 - x.min) := hin.2
      exact ⟨hin.1, by omega⟩
    have hrsZ : st₅.rsZ = st₄.findZero x.min x.max := hst.rsZ_eq
    have hnil₄ : st₄.seqId t = ∅ := (hst.seqId t).symm.trans hnil
    have hfree : ∀ s < u.nSeqs, t ≠ s + x.min := by
      intro s hs heq
      rw [heq, (h.placed.cell_in s hs).1, toFinset_eq_empty_iff] at hnil₄
      exact h.ubatch.ne s hs hnil₄
    show (∃ z, st₅.rsZ = some z ∧ st₅.src0 t = some z) ∨ ∃ c, st₅.src0 t = some c ∧ Zeroed st c
    rw [hrsZ]
    exact h.src0_cases hin' hst (h.findZero_isSome hin') (h.empty (by omega) hfree hnil₄)
  · have hout' : t < x.min ∨ x.max < t := by
      have h2 : t < x.min ∨ x.min + (x.max + 1 - x.min) ≤ t := hout
      omega
    have hwin' : t ∉ window x.min x.max := fun hin => by
      rw [hwin] at hin
      omega
    refine h.zeroed_outside ht hout' ((hst.seqId t).symm.trans hnil) ?_
    exact (hst.src_out t hwin').1.symm.trans hsrc
  · have hz' : st₄.findZero x.min x.max = some z := hst.rsZ_eq.symm.trans hz
    have hin := (hwin z).mp (mem_of_find?_eq_some hz')
    refine ⟨hin.1, ?_⟩
    show z < x.min + (x.max + 1 - x.min)
    omega
  · -- a cell with a state is the source of the cell the state is now in
    have hz' : st₄.findZero x.min x.max = some c := hst.rsZ_eq.symm.trans hz
    have hzero : st₄.refcount c = 0 := by simpa using find?_some hz'
    obtain ⟨d, -, hd, hsrc, -⟩ := h.kept hq hns hc
    exact (refcount_eq_zero).mp hzero d (h.size₄.symm ▸ hd) hsrc

end Pipeline

/-! ### Putting the loops together -/

theorem emplace_eq {u : Ubatch} (hok : (st.detachShared (members u)).1 = true) :
    let st₁ := (st.detachShared (members u)).2
    let x := (st₁.claimAll u).value
    let st₄ := (List.range u.nSeqs).foldl (place u x.min) ((List.range u.nSeqs).foldl (gather u x.min) x.st)
    let rsZ := st₄.findZero x.min x.max
    let staged := Checked.loop (stage rsZ) { st₄ with rsZ := rsZ } (window x.min x.max)
    (st.emplace u).checks = (u.bEqualSeqs && ((st₁.claimAll u).checks && staged.checks)) ∧
      (st.emplace u).value = (decide (u.nSeqs ≤ x.max + 1 - x.min),
        { staged.value with head := x.min, n := x.max + 1 - x.min, used := staged.value.countUsed }) := by
  intro st₁ x st₄ rsZ staged
  unfold emplace
  rw [bind_checks, bind_value]
  dsimp only
  rw [if_neg (by simpa using hok), bind_checks, bind_value, bind_checks, bind_value]
  refine ⟨?_, rfl⟩
  rw [check_checks, pure_checks, Bool.and_true]

theorem emplace_spec {u : Ubatch} (h : Valid st) (hu : SlotUbatch st.size u) :
    (st.emplace u).checks = true ∧ (st.emplace u).value.1 = true ∧ Slotted st u (st.emplace u).value.2 := by
  have hmem : ∀ x ∈ members u, x.2 < st.size := by
    intro x hx
    obtain ⟨s, hs, hx⟩ := mem_flatMap.mp hx
    obtain ⟨y, hy, rfl⟩ := mem_map.mp hx
    exact hu.lt s (List.mem_range.mp hs) _ (fst_mem_of_mem_zipIdx hy)
  obtain ⟨hok, hexact, hdet, hhead⟩ := detachShared_spec h.exact (members u) hmem
  rw [members_shared] at hdet
  obtain ⟨hchecks, hvalue⟩ := emplace_eq hok
  set st₁ := (st.detachShared (members u)).2 with hst₁
  have hu₁ : SlotUbatch st₁.size u := hdet.size.symm ▸ hu
  obtain ⟨hclaim, hloop⟩ := claimAll_spec hexact (by rw [hhead, hdet.size]; exact h.head_le) hu₁
  set x := (st₁.claimAll u).value with hx
  -- the cell of each set
  have hcell : ∀ s, ∃ t, s < u.nSeqs → x.st.tail (firstOf u s) = some t ∧ x.min ≤ t ∧ t ≤ x.max := by
    intro s
    by_cases hs : s < u.nSeqs
    · obtain ⟨t, ht⟩ := hloop.bounds s hs
      exact ⟨t, fun _ => ht⟩
    · exact ⟨0, fun hs' => absurd hs' hs⟩
  choose f hf using hcell
  have hinj : ∀ s < u.nSeqs, ∀ s' < u.nSeqs, f s = f s' → s = s' := by
    intro s hs s' hs' heq
    obtain ⟨t, -, htail, halone⟩ := hloop.claimed.own _ (mem_firsts_of hs)
    have htail' : x.st.tail (firstOf u s') = some t := by
      rw [(hf s' hs').1, ← heq, ← (hf s hs).1, htail]
    have hlt : firstOf u s' < x.st.size := hloop.claimed.size.symm ▸ hu₁.firstOf_lt hs'
    exact (hu.firstOf_inj hs' hs (halone _ hlt htail')).symm
  obtain ⟨σ, hmoved, hplace⟩ := gather_spec (fun s hs => (hf s hs).1) (fun s hs => (hf s hs).2) hinj
  have hpipe : Pipeline st u st₁ x σ _ _ := {
    valid := h
    ubatch := hu
    detached := hdet
    exact₁ := hexact
    claimed := hloop
    moved := hmoved
    gathered := fun s hs t ht => by
      rw [(hf s hs).1, Option.some.injEq] at ht
      rw [← ht, hplace s hs]
    placed := place_spec hu x.min _ }
  obtain ⟨hstage, hstaged⟩ := stageAll_spec (window x.min x.max) nodup_range'
    { (List.range u.nSeqs).foldl (place u x.min) ((List.range u.nSeqs).foldl (gather u x.min) x.st) with
      rsZ := findZero _ x.min x.max }
    fun i hi hnone => hpipe.findZero_isSome ((mem_window hpipe.min_le_max).mp hi) hnone
  have hslotted := hpipe.slotted hstaged
  rw [hchecks, hvalue]
  refine ⟨?_, decide_eq_true hslotted.n_ge, hslotted⟩
  rw [hu.equal, hclaim, hstage]
  rfl

/-! ### The head -/

theorem resetHead_valid (u : Ubatch) (h : Valid st) : Valid (st.resetHead u) := by
  unfold resetHead
  split
  · exact ⟨⟨h.exact.tail_iff, h.exact.seq_lt, h.exact.pos_iff, h.exact.used_eq⟩, h.src, Nat.zero_le _⟩
  · exact h

theorem Slotted.of_resetHead {u : Ubatch} {st' : Recurrent} (h : Slotted (st.resetHead u) u st') :
    Slotted st u st' := by
  unfold resetHead at h
  split at h
  · exact ⟨h.size, h.n_ge, h.n_le, h.set_seqId, h.set_pos, h.set_tail, h.tail_other, h.seq_lt, h.seq_other,
      h.pos_other, h.used_eq, h.src, h.kept, h.fresh, h.empty, h.outside, h.zero_in, h.zero_dead⟩
  · exact h

/-- **`find_slot`** meets its checks, succeeds, and does what `Slotted` says. -/
theorem findSlot_spec {u : Ubatch} (h : Valid st) (hu : SlotUbatch st.size u) :
    (st.findSlot u).checks = true ∧ (st.findSlot u).value.1 = true ∧ Slotted st u (st.findSlot u).value.2 := by
  have hsize : (st.resetHead u).size = st.size := by
    unfold resetHead
    split
    · rfl
    · rfl
  obtain ⟨hchecks, hok, hslotted⟩ := emplace_spec (resetHead_valid u h) (hsize.symm ▸ hu)
  exact ⟨hchecks, hok, hslotted.of_resetHead⟩

namespace Slotted

variable {u : Ubatch} {st' : Recurrent} (h : Slotted st u st') (hu : SlotUbatch st.size u)
include h hu

theorem tail_iff {q : ℕ} (hq : q < st.size) (t : ℕ) : st'.tail q = some t ↔ t < st.size ∧ q ∈ st'.seqId t := by
  by_cases hset : ∃ s < u.nSeqs, q ∈ setOf u s
  · obtain ⟨s, hs, hqs⟩ := hset
    rw [h.set_tail s hs q hqs, Option.some.injEq]
    constructor
    · rintro rfl
      have h1 := h.n_ge
      have h2 := h.n_le
      exact ⟨by omega, by rw [h.set_seqId s hs]; exact mem_toFinset.mpr hqs⟩
    · rintro ⟨ht, hmem⟩
      by_contra hne
      have hcell : ∃ s' < u.nSeqs, t = st'.head + s' := by
        by_contra hno
        exact h.seq_other t ht (fun s' hs' heq => hno ⟨s', hs', heq⟩) q hmem s hs hqs
      obtain ⟨s', hs', rfl⟩ := hcell
      rw [h.set_seqId s' hs', mem_toFinset] at hmem
      exact hu.disjoint s hs s' hs' (fun heq => hne (by rw [heq])) q hqs hmem
  · exact h.tail_other q hq (fun s hs hqs => hset ⟨s, hs, hqs⟩) t

theorem exact (hpos : ∀ s < u.nSeqs, 0 ≤ lastPos u s) : Exact st' := by
  refine ⟨fun q hq t => ?_, fun t ht q hq => ?_, fun t ht => ?_, h.used_eq⟩
  · rw [h.size] at hq ⊢
    exact h.tail_iff hu hq t
  · rw [h.size] at ht ⊢
    exact h.seq_lt t ht q hq
  · rw [h.size] at ht
    by_cases hcell : ∃ s < u.nSeqs, t = st'.head + s
    · obtain ⟨s, hs, rfl⟩ := hcell
      rw [h.set_pos s hs, h.set_seqId s hs]
      refine ⟨fun _ hnil => hu.ne s hs (toFinset_eq_empty_iff _ |>.mp hnil), fun _ => hpos s hs⟩
    · exact h.pos_other t ht fun s hs heq => hcell ⟨s, hs, heq⟩

theorem valid (hpos : ∀ s < u.nSeqs, 0 ≤ lastPos u s) : Valid st' := by
  refine ⟨h.exact hu hpos, fun t ht => ?_, ?_⟩
  · exact h.src t (h.size ▸ ht)
  · have := h.n_le
    rw [h.size]
    omega

end Slotted

end Recurrent
