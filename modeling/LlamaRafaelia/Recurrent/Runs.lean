import LlamaRafaelia.Recurrent.Slot
import LlamaRafaelia.Batch.Partition

/-!
# Runs of the recurrent memory

A run calls `clear`, `seq_rm`, `seq_cp`, `seq_keep` and `find_slot`.  Its states are `Valid` unless `seq_rm` removes
all sequences at once, which leaves their tails behind, or a set of a ubatch ends at position `-1`, which makes an
occupied cell look empty.

* **`reach_exact`** — the tail table is exact in every state of such a run.
* **`removeAll_stale`** — without the first condition it is not.
* **`findSlot_plan`** — from every valid state, `find_slot` meets its checks and leaves the right copy plan.
* **`findSlot_drops`** — a sequence that a ubatch lists behind the first one of its set loses its state.
-/

namespace Recurrent

open List Checked BatchAllocr Splitter

variable {st st' : Recurrent}

/-! ### The sources -/

/-- A cell of `st'` has the source it had in `st`, or none; a cell that became empty has none. -/
structure Settled (st st' : Recurrent) : Prop where
  size : st'.size = st.size
  head_le : st'.head ≤ st.head
  src : ∀ t < st.size, st'.src t = none ∨ st'.src t = st.src t ∧ (st'.seqId t = ∅ → st.seqId t = ∅)

theorem Settled.refl (st : Recurrent) : Settled st st := ⟨rfl, le_refl _, fun _ _ => Or.inr ⟨rfl, id⟩⟩

theorem Settled.valid (h : Settled st st') (hv : Valid st) (hexact : Exact st') : Valid st' := by
  refine ⟨hexact, fun t ht => ?_, ?_⟩
  · rw [h.size] at ht
    rcases h.src t ht with hnone | ⟨hsame, -⟩
    · exact Or.inl hnone
    · rw [hsame]
      exact hv.src t ht
  · rw [h.size]
    exact h.head_le.trans hv.head_le

theorem Settled.zeroed (h : Settled st st') {c : ℕ} (hz : Zeroed st' c) : Zeroed st c := by
  obtain ⟨hc, hnil, hsrc⟩ := hz
  rw [h.size] at hc
  rcases h.src c hc with hnone | ⟨hsame, hempty⟩
  · rw [hsrc] at hnone
    exact absurd hnone (by simp)
  · exact ⟨hc, hempty hnil, hsame ▸ hsrc⟩

theorem clear_settled (st : Recurrent) : Settled st st.clear := ⟨rfl, Nat.zero_le _, fun _ _ => Or.inl rfl⟩

theorem CellLoop.settled {step : Recurrent × ℕ → ℕ → Recurrent × ℕ} {f : ℕ → MemCell → MemCell}
    (h : CellLoop step f) (hpos : ∀ t < st.size, 0 ≤ st.pos t ↔ st.seqId t ≠ ∅) (hused : st.used = st.countUsed)
    (hf : ∀ i c, (f i c).src = none ∨ (f i c).src = c.src ∧ ((f i c).seqId = ∅ → c.seqId = ∅)) :
    Settled st (moveHead ((List.range st.size).foldl step (st, st.size))) := by
  obtain ⟨hsize, hcells, -, -⟩ := h.exact hpos hused
  refine ⟨hsize, h.head_le hpos hused, fun t ht => ?_⟩
  rw [src, seqId, hcells t ht]
  exact hf t (st.cells t)

theorem rmCell_src (id p0 p1 : ℤ) (c : MemCell) : (rmCell id p0 p1 c).src = none ∨
    (rmCell id p0 p1 c).src = c.src ∧ ((rmCell id p0 p1 c).seqId = ∅ → c.seqId = ∅) := by
  unfold rmCell
  split
  · split
    · exact Or.inl rfl
    · next hne => exact Or.inr ⟨rfl, fun hnil => absurd hnil hne⟩
  · exact Or.inr ⟨rfl, fun hnil => hnil⟩

theorem keepCell_src (id : ℤ) (i : ℕ) (c : MemCell) : (keepCell id i c).src = none ∨
    (keepCell id i c).src = c.src ∧ ((keepCell id i c).seqId = ∅ → c.seqId = ∅) := by
  unfold keepCell
  dsimp only
  split
  · exact Or.inl rfl
  · exact Or.inr ⟨rfl, fun hnil => absurd hnil (Finset.singleton_ne_empty _)⟩

theorem seqKeep_settled (h : Exact st) (id : ℤ) : Settled st (st.seqKeep id) :=
  (seqKeep_loop id).settled h.pos_iff h.used_eq (keepCell_src id)

theorem seqRm_settled (h : Exact st) (id p0 p1 : ℤ) : Settled st (st.seqRm id p0 p1).2 := by
  have hp0 := rangeLo_nonneg p0
  have hcells : Settled st (st.seqRmCells id (KvCache.rangeLo p0) (KvCache.rangeHi p1)) :=
    (seqRm_loop id hp0 _).settled h.pos_iff h.used_eq fun _ => rmCell_src id _ _
  unfold seqRm
  dsimp only
  split
  · exact Settled.refl st
  split
  · split
    · exact hcells
    · next t htail =>
      split
      · exact Settled.refl st
      split
      · -- the tail is changed first
        have hcount : (st.setTail id.toNat none).countUsed = st.countUsed :=
          countUsed_congr rfl fun t _ => by rw [setTail_seqId]
        have hst : Settled (st.setTail id.toNat none)
            ((st.setTail id.toNat none).seqRmCells id (KvCache.rangeLo p0) (KvCache.rangeHi p1)) :=
          (seqRm_loop id hp0 _).settled (fun t ht => by rw [setTail_pos, setTail_seqId]; exact h.pos_iff t ht)
          (h.used_eq.trans hcount.symm) fun _ => rmCell_src id _ _
        exact ⟨hst.size, hst.head_le, fun t ht => by simpa using hst.src t ht⟩
      · exact hcells
  · split
    · exact Settled.refl st
    · exact hcells

theorem detach_settled (s : ℕ) : Settled st (st.detach s) := by
  refine ⟨detach_size s, (detach_head s).le, fun t _ => ?_⟩
  by_cases htail : st.tail s = some t
  · obtain ⟨hseq, hkept, hgone⟩ := detach_at htail
    by_cases hnil : (st.seqId t).erase s = ∅
    · exact Or.inl (hgone hnil).2.1
    · exact Or.inr ⟨(hkept hnil).2.1, fun hnil' => absurd (hseq.symm.trans hnil') hnil⟩
  · obtain ⟨hseq, -, hsrc⟩ := detach_frame htail
    exact Or.inr ⟨hsrc, fun hnil => hseq.symm.trans hnil⟩

theorem seqCp_settled (st : Recurrent) (src dst p0 p1 : ℤ) : Settled st (st.seqCp src dst p0 p1) := by
  unfold seqCp
  split
  · exact Settled.refl st
  split
  · have hdet : Settled st (st.detach dst.toNat) := detach_settled dst.toNat
    dsimp only
    cases htail : (st.detach dst.toNat).tail src.toNat with
    | none => exact hdet
    | some t =>
      refine ⟨hdet.size, hdet.head_le, fun t' ht' => ?_⟩
      rw [setTail_src, setSeqId_src, setTail_seqId, setSeqId_seqId]
      refine (hdet.src t' ht').imp_right fun hsame => ⟨hsame.1, fun hnil => hsame.2 ?_⟩
      split at hnil
      · exact absurd hnil (Finset.insert_ne_empty _ _)
      · exact hnil
  · exact Settled.refl st

/-! ### The ubatches of a run -/

theorem equal_setOrder {a : BatchAllocr} (hn : 0 < a.nTokens) {nUbatch : ℕ} {sequential : Bool} {placed : List ℕ}
    (hr : Rounds a ((equal sequential).pick nUbatch) placed) : SetOrder a placed := by
  refine hr.invariant (SetOrder a) (fun _ _ _ _ _ hmem => absurd hmem (by simp)) fun placed p hord hp => ?_
  obtain ⟨-, -, k, -, hidxs, -⟩ := equal_pick hn hord hp
  rw [hidxs]
  exact hord.setIdxs _ k

theorem ubatchOf_seqAt (a : BatchAllocr) (p : Pick) {i : ℕ} (hi : i < p.idxs.length) :
    (a.ubatchOf p).seqAt i = a.seqAt (p.idxs.getD i 0) := by
  show (p.idxs.map a.seqAt).getD i [] = _
  simp [getD_eq_getElem?_getD, hi]

theorem equal_setOf {a : BatchAllocr} (hn : 0 < a.nTokens) {nUbatch : ℕ} {sequential : Bool} {placed : List ℕ}
    (hr : Rounds a ((equal sequential).pick nUbatch) placed) {p : Pick}
    (hp : (equal sequential).pick nUbatch (a.after placed) = some p) :
    ∃ cur : List (Finset ℕ), Selected a placed cur ∧ 0 < cur.length ∧ (a.ubatchOf p).nSeqs = cur.length ∧
      ∀ s (hs : s < cur.length), ∃ i < a.nTokens, setOf (a.ubatchOf p) s = a.seqAt i ∧
        a.seqSet i = cur.get ⟨s, hs⟩ := by
  obtain ⟨hcur, hseqs, k, hk, hidxs, hle⟩ := equal_pick hn (equal_setOrder hn hr) hp
  set cur := (a.after placed).equalSets nUbatch sequential (List.range a.nTokens) [] (-1) with hcurdef
  have hlen : ∀ set ∈ cur, ((a.unusedIn placed set).take k).length = k := by
    intro set hset
    rw [length_take, Nat.min_eq_left (hle set hset)]
  have hblocks : p.idxs.length = cur.length * k := by rw [hidxs, BatchAllocr.setIdxs, length_flatMap_blocks _ hlen]
  have htokens : (a.ubatchOf p).nSeqTokens = k := by
    show p.idxs.length / p.nSeqs = k
    rw [hblocks, hseqs, Nat.mul_div_cancel_left _ (length_pos_iff.mpr hcur)]
  refine ⟨cur, equalSets_selected placed nUbatch sequential, length_pos_iff.mpr hcur, hseqs, fun s hs => ?_⟩
  have hin : s * k < p.idxs.length := by
    rw [hblocks]
    exact Nat.mul_lt_mul_of_pos_right hs hk
  have hget : p.idxs.getD (s * k) 0 ∈ (a.unusedIn placed (cur.get ⟨s, hs⟩)).take k := by
    have hblock := getD_flatMap_blocks cur hlen s hs 0 hk
    rw [Nat.add_zero] at hblock
    rw [hidxs, BatchAllocr.setIdxs, hblock, getD_eq_getElem _ _ (by rw [hlen _ (get_mem cur _)]; exact hk)]
    exact getElem_mem _
  obtain ⟨hlt, hset, -⟩ := (mem_unusedIn).mp (mem_of_mem_take hget)
  refine ⟨p.idxs.getD (s * k) 0, hlt, ?_, hset⟩
  rw [setOf, htokens, ubatchOf_seqAt a p hin]

/-- A ubatch that `split_equal` or `split_seq` cuts from an accepted batch. -/
def Produced (u : Ubatch) : Prop :=
  ∃ (nPosPerEmbd nVocab : ℕ) (b : Batch) (memory : Option Memory) (nSeqMax : ℕ) (outputAll : Bool)
    (a : BatchAllocr) (sp : Splitter) (nUbatch fuel : ℕ),
    (init nPosPerEmbd nVocab b memory nSeqMax outputAll).checks = true ∧
      (init nPosPerEmbd nVocab b memory nSeqMax outputAll).value = .ok a ∧ sp ≠ .simple ∧
      u ∈ (splitLoop (sp.split nUbatch) fuel a.splitReset []).value.1

theorem mem_pickLoop {a : BatchAllocr} {pick : BatchAllocr → Option Pick} (fuel : ℕ) {placed : List ℕ}
    (hr : Rounds a pick placed) {p : Pick} (hp : p ∈ pickLoop pick a fuel placed) :
    ∃ placed', Rounds a pick placed' ∧ pick (a.after placed') = some p := by
  induction fuel generalizing placed with
  | zero => exact absurd hp (by simp [pickLoop])
  | succ fuel ih =>
    rw [pickLoop] at hp
    cases hpick : pick (a.after placed) with
    | none =>
      rw [hpick] at hp
      exact absurd hp (by simp)
    | some q =>
      rw [hpick] at hp
      rcases mem_cons.mp hp with rfl | hp
      · exact ⟨placed, hr, hpick⟩
      · exact ih (hr.round hpick) hp

theorem setOf_mem (u : Ubatch) {s q : ℕ} (hq : q ∈ setOf u s) : ∃ ids ∈ u.seqId, q ∈ ids := by
  rw [setOf, Ubatch.seqAt, getD_eq_getElem?_getD] at hq
  cases hget : u.seqId[s * u.nSeqTokens]? with
  | none =>
    rw [hget] at hq
    exact absurd hq (by simp)
  | some ids =>
    rw [hget] at hq
    exact ⟨ids, mem_of_getElem? hget, hq⟩

theorem Produced.slotUbatch {u : Ubatch} (h : Produced u) {size : ℕ} (hlt : ∀ ids ∈ u.seqId, ∀ q ∈ ids, q < size)
    (hne : ∀ s < u.nSeqs, setOf u s ≠ []) : SlotUbatch size u := by
  obtain ⟨nPosPerEmbd, nVocab, b, memory, nSeqMax, outputAll, a, sp, nUbatch, fuel, hc, hinit, hsp, hu⟩ := h
  have hn := init_nTokens_pos hc hinit
  rw [splitReset_eq, splitLoop_value, nil_append] at hu
  obtain ⟨p, hp, rfl⟩ := mem_map.mp hu
  obtain ⟨placed, hr, hpick⟩ := mem_pickLoop fuel Rounds.nil hp
  have hlt' : ∀ s < (a.ubatchOf p).nSeqs, ∀ q ∈ setOf (a.ubatchOf p) s, q < size := by
    intro s _ q hq
    obtain ⟨ids, hids, hq⟩ := setOf_mem _ hq
    exact hlt ids hids q hq
  cases sp with
  | simple => exact absurd rfl hsp
  | equal sequential =>
    obtain ⟨cur, hsel, hpos, hseqs, hsets⟩ := equal_setOf hn hr hpick
    have hequal : p.equalSeqs = true := by
      simp only [Splitter.pick] at hpick
      split at hpick
      · exact absurd hpick (by simp)
      split at hpick
      · exact absurd hpick (by simp)
      · rw [Option.some.injEq] at hpick
        rw [← hpick]
    refine ⟨hequal, hseqs ▸ hpos, hne, hlt', fun s hs s' hs' hdiff q hq hq' => ?_⟩
    obtain ⟨i, hi, hset, hcur⟩ := hsets s (hseqs ▸ hs)
    obtain ⟨i', hi', hset', hcur'⟩ := hsets s' (hseqs ▸ hs')
    -- the selected sets are disjoint, in both orders
    have hdisj : ∀ x y (hx : x < cur.length) (hy : y < cur.length), x ≠ y →
        cur.get ⟨x, hx⟩ ∩ cur.get ⟨y, hy⟩ = ∅ := by
      intro x y hx hy hxy
      rcases Nat.lt_or_gt_of_ne hxy with hlt | hgt
      · exact pairwise_iff_get.mp hsel.disjoint ⟨x, hx⟩ ⟨y, hy⟩ hlt
      · rw [Finset.inter_comm]
        exact pairwise_iff_get.mp hsel.disjoint ⟨y, hy⟩ ⟨x, hx⟩ hgt
    have hempty := hdisj s s' (hseqs ▸ hs) (hseqs ▸ hs') hdiff
    rw [hset] at hq
    rw [hset'] at hq'
    have hmem : q ∈ cur.get ⟨s, hseqs ▸ hs⟩ ∩ cur.get ⟨s', hseqs ▸ hs'⟩ :=
      Finset.mem_inter.mpr ⟨hcur ▸ mem_toFinset.mpr hq, hcur' ▸ mem_toFinset.mpr hq'⟩
    rw [hempty] at hmem
    exact absurd hmem (Finset.notMem_empty q)
  | seq =>
    have hone : p.nSeqs = 1 ∧ p.equalSeqs = true := by
      simp only [Splitter.pick] at hpick
      split at hpick
      · exact absurd hpick (by simp)
      · rw [Option.some.injEq] at hpick
        rw [← hpick]
        exact ⟨rfl, rfl⟩
    have hnSeqs : (a.ubatchOf p).nSeqs = 1 := hone.1
    exact ⟨hone.2, hnSeqs ▸ Nat.one_pos, hne, hlt', fun s hs s' hs' hdiff => absurd (show s = s' by omega) hdiff⟩

/-! ### Runs -/

/-- A call on the recurrent memory. -/
inductive Op where
  | clear
  | seqRm (id p0 p1 : ℤ)
  | seqCp (src dst p0 p1 : ℤ)
  | seqKeep (id : ℤ)
  | findSlot (u : Ubatch)

def Op.apply (st : Recurrent) : Op → Recurrent
  | .clear => st.clear
  | .seqRm id p0 p1 => (st.seqRm id p0 p1).2
  | .seqCp src dst p0 p1 => st.seqCp src dst p0 p1
  | .seqKeep id => st.seqKeep id
  | .findSlot u => (st.findSlot u).value.2

/-- What the callers keep to: ubatches come from the splitters and their sequence ids are small enough. -/
def Op.Allowed (st : Recurrent) : Op → Prop
  | .findSlot u => Produced u ∧ ∀ ids ∈ u.seqId, ∀ q ∈ ids, q < st.size
  | _ => True

def Op.Safe (st : Recurrent) : Op → Prop
  | .seqRm id p0 p1 => RmSafe st id p0 p1
  | .findSlot u => ∀ s < u.nSeqs, setOf u s ≠ [] ∧ 0 ≤ lastPos u s
  | _ => True

/-- The states that runs reach from the constructor by allowed calls that meet `ok`. -/
inductive Reach (memSize : ℕ) (ok : Recurrent → Op → Prop) : Recurrent → Prop
  | new : Reach memSize ok (new memSize)
  | step {st : Recurrent} (h : Reach memSize ok st) (op : Op) (hop : op.Allowed st) (hok : ok st op) :
      Reach memSize ok (op.apply st)

theorem new_valid (memSize : ℕ) : Valid (new memSize) :=
  ⟨new_exact memSize, fun _ _ => Or.inl rfl, Nat.zero_le _⟩

theorem Valid.step (h : Valid st) (op : Op) (hop : op.Allowed st) (hok : op.Safe st) : Valid (op.apply st) := by
  cases op with
  | clear => exact (clear_settled st).valid h (clear_exact st)
  | seqRm id p0 p1 => exact (seqRm_settled h.exact id p0 p1).valid h (seqRm_exact h.exact hok)
  | seqCp src dst p0 p1 => exact (seqCp_settled st src dst p0 p1).valid h (seqCp_exact h.exact src dst p0 p1)
  | seqKeep id => exact (seqKeep_settled h.exact id).valid h (seqKeep_exact h.exact id)
  | findSlot u =>
    have hu := hop.1.slotUbatch hop.2 fun s hs => (hok s hs).1
    exact (findSlot_spec h hu).2.2.valid hu fun s hs => (hok s hs).2

theorem Reach.valid {memSize : ℕ} (h : Reach memSize (fun st op => op.Safe st) st) : Valid st := by
  induction h with
  | new => exact new_valid memSize
  | step _ op hop hok ih => exact ih.step op hop hok

/-- **The tail table of every run** whose calls are safe. -/
theorem reach_exact {memSize : ℕ} (h : Reach memSize (fun st op => op.Safe st) st) :
    Exact st ∧ ∀ s t t', t < st.size → t' < st.size → s ∈ st.seqId t → s ∈ st.seqId t' → t = t' :=
  ⟨h.valid.exact, fun _ _ _ ht ht' hs hs' => h.valid.exact.unique ht ht' hs hs'⟩

/-! ### Two sequences -/

theorem pairIds_length : ([[0], [1]] : List (List ℤ)).length = ([0, 0] : List ℤ).length := rfl

def pairBatch : Batch := .text [0, 0] [[0], [1]] pairIds_length

def pairAccepted : BatchAllocr := (sanitize 1 pairBatch none 2 false).splitReset

/-- The ubatches that `split_equal` makes of `pairBatch`. -/
def pairSplit : List Ubatch := (splitLoop ((equal true).split 2) 3 pairAccepted.splitReset []).value.1

def pairUbatch : Ubatch := pairSplit.getD 0 (ubatchReserve 1 1 1)

theorem pair_produced : Produced pairUbatch := by
  refine ⟨1, 1, pairBatch, none, 2, false, pairAccepted, .equal true, 2, 3, by decide +kernel,
    init_eq (by decide +kernel), by decide, ?_⟩
  have hlen : 0 < pairSplit.length := by decide +kernel
  show pairSplit.getD 0 _ ∈ pairSplit
  rw [getD_eq_getElem _ _ hlen]
  exact getElem_mem hlen

theorem pair_allowed {st : Recurrent} (hsize : st.size = 2) : (Op.findSlot pairUbatch).Allowed st := by
  refine ⟨pair_produced, ?_⟩
  rw [hsize]
  decide +kernel

theorem pair_safe (st : Recurrent) : (Op.findSlot pairUbatch).Safe st := by
  show ∀ s < pairUbatch.nSeqs, setOf pairUbatch s ≠ [] ∧ 0 ≤ lastPos pairUbatch s
  decide +kernel

def paired : Recurrent := (Op.findSlot pairUbatch).apply (new 2)

theorem paired_reach : Reach 2 (fun st op => op.Safe st) paired :=
  Reach.new.step (Op.findSlot pairUbatch) (pair_allowed rfl) (pair_safe _)

/-- Sequence 1 becomes a copy of sequence 0, and then both get a token. -/
theorem reach_exact_pair :
    Exact ((Op.findSlot pairUbatch).apply ((Op.seqCp 0 1 (-1) (-1)).apply paired)) := by
  have hsize : ((Op.seqCp 0 1 (-1) (-1)).apply paired).size = 2 := by decide +kernel
  have h := (paired_reach.step (Op.seqCp 0 1 (-1) (-1)) trivial trivial).step (Op.findSlot pairUbatch)
    (pair_allowed hsize) (pair_safe _)
  exact (reach_exact h).1

def unpaired : Recurrent := (Op.seqRm (-1) (-1) (-1)).apply paired

/-- **A stale tail.**  `seq_rm` of all sequences empties the cells but not the tails; the next `find_slot` of
one of the sequences aborts. -/
theorem removeAll_stale : Reach 2 (fun _ _ => True) unpaired ∧ unpaired.tail 0 = some 0 ∧ unpaired.seqId 0 = ∅ ∧
    (unpaired.findSlot pairUbatch).checks = false ∧
    ¬ ∀ s < unpaired.size, ∀ t, unpaired.tail s = some t ↔ t < unpaired.size ∧ s ∈ unpaired.seqId t := by
  have htail : unpaired.tail 0 = some 0 := by decide +kernel
  have hseq : unpaired.seqId 0 = ∅ := by decide +kernel
  have hsize : unpaired.size = 2 := by decide +kernel
  refine ⟨?_, htail, hseq, by decide +kernel, fun hall => ?_⟩
  · exact (Reach.new.step (Op.findSlot pairUbatch) (pair_allowed rfl) trivial).step (Op.seqRm (-1) (-1) (-1))
      trivial trivial
  · have hmem := ((hall 0 (by rw [hsize]; decide) 0).mp htail).2
    rw [hseq] at hmem
    exact absurd hmem (Finset.notMem_empty 0)

/-! ### The copy plan -/

/-- **The copy plan of `find_slot`.**  The sets of the ubatch are in the cells from `head` on.  A state stays in
its cell outside the range, or is copied from there to the cell its sequence is in now; this holds for all
sequences but those that the ubatch lists behind the first one of their set.  A set whose first sequence had
no state starts with the zeroed cell `rs_z` or with an empty cell that was filled with zeros before, and
`rs_z` is not a cell from which a state is copied. -/
theorem findSlot_plan {u : Ubatch} (h : Valid st) (hu : SlotUbatch st.size u) :
    let r := st.findSlot u
    let st' := r.value.2
    r.checks = true ∧ r.value.1 = true ∧ u.nSeqs ≤ st'.n ∧ st'.head + st'.n ≤ st.size ∧
      (∀ s < u.nSeqs, st'.seqId (st'.head + s) = (setOf u s).toFinset ∧
        st'.pos (st'.head + s) = lastPos u s ∧ ∀ q ∈ setOf u s, st'.tail q = some (st'.head + s)) ∧
      (∀ q < st.size, q ∉ shared u → ∀ c, HasState st q c → ∃ d, st'.tail q = some d ∧
        ((d < st'.head ∨ st'.head + st'.n ≤ d) ∧ d = c ∨
          (st'.head ≤ d ∧ d < st'.head + st'.n) ∧ st'.src0 d = some c)) ∧
      (∀ s < u.nSeqs, (firstOf u s ∈ shared u ∨ ∀ c, ¬ HasState st (firstOf u s) c) →
        (∃ z, st'.rsZ = some z ∧ st'.src0 (st'.head + s) = some z) ∨
          ∃ c, st'.src0 (st'.head + s) = some c ∧ Zeroed st c) ∧
      ∀ q < st.size, q ∉ shared u → ∀ c, HasState st q c → st'.rsZ ≠ some c := by
  obtain ⟨hchecks, hok, hslot⟩ := findSlot_spec h hu
  exact ⟨hchecks, hok, hslot.n_ge, hslot.n_le,
    fun s hs => ⟨hslot.set_seqId s hs, hslot.set_pos s hs, hslot.set_tail s hs⟩, hslot.kept, hslot.fresh,
    hslot.zero_dead⟩

theorem findSlot_plan_pair : (paired.findSlot pairUbatch).checks = true ∧
    ∃ d, (paired.findSlot pairUbatch).value.2.tail 1 = some d ∧
      ((d < (paired.findSlot pairUbatch).value.2.head ∨
          (paired.findSlot pairUbatch).value.2.head + (paired.findSlot pairUbatch).value.2.n ≤ d) ∧ d = 1 ∨
        ((paired.findSlot pairUbatch).value.2.head ≤ d ∧
          d < (paired.findSlot pairUbatch).value.2.head + (paired.findSlot pairUbatch).value.2.n) ∧
        (paired.findSlot pairUbatch).value.2.src0 d = some 1) := by
  have hsize : paired.size = 2 := by decide +kernel
  have hallowed := pair_allowed hsize
  obtain ⟨hchecks, -, -, -, -, hkept, -⟩ :=
    findSlot_plan paired_reach.valid (hallowed.1.slotUbatch hallowed.2 fun s hs => (pair_safe paired s hs).1)
  exact ⟨hchecks, hkept 1 (by rw [hsize]; decide) (by decide +kernel) 1 ⟨by decide +kernel, by decide +kernel⟩⟩

def joinBatch : Batch := .text [1] [[0, 1]] rfl

/-- What `init` reads of the memory `paired`. -/
def pairedMemory : Memory := ⟨fun _ => 0, fun _ => 0⟩

def joinAccepted : BatchAllocr := (sanitize 1 joinBatch (some pairedMemory) 2 true).splitReset

/-- The ubatches that `split_seq` makes of `joinBatch`. -/
def joinSplit : List Ubatch := (splitLoop (seq.split 1) 2 joinAccepted.splitReset []).value.1

def joinUbatch : Ubatch := joinSplit.getD 0 (ubatchReserve 1 1 1)

theorem join_produced : Produced joinUbatch := by
  refine ⟨1, 1, joinBatch, some pairedMemory, 2, true, joinAccepted, .seq, 1, 2, by decide +kernel,
    init_eq (by decide +kernel), by decide, ?_⟩
  have hlen : 0 < joinSplit.length := by decide +kernel
  show joinSplit.getD 0 _ ∈ joinSplit
  rw [getD_eq_getElem _ _ hlen]
  exact getElem_mem hlen

/-- **A dropped state.**  Sequence 1 had its state in cell 1 and shares cell 0 afterwards, which gets the state
of sequence 0. -/
theorem findSlot_drops : Valid paired ∧ SlotUbatch paired.size joinUbatch ∧ HasState paired 1 1 ∧
    (paired.findSlot joinUbatch).value.2.tail 1 = some 0 ∧ (paired.findSlot joinUbatch).value.2.head = 0 ∧
    (paired.findSlot joinUbatch).value.2.n = 1 ∧ (paired.findSlot joinUbatch).value.2.src0 0 ≠ some 1 := by
  have hsize : paired.size = 2 := by decide +kernel
  refine ⟨paired_reach.valid, join_produced.slotUbatch ?_ (by decide +kernel), ⟨by decide +kernel, by decide +kernel⟩, by decide +kernel,
    by decide +kernel, by decide +kernel, by decide +kernel⟩
  rw [hsize]
  decide +kernel

/-! ### The states themselves

`build_rs` (`llama-graph.cpp`) carries out the copy plan on the tensor of the states: it clears the cell `rs_z`,
hands the states `src0[head .. head + n_seqs)` to the model and copies the other states of the range; the model
writes the new states of the sets.  A state is any value here. -/

section States

variable {α : Type} (zero : α)

/-- The states once the cell `rs_z` is cleared. -/
def cleared (st : Recurrent) (data : ℕ → α) : ℕ → α :=
  match st.rsZ with
  | none => data
  | some z => Function.update data z zero

/-- The state that `build_rs` reads for cell `t`. -/
def sourceOf (st : Recurrent) (data : ℕ → α) (t : ℕ) : α := cleared zero st data ((st.src0 t).getD 0)

/-- The states after `build_rs` and the model, which computes the states `next` of the sets. -/
def buildRs (st : Recurrent) (nSeqs : ℕ) (next : ℕ → α) (data : ℕ → α) : ℕ → α := fun t =>
  if st.head ≤ t ∧ t < st.head + nSeqs then next (t - st.head)
  else if st.head ≤ t ∧ t < st.head + st.n then sourceOf zero st data t
  else cleared zero st data t

def Zeros (st : Recurrent) (data : ℕ → α) : Prop := ∀ c, Zeroed st c → data c = zero

variable {zero} {data : ℕ → α}

theorem cleared_eq (st : Recurrent) {c : ℕ} (h : st.rsZ ≠ some c) : cleared zero st data c = data c := by
  rw [cleared]
  cases hz : st.rsZ with
  | none => rfl
  | some z =>
    refine Function.update_of_ne ?_ zero data
    rintro rfl
    exact h hz

theorem cleared_zero (st : Recurrent) {c : ℕ} (h : data c = zero) : cleared zero st data c = zero := by
  by_cases hz : st.rsZ = some c
  · rw [cleared, hz]
    exact Function.update_self c zero data
  · rw [cleared_eq st hz, h]

theorem sourceOf_zero (hdata : Zeros zero st data) {t : ℕ}
    (h : (∃ z, st'.rsZ = some z ∧ st'.src0 t = some z) ∨ ∃ c, st'.src0 t = some c ∧ Zeroed st c) :
    sourceOf zero st' data t = zero := by
  rcases h with ⟨z, hz, hsrc⟩ | ⟨c, hsrc, hzero⟩
  · rw [sourceOf, hsrc, Option.getD_some, cleared, hz]
    exact Function.update_self z zero data
  · rw [sourceOf, hsrc, Option.getD_some]
    exact cleared_zero st' (hdata c hzero)

theorem Slotted.zeros {u : Ubatch} (h : Slotted st u st') (hu : SlotUbatch st.size u) (hdata : Zeros zero st data)
    (next : ℕ → α) : Zeros zero st' (buildRs zero st' u.nSeqs next data) := by
  rintro c ⟨hc, hnil, hsrc⟩
  have hout : ¬ (st'.head ≤ c ∧ c < st'.head + u.nSeqs) := by
    intro hin
    have hcell : c = st'.head + (c - st'.head) := by omega
    rw [hcell, h.set_seqId (c - st'.head) (by omega), toFinset_eq_empty_iff] at hnil
    exact hu.ne (c - st'.head) (by omega) hnil
  rw [buildRs, if_neg hout]
  split
  · next hin => exact sourceOf_zero hdata (h.empty c hin hnil)
  · exact cleared_zero st' (hdata c (h.outside c (h.size ▸ hc) (by omega) hnil hsrc))

/-- The states of a run and what is stored in the cells: `find_slot` is followed by the graph. -/
inductive ReachStates (zero : α) (memSize : ℕ) : Recurrent → (ℕ → α) → Prop
  | new (data : ℕ → α) : ReachStates zero memSize (new memSize) data
  | call {st : Recurrent} {data : ℕ → α} (h : ReachStates zero memSize st data) (op : Op) (hop : op.Allowed st)
      (hok : op.Safe st) (hcall : ∀ u, op ≠ .findSlot u) : ReachStates zero memSize (op.apply st) data
  | graph {st : Recurrent} {data : ℕ → α} (h : ReachStates zero memSize st data) (u : Ubatch)
      (hop : (Op.findSlot u).Allowed st) (hok : (Op.findSlot u).Safe st) (next : ℕ → α) :
      ReachStates zero memSize (st.findSlot u).value.2
        (buildRs zero (st.findSlot u).value.2 u.nSeqs next data)

theorem ReachStates.reach {memSize : ℕ} (h : ReachStates zero memSize st data) :
    Reach memSize (fun st op => op.Safe st) st := by
  induction h with
  | new data => exact Reach.new
  | call _ op hop hok _ ih => exact ih.step op hop hok
  | graph _ u hop hok _ ih => exact ih.step (.findSlot u) hop hok

theorem ReachStates.zeros {memSize : ℕ} (h : ReachStates zero memSize st data) : Zeros zero st data := by
  induction h with
  | new data => exact fun c hz => absurd hz.2.2 (by simp [src, Recurrent.new, MemCell.empty])
  | call h op hop hok hcall ih =>
    have hexact := h.reach.valid.exact
    intro c hz
    refine ih c ?_
    cases op with
    | clear => exact (clear_settled _).zeroed hz
    | seqRm id p0 p1 => exact (seqRm_settled hexact id p0 p1).zeroed hz
    | seqCp src dst p0 p1 => exact (seqCp_settled _ src dst p0 p1).zeroed hz
    | seqKeep id => exact (seqKeep_settled hexact id).zeroed hz
    | findSlot u => exact absurd rfl (hcall u)
  | graph h u hop hok next ih =>
    have hu := hop.1.slotUbatch hop.2 fun s hs => (hok s hs).1
    exact (findSlot_spec h.reach.valid hu).2.2.zeros hu ih next

end States

end Recurrent
