import LlamaRafaelia.Kv.Replay

/-!
# `prepare` meets the assertions of the cells

The search only reads cells inside the stream, and what it reads of a cell it may read.  Saving and writing
back a slot asserts that no shift is pending, so that is a condition here (`ShiftFree`); it survives the
placements and their undoing.
-/

namespace KvCache

open Checked KvCells

variable {kp : KvParams} {st : KvCache} {G : ℕ → ℕ → ℤ → ℕ} {u : Ubatch} {si : SlotInfo} {cont : Bool}
  {g : ℕ → ℤ → ℕ} {c : KvCells}

/-! ### `find_slot` -/

theorem canUse_asserts (h : Sound g c) {i : ℕ} (hi : i < c.size) : (canUse kp c i).asserts = true := by
  have hempty : (c.isEmpty i).asserts = true := by
    have hpos := h.pos_ok i hi
    simp only [isEmpty, bind_asserts, assert_asserts, pure_asserts, Bool.and_true, Bool.and_eq_true,
      decide_eq_true_eq]
    refine ⟨hi, ?_⟩
    rcases hpos with he | hnn
    · exact Or.inl ⟨by omega, he⟩
    · exact Or.inr hnn
  have hval : (c.isEmpty i).value = decide (c.pos i = -1) := rfl
  by_cases hp : c.pos i = -1
  · simp [canUse, hempty, hval, hp]
  · have hcount : (c.seqCount i).asserts = true := by simp [seqCount, hi, hp]
    have hcval : (c.seqCount i).value = (c.seq i).card := rfl
    by_cases hone : (c.seq i).card = 1
    · obtain ⟨s, hs⟩ := Finset.card_eq_one.mp hone
      have hmem : s ∈ c.seq i := hs ▸ Finset.mem_singleton_self s
      have hlt := h.seq_lt i hi s hmem
      obtain ⟨hgval, hgok⟩ : (c.seqGet i).value = s ∧ (c.seqGet i).asserts = true := by
        refine ⟨seqGet_of_singleton hs hlt, ?_⟩
        simp [seqGet, hone]
      have hposGet : (c.posGet i).asserts = true := by simp [posGet, hi, hp]
      have hmax := seqPosMax_asserts h hlt
      have hnn := h.pos_nonneg hi hp
      have hle := le_seqPosMax h hi hmem
      have hmask : (kp.isMasked (c.pos i) ((c.seqPosMax s).value + 1)).asserts = true := by
        simp only [KvParams.isMasked, isMaskedSwa, bind_asserts, assert_asserts, pure_asserts,
          Bool.and_true, decide_eq_true_eq]
        exact ⟨hnn, by omega⟩
      have hpval : (c.posGet i).value = c.pos i := rfl
      simp [canUse, hempty, hval, hp, hcount, hcval, hone, hposGet, hgok, hgval, hpval, hmax, hmask]
    · simp [canUse, hempty, hval, hp, hcount, hcval, hone]

theorem scan_asserts (h : Sound g c) (k : ℕ) (a : Search) (hk : a.headCur + k ≤ c.size) :
    (scan kp c cont k a).asserts = true := by
  induction k generalizing a with
  | zero => rfl
  | succ k ih =>
    have hhead : (canUse kp c a.headCur).asserts = true := canUse_asserts h (by omega)
    have hrest : ∀ idxs, (scan kp c cont k ⟨a.headCur + 1, a.nTested + 1, idxs⟩).asserts = true :=
      fun idxs => ih ⟨a.headCur + 1, a.nTested + 1, idxs⟩ (by simp only; omega)
    simp only [scan, bind_asserts, hhead, Bool.true_and, ite_asserts, hrest, pure_asserts, ite_self]

theorem findLoop_asserts (h : Sound g c) (n nTest fuel : ℕ) (a : Search) :
    (findLoop kp c cont n nTest fuel a).asserts = true := by
  induction fuel generalizing a with
  | zero => rfl
  | succ fuel ih =>
    rw [findLoop]
    split
    · exact ih _
    · next hend =>
      have hscan : (scan kp c cont nTest a).asserts = true := scan_asserts h nTest a (by omega)
      simp only [bind_asserts, hscan, Bool.true_and, ite_asserts, pure_asserts, ih, ite_self]

theorem findSlot_asserts (h : Ok kp G st) (hu : UbatchOk kp u) : (st.findSlot kp u cont).asserts = true := by
  have hstep : ∀ s res, s < slotSeqs kp u → (st.findStep kp u cont res s).asserts = true := by
    intro s res hs
    have hlen : s < u.seqIdUnq.length := lt_of_lt_of_le hs hu.slots_le
    have hlt : u.seqIdUnq.getD s 0 < kp.seqToStream.length := by
      rw [List.getD_eq_getElem _ _ hlen]
      exact hu.unq_lt _ (List.getElem_mem hlen)
    cases res with
    | none => rfl
    | some r =>
      have hsound := (h _ (kp.streamOf_lt (u.seqIdUnq.getD s 0))).sound
      have hfind : (findStream kp (st.vCells (kp.streamOf (u.seqIdUnq.getD s 0)))
          (st.vHeads (kp.streamOf (u.seqIdUnq.getD s 0))) (slotTokens kp u) cont).asserts = true := by
        unfold findStream
        split
        · rfl
        · exact findLoop_asserts hsound _ _ _ _
      simp only [findStep, bind_asserts, assert_asserts, check_asserts, pure_asserts, hlen, hlt, hfind,
        decide_true, Bool.and_self]
  have hloop := loopRange_rule (f := st.findStep kp u cont) (fun _ _ => True) (slotSeqs kp u)
    (s := some ⟨llamaMaxSeq, 0, [], []⟩) trivial fun s res hs _ => ⟨hstep s res hs, trivial⟩
  simp only [findSlot, bind_asserts, check_asserts, Bool.true_and, hloop.1]

/-! ### Saving and writing back -/

def ShiftFree (kp : KvParams) (st : KvCache) : Prop :=
  ∀ t < kp.nStream, ∀ i < kp.kvSize, ((st.vCells t).cell i).shift = 0

theorem cpIdxs_asserts {idxs : List ℕ} (hlt : ∀ i ∈ idxs, i < c.size)
    (hshift : ∀ i ∈ idxs, (c.cell i).shift = 0) : (c.cpIdxs idxs).asserts = true := by
  refine (loopRange_rule (f := fun res j => c.cpStep (idxs.getD j 0) res j) (fun _ _ => True) idxs.length
    trivial fun j res hj _ => ⟨?_, trivial⟩).1
  have hmem : idxs.getD j 0 ∈ idxs := by
    rw [List.getD_eq_getElem _ _ hj]
    exact List.getElem_mem hj
  simp only [cpStep, bind_asserts, assert_asserts, pure_asserts, Bool.and_true, Bool.and_eq_true,
    decide_eq_true_eq]
  exact ⟨hlt _ hmem, hshift _ hmem⟩

theorem snapshot_asserts (h : Ok kp G st) (hfree : ShiftFree kp st) (hsi : SlotFits kp st u si) :
    (st.snapshot si).asserts = true := by
  refine (loopRange_rule (f := fun (l : List KvCells) s => do
    let c ← (st.vCells (si.strmAt s)).cpIdxs (si.idxsAt s)
    return l ++ [c]) (fun _ _ => True) si.nStream trivial fun s l hs _ => ⟨?_, trivial⟩).1
  have hs' : s < slotSeqs kp u := lt_of_lt_of_eq hs hsi.strm_length
  have ht : si.strmAt s < kp.nStream := by
    rw [hsi.strm s hs']
    exact kp.streamOf_lt _
  have hcp : ((st.vCells (si.strmAt s)).cpIdxs (si.idxsAt s)).asserts = true :=
    cpIdxs_asserts (fun i hi => (h _ ht).size ▸ hsi.idx_lt s hs' i hi)
      fun i hi => hfree _ ht i (hsi.idx_lt s hs' i hi)
  simp only [bind_asserts, hcp, pure_asserts, Bool.and_self]

theorem setIdxs_asserts {t head head0 : ℕ} {g0 : ℕ → ℤ → ℕ} {c0 : KvCells} {idxs : List ℕ}
    (h : StreamOk kp t g c head) (h0 : StreamOk kp t g0 c0 head0) (hin : ∀ i ∈ idxs, i < kp.kvSize)
    (hfree : ∀ i < kp.kvSize, (c.cell i).shift = 0) :
    (c.setIdxs idxs (c0.cpIdxs idxs).value).asserts = true := by
  obtain ⟨hosize, hocell⟩ := cpIdxs_cell c0 idxs
  have hgetD : ∀ j < idxs.length, idxs.getD j 0 ∈ idxs := fun j hj => by
    rw [List.getD_eq_getElem _ _ hj]
    exact List.getElem_mem hj
  have hother : CellsOk (c0.cpIdxs idxs).value := cellsOk_of_snap h0.sound.cellsOk hosize hocell
    fun j hj => h0.size ▸ hin _ (hgetD j hj)
  have hloop := loopRange_rule
    (f := fun d j => KvCells.setStep d (c0.cpIdxs idxs).value (idxs.getD j 0) j)
    (fun _ (d : KvCells) => Sound g d ∧ d.size = kp.kvSize ∧ ∀ i < kp.kvSize, (d.cell i).shift = 0)
    (c0.cpIdxs idxs).value.size (s := c) ⟨h.sound, h.size, hfree⟩ (by
      rintro j d hj ⟨hd, hsize, hshift⟩
      have hlt : idxs.getD j 0 < kp.kvSize := hin _ (hgetD j (hosize ▸ hj))
      refine ⟨setStep_asserts hd.toCounted (hsize ▸ hlt) (hshift _ hlt),
        setStep_sound hd hother (hsize ▸ hlt) hj, (setStep_size ..).trans hsize, fun i hi => ?_⟩
      rw [setStep_cell]
      by_cases heq : i = idxs.getD j 0
      · subst heq
        rw [Function.update_self]
        exact hshift _ hi
      · rw [Function.update_of_ne heq]
        exact hshift i hi)
  simp only [setIdxs, bind_asserts, assert_asserts, hosize, decide_true, Bool.true_and]
  rw [hosize] at hloop
  exact hloop.1

theorem applyUbatch_shiftFree (h : Ok kp G st) (hfree : ShiftFree kp st) (hu : UbatchOk kp u)
    (hsi : SlotFits kp st u si) : ShiftFree kp (st.applyUbatch kp si u).value := by
  obtain ⟨-, hoff, hat, -, -⟩ := applyUbatch_spec h hu hsi
  have hrestrict : ∀ (x : KvCell) (S : Finset ℕ), x.shift = 0 → (x.restrict S).shift = 0 := by
    intro x S hx
    unfold KvCell.restrict
    split
    · exact hx
    · split
      · rfl
      · exact hx
  intro t ht i hi
  by_cases hm : (t, i) ∈ si.cells
  · obtain ⟨x, hx, hxeq⟩ := List.mem_map.mp hm
    obtain ⟨rfl, rfl⟩ := Prod.mk.inj hxeq
    rw [hat x hx]
    refine hrestrict _ _ ?_
    show (evictCell ((st.vCells x.1).cell x.2.1)).shift = 0
    unfold evictCell
    split
    · exact hfree _ ht _ hi
    · rfl
  · rw [hoff t ht i hi hm]
    exact hrestrict _ _ (hfree t ht i hi)

theorem restore_asserts {σ τ : KvCache} {G0 : ℕ → ℕ → ℤ → ℕ} (hτ : Ok kp G τ) (hσ : Ok kp G0 σ)
    (hu : UbatchOk kp u) (hsi : SlotFits kp σ u si) (hfree : ShiftFree kp τ) :
    (τ.restore (saved σ si)).asserts = true ∧ ShiftFree kp (τ.restore (saved σ si)).value := by
  have hns : si.nStream = slotSeqs kp u := hsi.strm_length
  have hstream : ∀ s < si.nStream, si.strmAt s < kp.nStream := fun s hs => by
    rw [hsi.strm s (hns ▸ hs)]
    exact kp.streamOf_lt _
  constructor
  · have hrule := loopRange_rule
      (f := fun (ρ : KvCache) s => do
        let c ← (ρ.vCells (si.strmAt s)).setIdxs (si.idxsAt s)
          ((σ.snapshot si).value.getD s (KvCells.resize 0))
        return ρ.setStream (si.strmAt s) c (σ.vHeads s))
      (fun k ρ => ∀ s, k ≤ s → s < si.nStream → ρ.vCells (si.strmAt s) = τ.vCells (si.strmAt s))
      si.nStream (s := τ) (fun _ _ _ => rfl) (by
        intro k ρ hk hρ
        have hset : ((ρ.vCells (si.strmAt k)).setIdxs (si.idxsAt k)
            ((σ.snapshot si).value.getD k (KvCells.resize 0))).asserts = true := by
          rw [hρ k le_rfl hk, snapshot_getD σ hk]
          exact setIdxs_asserts (hτ _ (hstream k hk)) (hσ _ (hstream k hk)) (hsi.idx_lt k (hns ▸ hk))
            (hfree _ (hstream k hk))
        refine ⟨?_, fun s hs hlt => ?_⟩
        · simp only [bind_asserts, hset, pure_asserts, Bool.and_self]
        · have hne : si.strmAt s ≠ si.strmAt k := fun heq => by
            have := hsi.strm_injective hu (hns ▸ hlt) (hns ▸ hk) heq
            omega
          simp only [bind_value, pure_value]
          rw [setStream_vCells_of_ne hne]
          exact hρ s (by omega) hlt)
    exact hrule.1
  · obtain ⟨-, hoff, hat, -, -⟩ := restore_spec hτ hσ hu hsi
    intro t ht i hi
    by_cases hm : (t, i) ∈ si.cells
    · rw [hat t i hm]
      exact hfree t ht i hi
    · rw [hoff t i hm]
      exact hfree t ht i hi

/-! ### The whole of `prepare` -/

theorem prepareLoop_append_asserts (kp : KvParams) (st : KvCache) (states : List PrepState)
    (us : List Ubatch) :
    (prepareLoop kp st states us).asserts = (prepareLoop kp st [] us).asserts := by
  induction us generalizing st states with
  | nil => rfl
  | cons u us ih =>
    simp only [prepareLoop, bind_asserts]
    cases (st.findSlot kp u false).value with
    | none => rfl
    | some si =>
      simp only [bind_asserts]
      rw [ih _ (_ :: states), ih _ [_]]

/-- **`prepare` meets the assertions**, when no shift is pending and no token lists a sequence twice. -/
theorem prepare_asserts (us : List Ubatch) (hus : ∀ u ∈ us, UbatchOk kp u ∧ u.DistinctSeqs)
    (h : Ok kp G st) (hfree : ShiftFree kp st) : (st.prepare kp us).asserts = true := by
  -- the loop of placements, the loop that undoes them, and the state after both
  have key : (prepareLoop kp st [] us).asserts = true ∧
      (loop restore (prepareLoop kp st [] us).value.1 (prepareLoop kp st [] us).value.2.1).asserts = true ∧
      ShiftFree kp (roundTrip kp st us) := by
    induction us generalizing st G with
    | nil => exact ⟨rfl, rfl, hfree⟩
    | cons u us ih =>
      obtain ⟨hu, hd⟩ := hus u (by simp)
      have hfind : (st.findSlot kp u false).asserts = true := findSlot_asserts h hu
      cases hslot : (st.findSlot kp u false).value with
      | none =>
        refine ⟨?_, ?_, ?_⟩
        · simp [prepareLoop, hfind, hslot]
        · simp [prepareLoop, hslot]
        · simpa only [roundTrip, hslot] using hfree
      | some si =>
        have hsi : SlotFits kp st u si := (h.findSlot hu hslot).fits h
        obtain ⟨⟨G1, hok1, -, -⟩, -, -, -, happly⟩ := applyUbatch_spec h hu hsi
        have hus' : ∀ v ∈ us, UbatchOk kp v ∧ v.DistinctSeqs := fun v hv => hus v (by simp [hv])
        obtain ⟨hloop, hundo, hfree'⟩ := ih hus' hok1 (applyUbatch_shiftFree h hfree hu hsi)
        obtain ⟨G', hok', -, -, -⟩ := roundTrip_spec us (fun v hv => (hus' v hv).1) hok1
        obtain ⟨hres, hresFree⟩ := restore_asserts hok' h hu hsi hfree'
        obtain ⟨h1, h2, -⟩ := prepareLoop_append kp (st.applyUbatch kp si u).value
          [⟨si, st.vHeads, (st.snapshot si).value⟩] us
        refine ⟨?_, ?_, ?_⟩
        · simp only [prepareLoop, bind_asserts, hslot, prepareLoop_append_asserts kp _ [_] us, hfind,
            snapshot_asserts h hfree hsi, happly hd, hloop, Bool.and_self]
        · have hmid : (loop restore (prepareLoop kp (st.applyUbatch kp si u).value [] us).value.1
              (prepareLoop kp (st.applyUbatch kp si u).value [] us).value.2.1).value
              = roundTrip kp (st.applyUbatch kp si u).value us := by
            have hval := prepare_value kp (st.applyUbatch kp si u).value us
            simpa only [prepare, bind_value, pure_value] using hval
          simp only [prepareLoop, bind_value, hslot, h1, h2, loop_append_asserts, hundo, hmid,
            Bool.true_and, loop_cons, loop_nil, bind_asserts, pure_asserts, Bool.and_true]
          exact hres
        · simp only [roundTrip, hslot]
          exact hresFree
  obtain ⟨hloop, hundo, -⟩ := key
  simp only [prepare, bind_asserts, check_asserts, pure_asserts, hloop, hundo, Bool.and_self]

end KvCache
