import LlamaRafaelia.Kv.Apply

/-!
# `prepare` places the ubatches and takes them back

`prepare` applies each ubatch and keeps a copy of the cells of its slot and of the heads.  A cell is restored to what
it was before the *first* slot that contained it, and a cell outside of all slots is not restored, though the purge
may have touched it.  The heads are written back at the index of the stream inside the slot.
-/

namespace KvCells

open Checked

variable {c other : KvCells} {g : ℕ → ℤ → ℕ}

theorem setLoop_cell (c other : KvCells) (idx : ℕ → ℕ) {n : ℕ}
    (hinj : ∀ j < n, ∀ k < n, idx j = idx k → j = k) :
    let r := (loopRange n (fun c j => KvCells.setStep c other (idx j) j) c).value
    r.size = c.size ∧ (∀ j < n, r.cell (idx j) = setStepCell (c.cell (idx j)) (other.cell j)) ∧
      ∀ i, (∀ j < n, idx j ≠ i) → r.cell i = c.cell i := by
  obtain ⟨hsize, hin, hout⟩ := loopRange_value_rule (f := fun c j => KvCells.setStep c other (idx j) j)
    (fun k (d : KvCells) => d.size = c.size ∧
      (∀ j < k, d.cell (idx j) = setStepCell (c.cell (idx j)) (other.cell j)) ∧
      ∀ i, (∀ j < k, idx j ≠ i) → d.cell i = c.cell i)
    n (s := c) ⟨rfl, by simp, fun _ _ => rfl⟩ (by
      rintro k d hk ⟨hsize, hin, hout⟩
      have hnew : ∀ j < k, idx j ≠ idx k := fun j hj he => by
        have := hinj j (by omega) k hk he
        omega
      refine ⟨(setStep_size ..).trans hsize, fun j hj => ?_, fun i hi => ?_⟩
      · rw [setStep_cell]
        rcases Nat.lt_succ_iff_lt_or_eq.mp hj with hlt | rfl
        · rw [Function.update_of_ne (hnew j hlt)]
          exact hin j hlt
        · rw [Function.update_self, hout _ hnew]
      · rw [setStep_cell, Function.update_of_ne (hi k (Nat.lt_succ_self k)).symm]
        exact hout i fun j hj => hi j (Nat.lt_succ_of_lt hj))
  exact ⟨hsize, hin, hout⟩

theorem setStep_asserts (h : Counted g c) {idx j : ℕ} (hi : idx < c.size) (hshift : c.shift idx = 0) :
    (c.setStep other idx j).asserts = true := by
  have htake : (c.setTake idx).asserts = true := by
    unfold setTake
    split
    · exact seqPosRm_asserts h hi
    · rfl
  have hsh : ((c.setStep other idx j).value).shift idx = 0 := by
    rw [shift, setStep_cell, Function.update_self]
    exact hshift
  have hval : (c.setStep other idx j).asserts = ((c.setTake idx).asserts &&
      decide ((c.setStep other idx j).value.shift idx = 0)) := by
    simp only [setStep, bind_asserts, assert_asserts, pure_asserts, bind_value, pure_value, hi,
      decide_true, Bool.true_and, Bool.and_true]
  rw [hval, htake, hsh]
  rfl

end KvCells

namespace KvCache

open Checked KvCells

variable {kp : KvParams} {st : KvCache} {G : ℕ → ℕ → ℤ → ℕ} {u : Ubatch} {si : SlotInfo}

/-! ### Saving and writing back the cells of one stream -/

theorem getD_injective {l : List ℕ} (hnd : l.Nodup) :
    ∀ j < l.length, ∀ k < l.length, l.getD j 0 = l.getD k 0 → j = k := by
  intro j hj k hk heq
  rw [List.getD_eq_getElem _ _ hj, List.getD_eq_getElem _ _ hk] at heq
  exact (List.Nodup.getElem_inj_iff hnd).mp heq

theorem setIdxs_streamOk {t head head0 head' : ℕ} {g g0 : ℕ → ℤ → ℕ} {c c0 : KvCells} {idxs : List ℕ}
    (h : StreamOk kp t g c head) (h0 : StreamOk kp t g0 c0 head0) (hnd : idxs.Nodup)
    (hin : ∀ i ∈ idxs, i < kp.kvSize) (hhead : head' ≤ kp.kvSize) :
    let r := c.setIdxs idxs (c0.cpIdxs idxs).value
    StreamOk kp t g r.value head' ∧ (∀ i ∉ idxs, r.value.cell i = c.cell i) ∧
      ∀ i ∈ idxs, r.value.cell i = setStepCell (c.cell i) (c0.cell i) := by
  obtain ⟨hosize, hocell⟩ := cpIdxs_cell c0 idxs
  have hgetD : ∀ j < idxs.length, idxs.getD j 0 ∈ idxs := fun j hj => by
    rw [List.getD_eq_getElem _ _ hj]
    exact List.getElem_mem hj
  have hother : CellsOk (c0.cpIdxs idxs).value := cellsOk_of_snap h0.sound.cellsOk hosize hocell
    fun j hj => h0.size ▸ hin _ (hgetD j hj)
  have hval : (c.setIdxs idxs (c0.cpIdxs idxs).value).value
      = (loopRange idxs.length
          (fun c j => KvCells.setStep c (c0.cpIdxs idxs).value (idxs.getD j 0) j) c).value := by
    rw [← hosize]
    rfl
  have hsound : Sound g (loopRange idxs.length
      (fun c j => KvCells.setStep c (c0.cpIdxs idxs).value (idxs.getD j 0) j) c).value := by
    have hloop := setLoop_sound h.sound hother (fun j => idxs.getD j 0)
      (fun j hj => h.size ▸ hin _ (hgetD j (hosize ▸ hj)))
    rwa [hosize] at hloop
  obtain ⟨hsize, hat, hoff⟩ := setLoop_cell c (c0.cpIdxs idxs).value (fun j => idxs.getD j 0)
    (getD_injective hnd)
  have hcellOff : ∀ i ∉ idxs, (c.setIdxs idxs (c0.cpIdxs idxs).value).value.cell i = c.cell i := by
    intro i hi
    rw [hval]
    exact hoff i fun j hj heq => hi (heq ▸ hgetD j hj)
  have hcellAt : ∀ i ∈ idxs, (c.setIdxs idxs (c0.cpIdxs idxs).value).value.cell i
      = setStepCell (c.cell i) (c0.cell i) := by
    intro i hi
    obtain ⟨j, hj, rfl⟩ := List.mem_iff_getElem.mp hi
    have hatj := hat j hj
    rw [hocell j hj] at hatj
    simp only [List.getD_eq_getElem _ _ hj] at hatj
    rw [hval]
    exact hatj
  refine ⟨⟨?_, hval ▸ hsound, fun i hi => ?_, fun i hi s hs => ?_, hhead⟩, hcellOff, hcellAt⟩
  · rw [hval]
    exact hsize.trans h.size
  · by_cases hm : i ∈ idxs
    · rw [hcellAt i hm]
      exact h0.owned i hi
    · rw [hcellOff i hm]
      exact h.owned i hi
  · by_cases hm : i ∈ idxs
    · rw [hcellAt i hm] at hs
      exact h0.stream i hi s hs
    · rw [hcellOff i hm] at hs
      exact h.stream i hi s hs

/-! ### Saving and writing back a slot -/

theorem snapshot_value (st : KvCache) (si : SlotInfo) :
    (st.snapshot si).value = (List.range si.nStream).map fun s =>
      ((st.vCells (si.strmAt s)).cpIdxs (si.idxsAt s)).value := by
  refine loopRange_value_rule (fun k (l : List KvCells) => l = (List.range k).map fun s =>
    ((st.vCells (si.strmAt s)).cpIdxs (si.idxsAt s)).value) si.nStream rfl ?_
  rintro k l - rfl
  rw [List.range_succ, List.map_append]
  rfl

theorem snapshot_getD (st : KvCache) {si : SlotInfo} {s : ℕ} (hs : s < si.nStream) :
    (st.snapshot si).value.getD s (KvCells.resize 0)
      = ((st.vCells (si.strmAt s)).cpIdxs (si.idxsAt s)).value := by
  rw [snapshot_value, List.getD_eq_getElem _ _ (by simpa using hs)]
  simp

/-- The entry that `prepare` pushes before it places a ubatch. -/
def saved (st : KvCache) (si : SlotInfo) : PrepState := ⟨si, st.vHeads, (st.snapshot si).value⟩

theorem SlotFits.mem_cells (hsi : SlotFits kp st u si) (hu : UbatchOk kp u) {t i : ℕ} :
    (t, i) ∈ si.cells ↔ ∃ s < si.nStream, si.strmAt s = t ∧ i ∈ si.idxsAt s := by
  have hsize := hsi.size_eq hu
  simp only [SlotInfo.cells, List.mem_map, SlotInfo.mem_places, placeOf]
  constructor
  · rintro ⟨x, ⟨s, hs, ii, hii, rfl⟩, heq⟩
    obtain ⟨rfl, rfl⟩ := Prod.mk.inj heq
    refine ⟨s, hs, rfl, ?_⟩
    rw [hsize, ← hsi.length s (by rwa [← hsi.strm_length])] at hii
    rw [List.getD_eq_getElem _ _ hii]
    exact List.getElem_mem hii
  · rintro ⟨s, hs, rfl, hi⟩
    obtain ⟨ii, hii, rfl⟩ := List.mem_iff_getElem.mp hi
    refine ⟨_, ⟨s, hs, ii, ?_, rfl⟩, ?_⟩
    · rw [hsize, ← hsi.length s (by rwa [← hsi.strm_length])]
      exact hii
    · rw [List.getD_eq_getElem _ _ hii]

theorem UbatchOk.slotSeqs_le (hu : UbatchOk kp u) : slotSeqs kp u ≤ kp.nStream := by
  unfold slotSeqs
  split
  · next hm =>
    have hsub : u.seqIdUnq.toFinset ⊆ Finset.range kp.nStream := by
      intro s hs
      have hlt := hu.unq_lt s (List.mem_toFinset.mp hs)
      rw [KvParams.seqToStream, if_pos hm, List.length_range] at hlt
      exact Finset.mem_range.mpr hlt
    calc u.nSeqsUnq = u.seqIdUnq.toFinset.card := (List.toFinset_card_of_nodup hu.unq_nodup).symm
      _ ≤ (Finset.range kp.nStream).card := Finset.card_le_card hsub
      _ = kp.nStream := Finset.card_range _
  · exact kp.nStream_pos

/-- **Undoing one placement.**  The cells of the slot are those of the saved state again and the others
stay; the head of the `s`-th stream of the slot becomes the saved head number `s`. -/
theorem restore_spec {σ τ : KvCache} {G0 : ℕ → ℕ → ℤ → ℕ} (hτ : Ok kp G τ) (hσ : Ok kp G0 σ)
    (hu : UbatchOk kp u) (hsi : SlotFits kp σ u si) :
    let τ' := (τ.restore (saved σ si)).value
    Ok kp G τ' ∧
      (∀ t i, (t, i) ∉ si.cells → (τ'.vCells t).cell i = (τ.vCells t).cell i) ∧
      (∀ t i, (t, i) ∈ si.cells →
        (τ'.vCells t).cell i = setStepCell ((τ.vCells t).cell i) ((σ.vCells t).cell i)) ∧
      (∀ t, (∀ s < si.nStream, si.strmAt s ≠ t) → τ'.vHeads t = τ.vHeads t) ∧
      ∀ s < si.nStream, τ'.vHeads (si.strmAt s) = σ.vHeads s := by
  have hns : si.nStream = slotSeqs kp u := hsi.strm_length
  have hinj : ∀ s < si.nStream, ∀ s' < si.nStream, si.strmAt s = si.strmAt s' → s = s' := by
    intro s hs s' hs'
    rw [hns] at hs hs'
    exact hsi.strm_injective hu hs hs'
  have hrule := loopRange_value_rule
    (f := fun (ρ : KvCache) s => do
      let c ← (ρ.vCells (si.strmAt s)).setIdxs (si.idxsAt s)
        ((σ.snapshot si).value.getD s (KvCells.resize 0))
      return ρ.setStream (si.strmAt s) c (σ.vHeads s))
    (fun k ρ => Ok kp G ρ ∧
      (∀ t, (∀ s < k, si.strmAt s ≠ t) → ρ.vCells t = τ.vCells t ∧ ρ.vHeads t = τ.vHeads t) ∧
      ∀ s < k, ρ.vHeads (si.strmAt s) = σ.vHeads s ∧
        (∀ i ∉ si.idxsAt s, (ρ.vCells (si.strmAt s)).cell i = (τ.vCells (si.strmAt s)).cell i) ∧
        ∀ i ∈ si.idxsAt s, (ρ.vCells (si.strmAt s)).cell i
          = setStepCell ((τ.vCells (si.strmAt s)).cell i) ((σ.vCells (si.strmAt s)).cell i))
    si.nStream (s := τ) ⟨hτ, fun _ _ => ⟨rfl, rfl⟩, by simp⟩ (by
      rintro k ρ hk ⟨hρ, hother, hdone⟩
      have ht : si.strmAt k < kp.nStream := by
        rw [hsi.strm k (hns ▸ hk)]
        exact kp.streamOf_lt _
      have hfresh := hother (si.strmAt k) fun s hs heq => by
        have := hinj s (by omega) k hk heq
        omega
      have hkn : k < kp.nStream := lt_of_lt_of_le (hns ▸ hk) (UbatchOk.slotSeqs_le hu)
      obtain ⟨hstream, hcellOff, hcellAt⟩ := setIdxs_streamOk (hρ _ ht) (hσ _ ht)
        (hsi.nodup k (hns ▸ hk))
        (hsi.idx_lt k (hns ▸ hk)) (hσ k hkn).head_le
      simp only [bind_value, pure_value, snapshot_getD σ hk]
      refine ⟨?_, fun t hne => ?_, fun s hs => ?_⟩
      · have hset := hρ.setStream hstream
        rwa [Function.update_eq_self] at hset
      · have htk : t ≠ si.strmAt k := (hne k (Nat.lt_succ_self k)).symm
        rw [setStream_vCells_of_ne htk, setStream_vHeads_of_ne htk]
        exact hother t fun s hs => hne s (Nat.lt_succ_of_lt hs)
      · rcases Nat.lt_succ_iff_lt_or_eq.mp hs with hlt | rfl
        · have hsk : si.strmAt s ≠ si.strmAt k := fun heq => by
            have := hinj s (by omega) k hk heq
            omega
          rw [setStream_vCells_of_ne hsk, setStream_vHeads_of_ne hsk]
          exact hdone s hlt
        · rw [setStream_vCells_self, setStream_vHeads_self]
          refine ⟨rfl, fun i hi => ?_, fun i hi => ?_⟩
          · rw [hcellOff i hi, hfresh.1]
          · rw [hcellAt i hi, hfresh.1])
  obtain ⟨hok, hother, hdone⟩ := hrule
  refine ⟨hok, fun t i hni => ?_, fun t i hi => ?_, fun t hne => (hother t hne).2,
    fun s hs => (hdone s hs).1⟩
  · by_cases hex : ∃ s < si.nStream, si.strmAt s = t
    · obtain ⟨s, hs, rfl⟩ := hex
      exact (hdone s hs).2.1 i fun hi => hni ((hsi.mem_cells hu).mpr ⟨s, hs, rfl, hi⟩)
    · have heq := (hother t fun s hs heq => hex ⟨s, hs, heq⟩).1
      exact congrArg (fun c => KvCells.cell c i) heq
  · obtain ⟨s, hs, rfl, hm⟩ := (hsi.mem_cells hu).mp hi
    exact (hdone s hs).2.2 i hm

/-! ### The whole of `prepare` -/

/-- The state in which `prepare` leaves the cache, as a recursion over the ubatches: place one, go on from
there, and undo it at the end. -/
def roundTrip (kp : KvParams) : KvCache → List Ubatch → KvCache
  | st, [] => st
  | st, u :: us =>
    match (st.findSlot kp u false).value with
    | none => st
    | some si => ((roundTrip kp (st.applyUbatch kp si u).value us).restore (saved st si)).value

theorem prepareLoop_append (kp : KvParams) (st : KvCache) (states : List PrepState) (us : List Ubatch) :
    (prepareLoop kp st states us).value.1 = (prepareLoop kp st [] us).value.1 ∧
      (prepareLoop kp st states us).value.2.1 = (prepareLoop kp st [] us).value.2.1 ++ states ∧
      (prepareLoop kp st states us).value.2.2 = (prepareLoop kp st [] us).value.2.2 := by
  induction us generalizing st states with
  | nil => simp [prepareLoop]
  | cons u us ih =>
    simp only [prepareLoop, bind_value]
    cases (st.findSlot kp u false).value with
    | none => simp
    | some si =>
      obtain ⟨h1, h2, h3⟩ := ih (st.applyUbatch kp si u).value (⟨si, st.vHeads, (st.snapshot si).value⟩ :: states)
      obtain ⟨h1', h2', h3'⟩ := ih (st.applyUbatch kp si u).value [⟨si, st.vHeads, (st.snapshot si).value⟩]
      simp only [bind_value]
      refine ⟨h1.trans h1'.symm, ?_, h3.trans h3'.symm⟩
      rw [h2, h2']
      simp

theorem prepare_value (kp : KvParams) (st : KvCache) (us : List Ubatch) :
    (st.prepare kp us).value.1 = roundTrip kp st us := by
  have key : ∀ (us : List Ubatch) (st : KvCache),
      (loop restore (prepareLoop kp st [] us).value.1 (prepareLoop kp st [] us).value.2.1).value
        = roundTrip kp st us := by
    intro us
    induction us with
    | nil => intro st; rfl
    | cons u us ih =>
      intro st
      simp only [prepareLoop, bind_value, roundTrip]
      cases (st.findSlot kp u false).value with
      | none => rfl
      | some si =>
        obtain ⟨h1, h2, -⟩ := prepareLoop_append kp (st.applyUbatch kp si u).value
          [⟨si, st.vHeads, (st.snapshot si).value⟩] us
        simp only [bind_value, h1, h2, loop_append_value, ih]
        rfl
  exact key us st

/-! ### The cells after `prepare` -/

/-- The cells of the two states are the same: positions, 2D positions and sequences of every cell, the set
of used cells, and the position counts of every sequence. -/
def SameCells (kp : KvParams) (st st' : KvCache) : Prop :=
  ∀ t < kp.nStream,
    (∀ i < kp.kvSize, (st'.vCells t).pos i = (st.vCells t).pos i ∧
      (st'.vCells t).ext i = (st.vCells t).ext i ∧ (st'.vCells t).seq i = (st.vCells t).seq i) ∧
    (st'.vCells t).used = (st.vCells t).used ∧
    ∀ s < llamaMaxSeq, (st'.vCells t).seqPos s = (st.vCells t).seqPos s

/-- Every cell that an eviction from the slot makes the purge touch has been saved: it is in the slot or
in `D`, the cells of the slots before. -/
def EvictionCovered (kp : KvParams) (st : KvCache) (si : SlotInfo) (D : List (ℕ × ℕ)) : Prop :=
  ∀ x ∈ si.cells, ((st.vCells x.1).cell x.2).pos ≠ -1 → ∀ s ∈ ((st.vCells x.1).cell x.2).seq,
    ∀ i < kp.kvSize, (x.1, i) ∉ D ++ si.cells → s ∈ ((st.vCells x.1).cell i).seq →
      ((st.vCells x.1).cell x.2).pos < ((st.vCells x.1).cell i).pos

/-- When `prepare` can undo what it does: each ubatch that is placed lists a sequence at most once for a
token, and its evictions are covered by the slots up to it. -/
def Restorable (kp : KvParams) : KvCache → List (ℕ × ℕ) → List Ubatch → Prop
  | _, _, [] => True
  | st, D, u :: us =>
    match (st.findSlot kp u false).value with
    | none => True
    | some si => u.DistinctSeqs ∧ EvictionCovered kp st si D ∧
        Restorable kp (st.applyUbatch kp si u).value (D ++ si.cells) us

instance (kp : KvParams) (st : KvCache) (si : SlotInfo) (D : List (ℕ × ℕ)) :
    Decidable (EvictionCovered kp st si D) :=
  inferInstanceAs (Decidable (∀ x ∈ si.cells, ((st.vCells x.1).cell x.2).pos ≠ -1 →
    ∀ s ∈ ((st.vCells x.1).cell x.2).seq, ∀ i < kp.kvSize, (x.1, i) ∉ D ++ si.cells →
      s ∈ ((st.vCells x.1).cell i).seq → ((st.vCells x.1).cell x.2).pos < ((st.vCells x.1).cell i).pos))

instance Restorable.decidable (kp : KvParams) :
    ∀ (st : KvCache) (D : List (ℕ × ℕ)) (us : List Ubatch), Decidable (Restorable kp st D us)
  | _, _, [] => isTrue trivial
  | st, D, u :: us =>
    match h : (st.findSlot kp u false).value with
    | none => isTrue (by simp only [Restorable, h])
    | some si =>
      have := Restorable.decidable kp (st.applyUbatch kp si u).value (D ++ si.cells) us
      decidable_of_iff (u.DistinctSeqs ∧ EvictionCovered kp st si D ∧
        Restorable kp (st.applyUbatch kp si u).value (D ++ si.cells) us) (by simp only [Restorable, h])

theorem snap_eq_iff {x y : KvCell} : snap x = snap y ↔ x.pos = y.pos ∧ x.ext = y.ext ∧ x.seq = y.seq := by
  simp only [snap, KvCell.mk.injEq, true_and]

theorem sameCells_iff {st' : KvCache} {G' : ℕ → ℕ → ℤ → ℕ} (h : Ok kp G st) (h' : Ok kp G' st')
    (hgrow : GrowsIn kp G G') :
    SameCells kp st st' ↔ (∀ t < kp.nStream, ∀ i < kp.kvSize,
      snap ((st'.vCells t).cell i) = snap ((st.vCells t).cell i)) ∧ G' = G := by
  -- equal cells give equal counts
  have hcount : ∀ t < kp.nStream, (∀ i < kp.kvSize, (st'.vCells t).pos i = (st.vCells t).pos i ∧
      (st'.vCells t).seq i = (st.vCells t).seq i) → ∀ s p, (st'.vCells t).count s p = (st.vCells t).count s p := by
    intro t ht hcell s p
    unfold count
    rw [(h t ht).size, (h' t ht).size]
    congr 1
    apply Finset.filter_congr
    intro i hi
    obtain ⟨hp, hs⟩ := hcell i (Finset.mem_range.mp hi)
    rw [hp, hs]
  constructor
  · intro hsame
    refine ⟨fun t ht i hi => (snap_eq_iff).mpr ((hsame t ht).1 i hi), ?_⟩
    funext t s p
    by_cases ht : t < kp.nStream
    · by_cases hs : s < llamaMaxSeq
      · have htr := (h t ht).sound.tracks s hs
        have htr' := (h' t ht).sound.tracks s hs
        rw [(hsame t ht).2.2 s hs] at htr'
        have heq := htr'.count_eq htr p
        rw [hcount t ht (fun i hi => ⟨((hsame t ht).1 i hi).1, ((hsame t ht).1 i hi).2.2⟩) s p] at heq
        omega
      · rw [(hgrow t).1.frame s (Nat.not_lt.mp hs)]
    · rw [(hgrow t).2 (Nat.not_lt.mp ht)]
  · rintro ⟨hcell, rfl⟩ t ht
    have hcell' := fun i hi => (snap_eq_iff).mp (hcell t ht i hi)
    refine ⟨hcell', ?_, fun s hs => ?_⟩
    · ext i
      rw [(h' t ht).sound.used_iff i, (h t ht).sound.used_iff i, (h t ht).size, (h' t ht).size]
      refine and_congr_right fun hi => ?_
      rw [show (st'.vCells t).pos i = (st.vCells t).pos i from (hcell' i hi).1]
    · refine ((h' t ht).sound.tracks s hs).unique (((h t ht).sound.tracks s hs).congr fun p => ?_)
      rw [hcount t ht (fun i hi => ⟨(hcell' i hi).1, (hcell' i hi).2.2⟩) s p]

theorem keptBy_eq_iff (h : Ok kp G st) (hu : UbatchOk kp u) (hsi : SlotFits kp st u si)
    (D : List (ℕ × ℕ)) :
    (∀ t < kp.nStream, ∀ i < kp.kvSize, (t, i) ∉ D ++ si.cells →
      keptBy st si ((st.vCells t).cell i) = ((st.vCells t).cell i).seq) ↔ EvictionCovered kp st si D := by
  constructor
  · intro hkept x hx hp s hs i hi hni hsi'
    obtain ⟨y, hy, rfl⟩ := List.mem_map.mp hx
    have hplace := hsi.placeOk hu hy
    have hmem := (hkept y.1 hplace.stream_lt i hi hni).symm ▸ hsi'
    have hlt := (Finset.mem_filter.mp hmem).2
    by_contra hge
    have hev : EvictedFrom st si.places s ((st.vCells y.1).cell i).pos :=
      ⟨y, hy, hp, hs, Int.not_lt.mp hge⟩
    have := (le_slotRm_iff (h.pos_nonneg hplace.stream_lt hi hsi')).mpr hev
    omega
  · intro hcov t ht i hi hni
    refine Finset.filter_true_of_mem fun s hs => ?_
    by_contra hge
    obtain ⟨x, hx, hp, hsx, hle⟩ := (le_slotRm_iff (h.pos_nonneg ht hi hs)).mp (Int.not_lt.mp hge)
    have hplace := hsi.placeOk hu hx
    -- both cells hold `s`, so they are in the same stream
    have hstream : x.1 = t :=
      ((h _ hplace.stream_lt).stream _ hplace.idx_lt s hsx).2.symm.trans ((h t ht).stream i hi s hs).2
    subst hstream
    have := hcov (placeOf x) (List.mem_map_of_mem hx) hp s hsx i hi hni hs
    simp only [placeOf] at this
    omega

theorem setStepCell_snap (x y : KvCell) : snap (setStepCell x y) = snap y := rfl

/-- The cell `x` is what is left of `y` when some sequences are removed. -/
def Shrunk (x y : KvCell) : Prop := x.seq ⊆ y.seq ∧ (x.seq ≠ ∅ → x.pos = y.pos)

theorem Shrunk.refl (x : KvCell) : Shrunk x x := ⟨Finset.Subset.refl _, fun _ => rfl⟩

theorem Shrunk.trans {x y z : KvCell} (h : Shrunk x y) (h' : Shrunk y z) : Shrunk x z := by
  refine ⟨h.1.trans h'.1, fun hne => (h.2 hne).trans (h'.2 fun he => hne ?_)⟩
  exact Finset.subset_empty.mp (he ▸ h.1)

theorem shrunk_restrict {x : KvCell} {S : Finset ℕ} (h : S ⊆ x.seq) : Shrunk (x.restrict S) x := by
  refine ⟨by rwa [KvCell.restrict_seq], fun hne => ?_⟩
  rw [KvCell.restrict_seq] at hne
  exact KvCell.restrict_pos hne

theorem shrunk_setStepCell (x y : KvCell) : Shrunk (setStepCell x y) y :=
  ⟨Finset.Subset.refl _, fun _ => rfl⟩

/-- **The round trip, cell by cell.**  The invariant is kept, cells only shrink, and outside of the
cells `D` that are saved already the cells come back exactly when `Restorable` holds. -/
theorem roundTrip_spec (us : List Ubatch) (hus : ∀ u ∈ us, UbatchOk kp u) (h : Ok kp G st) :
    ∃ G', Ok kp G' (roundTrip kp st us) ∧ GrowsIn kp G G' ∧
      (∀ t < kp.nStream, ∀ i < kp.kvSize,
        Shrunk (((roundTrip kp st us).vCells t).cell i) ((st.vCells t).cell i)) ∧
      (∀ D, ((∀ t < kp.nStream, ∀ i < kp.kvSize, (t, i) ∉ D →
          snap (((roundTrip kp st us).vCells t).cell i) = snap ((st.vCells t).cell i)) ∧ G' = G)
        ↔ Restorable kp st D us) ∧
      ((∀ u ∈ us, u.DistinctSeqs) → G' = G) := by
  induction us generalizing st G with
  | nil =>
    refine ⟨G, h, GrowsIn.refl G, fun _ _ _ _ => Shrunk.refl _, fun D => ?_, fun _ => rfl⟩
    simp [Restorable, roundTrip]
  | cons u us ih =>
    have hu : UbatchOk kp u := hus u (by simp)
    cases hfind : (st.findSlot kp u false).value with
    | none =>
      refine ⟨G, ?_, GrowsIn.refl G, fun t _ i _ => ?_, fun D => ?_, fun _ => rfl⟩
      · simpa only [roundTrip, hfind] using h
      · simp only [roundTrip, hfind]
        exact Shrunk.refl _
      · simp [Restorable, roundTrip, hfind]
    | some si =>
      have hsi : SlotFits kp st u si := (h.findSlot hu hfind).fits h
      obtain ⟨⟨G1, hok1, hgrow1, hdist⟩, hoff, -, -, -⟩ := applyUbatch_spec h hu hsi
      obtain ⟨G', hok', hgrow', hsub, hiff, hsame⟩ := ih (fun v hv => hus v (by simp [hv])) hok1
      obtain ⟨hok, hroff, hrat, -, -⟩ := restore_spec hok' h hu hsi
      have hval : roundTrip kp st (u :: us)
          = ((roundTrip kp (st.applyUbatch kp si u).value us).restore (saved st si)).value := by
        simp only [roundTrip, hfind]
      have hres : ∀ D, Restorable kp st D (u :: us) ↔ u.DistinctSeqs ∧ EvictionCovered kp st si D ∧
          Restorable kp (st.applyUbatch kp si u).value (D ++ si.cells) us := by
        intro D
        simp only [Restorable, hfind]
      -- outside the slot a cell can only lose sequences
      have hsub1 : ∀ t < kp.nStream, ∀ i < kp.kvSize, (t, i) ∉ si.cells →
          Shrunk (((st.applyUbatch kp si u).value.vCells t).cell i) ((st.vCells t).cell i) := by
        intro t ht i hi hni
        rw [hoff t ht i hi hni]
        exact shrunk_restrict (Finset.filter_subset _ _)
      rw [hval]
      refine ⟨G', hok, hgrow1.trans hgrow', fun t ht i hi => ?_, fun D => ?_, fun hall => ?_⟩
      · by_cases hm : (t, i) ∈ si.cells
        · rw [hrat t i hm]
          exact shrunk_setStepCell _ _
        · rw [hroff t i hm]
          exact (hsub t ht i hi).trans (hsub1 t ht i hi hm)
      · rw [hres, ← hiff, ← keptBy_eq_iff h hu hsi]
        constructor
        · rintro ⟨hsame, hG⟩
          have hG1 : G1 = G := hgrow1.squeeze hgrow' hG
          -- a cell that is not saved was the same all along
          have hmid : ∀ t < kp.nStream, ∀ i < kp.kvSize, (t, i) ∉ D ++ si.cells →
              keptBy st si ((st.vCells t).cell i) = ((st.vCells t).cell i).seq ∧
              snap (((roundTrip kp (st.applyUbatch kp si u).value us).vCells t).cell i)
                = snap ((st.vCells t).cell i) := by
            intro t ht i hi hni
            simp only [List.mem_append, not_or] at hni
            have hback := hsame t ht i hi hni.1
            rw [hroff t i hni.2] at hback
            have hseq : (((roundTrip kp (st.applyUbatch kp si u).value us).vCells t).cell i).seq
                = ((st.vCells t).cell i).seq := by
              have hcongr := congrArg KvCell.seq hback
              exact hcongr
            have hkept : ((st.vCells t).cell i).seq ⊆ keptBy st si ((st.vCells t).cell i) := by
              rw [← hseq, ← KvCell.restrict_seq ((st.vCells t).cell i) (keptBy st si ((st.vCells t).cell i)),
                ← hoff t ht i hi hni.2]
              exact (hsub t ht i hi).1
            exact ⟨Finset.Subset.antisymm (Finset.filter_subset _ _) hkept, hback⟩
          refine ⟨hdist.mpr hG1, fun t ht i hi hni => (hmid t ht i hi hni).1, fun t ht i hi hni => ?_,
            hG.trans hG1.symm⟩
          obtain ⟨hkept, hback⟩ := hmid t ht i hi hni
          simp only [List.mem_append, not_or] at hni
          rw [hback, hoff t ht i hi hni.2, hkept, KvCell.restrict_self]
        · rintro ⟨hd, hkept, hback, hG'⟩
          refine ⟨fun t ht i hi hni => ?_, hG'.trans (hdist.mp hd)⟩
          by_cases hm : (t, i) ∈ si.cells
          · rw [hrat t i hm]
            rfl
          · have hni' : (t, i) ∉ D ++ si.cells := by simp [hni, hm]
            rw [hroff t i hm, hback t ht i hi hni', hoff t ht i hi hm, hkept t ht i hi hni',
              KvCell.restrict_self]
      · exact (hsame fun v hv => hall v (by simp [hv])).trans (hdist.mp (hall u (by simp)))

/-- **When `prepare` leaves the cells as they were.**  For every state that satisfies the invariant and
every list of ubatches, whether or not all of them fit. -/
theorem prepare_cells_iff (kp : KvParams) (G : ℕ → ℕ → ℤ → ℕ) (st : KvCache) (h : Ok kp G st)
    (us : List Ubatch) (hus : ∀ u ∈ us, UbatchOk kp u) :
    SameCells kp st (st.prepare kp us).value.1 ↔ Restorable kp st [] us := by
  obtain ⟨G', hok, hgrow, -, hiff, -⟩ := roundTrip_spec us hus h
  rw [prepare_value, sameCells_iff h hok hgrow, ← hiff]
  simp

/-! ### The heads after `prepare` -/

/-- When `prepare` puts the heads back: each stream that a slot is the first to touch has the same head as
the stream whose number is its index inside the slot.  `D` are the streams of the slots before. -/
def HeadsRestored (kp : KvParams) : KvCache → List ℕ → List Ubatch → Prop
  | _, _, [] => True
  | st, D, u :: us =>
    match (st.findSlot kp u false).value with
    | none => True
    | some si => (∀ s < si.nStream, si.strmAt s ∉ D → st.vHeads s = st.vHeads (si.strmAt s)) ∧
        HeadsRestored kp (st.applyUbatch kp si u).value (D ++ si.strm) us

instance HeadsRestored.decidable (kp : KvParams) :
    ∀ (st : KvCache) (D : List ℕ) (us : List Ubatch), Decidable (HeadsRestored kp st D us)
  | _, _, [] => isTrue trivial
  | st, D, u :: us =>
    match h : (st.findSlot kp u false).value with
    | none => isTrue (by simp only [HeadsRestored, h])
    | some si =>
      have := HeadsRestored.decidable kp (st.applyUbatch kp si u).value (D ++ si.strm) us
      decidable_of_iff ((∀ s < si.nStream, si.strmAt s ∉ D → st.vHeads s = st.vHeads (si.strmAt s)) ∧
        HeadsRestored kp (st.applyUbatch kp si u).value (D ++ si.strm) us) (by simp only [HeadsRestored, h])

/-- **The round trip, head by head**, for the streams outside of `D`. -/
theorem roundTrip_heads (us : List Ubatch) (hus : ∀ u ∈ us, UbatchOk kp u) (h : Ok kp G st)
    (D : List ℕ) :
    (∀ t < kp.nStream, t ∉ D → (roundTrip kp st us).vHeads t = st.vHeads t) ↔ HeadsRestored kp st D us := by
  induction us generalizing st G D with
  | nil => simp [HeadsRestored, roundTrip]
  | cons u us ih =>
    have hu : UbatchOk kp u := hus u (by simp)
    cases hfind : (st.findSlot kp u false).value with
    | none => simp [HeadsRestored, roundTrip, hfind]
    | some si =>
      have hsi : SlotFits kp st u si := (h.findSlot hu hfind).fits h
      obtain ⟨⟨G1, hok1, -, -⟩, -, -, hheads1, -⟩ := applyUbatch_spec h hu hsi
      obtain ⟨G', hok', -, -, -⟩ := roundTrip_spec us (fun v hv => hus v (by simp [hv])) hok1
      obtain ⟨-, -, -, hother, hslot⟩ := restore_spec hok' h hu hsi
      have hval : roundTrip kp st (u :: us)
          = ((roundTrip kp (st.applyUbatch kp si u).value us).restore (saved st si)).value := by
        simp only [roundTrip, hfind]
      have hin : ∀ s < si.nStream, si.strmAt s < kp.nStream := fun s hs => by
        rw [hsi.strm s (hsi.strm_length ▸ hs)]
        exact kp.streamOf_lt _
      -- a stream that the slot does not touch keeps its head over `apply_ubatch` and over the undo
      have hout : ∀ t ∉ si.strm, (roundTrip kp st (u :: us)).vHeads t
            = (roundTrip kp (st.applyUbatch kp si u).value us).vHeads t ∧
          (st.applyUbatch kp si u).value.vHeads t = st.vHeads t := by
        intro t ht
        have hne : ∀ s < si.nStream, si.strmAt s ≠ t := fun s hs heq =>
          ht ((SlotInfo.mem_strm).mpr ⟨s, hs, heq⟩)
        rw [hval]
        exact ⟨hother t hne, hheads1 t hne⟩
      have hres : HeadsRestored kp st D (u :: us) ↔
          (∀ s < si.nStream, si.strmAt s ∉ D → st.vHeads s = st.vHeads (si.strmAt s)) ∧
            HeadsRestored kp (st.applyUbatch kp si u).value (D ++ si.strm) us := by
        simp only [HeadsRestored, hfind]
      rw [hres, ← ih (fun v hv => hus v (by simp [hv])) hok1]
      constructor
      · intro hsame
        refine ⟨fun s hs hD => ?_, fun t ht hD => ?_⟩
        · have hback := hsame _ (hin s hs) hD
          rwa [hval, hslot s hs] at hback
        · rw [List.mem_append, not_or] at hD
          rw [← (hout t hD.2).1, (hout t hD.2).2]
          exact hsame t ht hD.1
      · rintro ⟨hfirst, hrest⟩ t ht hD
        by_cases hmem : t ∈ si.strm
        · obtain ⟨s, hs, rfl⟩ := (SlotInfo.mem_strm).mp hmem
          rw [hval, hslot s hs]
          exact hfirst s hs hD
        · rw [(hout t hmem).1, ← (hout t hmem).2]
          exact hrest t ht (by simp [hD, hmem])

/-- **When `prepare` leaves the heads as they were**, on success and on failure. -/
theorem prepare_heads_iff (kp : KvParams) (G : ℕ → ℕ → ℤ → ℕ) (st : KvCache) (h : Ok kp G st)
    (us : List Ubatch) (hus : ∀ u ∈ us, UbatchOk kp u) :
    (∀ t < kp.nStream, (st.prepare kp us).value.1.vHeads t = st.vHeads t) ↔ HeadsRestored kp st [] us := by
  rw [prepare_value, ← roundTrip_heads us hus h]
  simp

end KvCache
