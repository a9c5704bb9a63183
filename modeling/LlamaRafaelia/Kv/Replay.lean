import LlamaRafaelia.Kv.Prepare

/-!
# Applying the slots that `prepare` found

The slots are applied to a state that is not quite the one the simulation started from: cells that a purge emptied
were not restored.  Cell by cell the state stays between the simulated one and what the simulation will leave behind
(`Between`).
-/

namespace KvCache

open Checked KvCells

variable {kp : KvParams} {st ρ : KvCache} {G Gρ : ℕ → ℕ → ℤ → ℕ} {u : Ubatch} {si : SlotInfo}

/-! ### The simulation -/

/-- The slots that the simulation finds, `none` when a ubatch does not fit. -/
def findAll (kp : KvParams) : KvCache → List Ubatch → Option (List SlotInfo)
  | _, [] => some []
  | st, u :: us =>
    match (st.findSlot kp u false).value with
    | none => none
    | some si => (findAll kp (st.applyUbatch kp si u).value us).map (si :: ·)

def placeAll (kp : KvParams) : KvCache → List Ubatch → KvCache
  | st, [] => st
  | st, u :: us =>
    match (st.findSlot kp u false).value with
    | none => st
    | some si => placeAll kp (st.applyUbatch kp si u).value us

theorem prepareLoop_slots (kp : KvParams) (st : KvCache) (us : List Ubatch) :
    (prepareLoop kp st [] us).value.2.2 = (findAll kp st us).isSome ∧
      ∀ l, findAll kp st us = some l →
        ((prepareLoop kp st [] us).value.2.1.map (·.sinfo)).reverse = l := by
  induction us generalizing st with
  | nil => simp [prepareLoop, findAll]
  | cons u us ih =>
    simp only [prepareLoop, findAll, bind_value]
    cases (st.findSlot kp u false).value with
    | none => simp
    | some si =>
      obtain ⟨-, h2, h3⟩ := prepareLoop_append kp (st.applyUbatch kp si u).value
        [⟨si, st.vHeads, (st.snapshot si).value⟩] us
      obtain ⟨hsome, hlist⟩ := ih (st.applyUbatch kp si u).value
      simp only [bind_value, h2, h3, hsome, Option.isSome_map, true_and]
      intro l hl
      obtain ⟨l', hl', rfl⟩ := Option.map_eq_some_iff.mp hl
      rw [List.map_append, List.reverse_append, hlist l' hl']
      rfl

theorem prepare_slots (kp : KvParams) (st : KvCache) (us : List Ubatch) :
    (st.prepare kp us).value.2 = (findAll kp st us).getD [] := by
  obtain ⟨hsome, hlist⟩ := prepareLoop_slots kp st us
  simp only [prepare, bind_value, pure_value, hsome]
  cases hfind : findAll kp st us with
  | none => rfl
  | some l => exact hlist l hfind

/-! ### Between the simulation and what it leaves -/

/-- Every cell of `ρ` is the one of `st` or the one of `τ`. -/
def Between (kp : KvParams) (ρ st τ : KvCache) : Prop :=
  ∀ t < kp.nStream, ∀ i < kp.kvSize,
    snap ((ρ.vCells t).cell i) = snap ((st.vCells t).cell i) ∨
      snap ((ρ.vCells t).cell i) = snap ((τ.vCells t).cell i)

theorem snap_restrict {x y : KvCell} (h : snap x = snap y) (S : Finset ℕ) :
    snap (x.restrict S) = snap (y.restrict S) := by
  obtain ⟨hpos, hext, hseq⟩ := (snap_eq_iff).mp h
  unfold KvCell.restrict
  rw [hseq]
  split
  · exact h
  · split
    · rfl
    · exact (snap_eq_iff).mpr ⟨hpos, hext, rfl⟩

theorem snap_placeCell {x y : KvCell} (h : snap x = snap y) (u : Ubatch) (i : ℕ) :
    snap (placeCell u i (evictCell x)) = snap (placeCell u i (evictCell y)) := by
  obtain ⟨hpos, hext, hseq⟩ := (snap_eq_iff).mp h
  unfold evictCell
  rw [hpos]
  split
  · refine (snap_eq_iff).mpr ⟨rfl, ?_, ?_⟩
    · simp only [placeCell, hext]
    · simp only [placeCell, hseq]
  · rfl

theorem keptSeqs_congr {rm : ℕ → ℤ} {x y : KvCell} (h : snap x = snap y) : keptSeqs rm x = keptSeqs rm y := by
  obtain ⟨hpos, -, hseq⟩ := (snap_eq_iff).mp h
  rw [keptSeqs, keptSeqs, hpos, hseq]

theorem slotRm_congr {l : List (ℕ × ℕ × ℕ)}
    (h : ∀ x ∈ l, snap ((ρ.vCells x.1).cell x.2.1) = snap ((st.vCells x.1).cell x.2.1)) :
    slotRm ρ l = slotRm st l := by
  refine List.foldl_ext _ _ _ fun rm x hx => ?_
  obtain ⟨hpos, -, hseq⟩ := (snap_eq_iff).mp (h x hx)
  funext s
  simp only [evictRm, hpos, hseq]

theorem SlotFits.congr (hsi : SlotFits kp st u si) (hu : UbatchOk kp u)
    (h : ∀ t i, (t, i) ∈ si.cells → snap ((ρ.vCells t).cell i) = snap ((st.vCells t).cell i)) :
    SlotFits kp ρ u si := by
  refine { hsi with single := fun s hs i hi hp => ?_ }
  have hs' : s < si.nStream := lt_of_lt_of_eq hs hsi.strm_length.symm
  have hcell := h (si.strmAt s) i ((hsi.mem_cells hu).mpr ⟨s, hs', rfl, hi⟩)
  obtain ⟨hpos, -, hseq⟩ := (snap_eq_iff).mp hcell
  rw [show (ρ.vCells (si.strmAt s)).pos i = (st.vCells (si.strmAt s)).pos i from hpos] at hp
  obtain ⟨q, hq⟩ := hsi.single s hs i hi hp
  exact ⟨q, hseq.trans hq⟩

/-- **One replayed placement.**  The slot of the simulation fits, and the cells stay between. -/
theorem replay_step (hρ : Ok kp Gρ ρ) (hst : Ok kp G st) {us : List Ubatch} (hu : UbatchOk kp u)
    (hus : ∀ v ∈ us, UbatchOk kp v) (hfind : (st.findSlot kp u false).value = some si)
    (h : Between kp ρ st (roundTrip kp st (u :: us))) :
    SlotFits kp ρ u si ∧ Between kp (ρ.applyUbatch kp si u).value (st.applyUbatch kp si u).value
      (roundTrip kp (st.applyUbatch kp si u).value us) := by
  have hsi : SlotFits kp st u si := (hst.findSlot hu hfind).fits hst
  obtain ⟨⟨G1, hok1, -, -⟩, hoff, hat, -, -⟩ := applyUbatch_spec hst hu hsi
  obtain ⟨G', hok', -, hshrunk, -⟩ := roundTrip_spec us hus hok1
  obtain ⟨-, hroff, hrat, -, -⟩ := restore_spec hok' hst hu hsi
  have hval : roundTrip kp st (u :: us)
      = ((roundTrip kp (st.applyUbatch kp si u).value us).restore (saved st si)).value := by
    simp only [roundTrip, hfind]
  rw [hval] at h
  -- the cells of the slot are restored, so there is nothing between
  have hslot : ∀ t i, (t, i) ∈ si.cells →
      snap ((ρ.vCells t).cell i) = snap ((st.vCells t).cell i) := by
    intro t i hm
    obtain ⟨x, hx, hxeq⟩ := List.mem_map.mp hm
    obtain ⟨h1, h2⟩ := Prod.mk.inj hxeq
    have hplace := hsi.placeOk hu hx
    rcases h t (h1 ▸ hplace.stream_lt) i (h2 ▸ hplace.idx_lt) with heq | heq
    · exact heq
    · rw [heq, hrat t i hm]
      exact setStepCell_snap _ _
  have hfits := hsi.congr hu hslot
  have hrm : slotRm ρ si.places = slotRm st si.places :=
    slotRm_congr fun x hx => hslot x.1 x.2.1 (List.mem_map_of_mem hx)
  obtain ⟨-, hoffρ, hatρ, -, -⟩ := applyUbatch_spec hρ hu hfits
  refine ⟨hfits, fun t ht i hi => ?_⟩
  by_cases hm : (t, i) ∈ si.cells
  · obtain ⟨x, hx, hxeq⟩ := List.mem_map.mp hm
    obtain ⟨rfl, rfl⟩ := Prod.mk.inj hxeq
    left
    have hcell := snap_placeCell (hslot x.1 x.2.1 hm) u x.2.2
    rw [hatρ x hx, hat x hx, keptBy, keptBy, hrm, keptSeqs_congr hcell]
    exact snap_restrict hcell _
  · rw [hoffρ t ht i hi hm, hoff t ht i hi hm, keptBy, keptBy, hrm]
    rcases h t ht i hi with heq | heq
    · left
      rw [keptSeqs_congr heq]
      exact snap_restrict heq _
    · -- this cell already lost what the simulation purges
      right
      rw [hroff t i hm] at heq
      have hsh := hshrunk t ht i hi
      rw [hoff t ht i hi hm] at hsh
      obtain ⟨hsub, hpos⟩ := hsh
      rw [KvCell.restrict_seq] at hsub
      rw [keptSeqs_congr heq]
      have hkept : keptSeqs (slotRm st si.places)
          (((roundTrip kp (st.applyUbatch kp si u).value us).vCells t).cell i)
          = (((roundTrip kp (st.applyUbatch kp si u).value us).vCells t).cell i).seq := by
        refine Finset.filter_true_of_mem fun s hs => ?_
        have hmem := Finset.mem_filter.mp (hsub hs)
        rw [hpos (Finset.ne_empty_of_mem hs), KvCell.restrict_pos (Finset.ne_empty_of_mem (hsub hs))]
        exact hmem.2
      rw [hkept, ← ((snap_eq_iff).mp heq).2.2, KvCell.restrict_self]
      exact heq

/-! ### The whole replay -/

/-- The loop of `decode` over the ubatches, each with its slot. -/
def applyAll (kp : KvParams) (st : KvCache) (l : List (SlotInfo × Ubatch)) : Checked KvCache :=
  loop (fun st x => st.applyUbatch kp x.1 x.2) st l

/-- **The replay** of any number of placements keeps the invariant; when all of them were made the cells are
those of the simulation. -/
theorem replay (us : List Ubatch) (hus : ∀ u ∈ us, UbatchOk kp u) (n : ℕ) (slots : List SlotInfo)
    (hfind : findAll kp st us = some slots) (hρ : Ok kp Gρ ρ) (hst : Ok kp G st)
    (h : Between kp ρ st (roundTrip kp st us)) :
    let r := applyAll kp ρ ((slots.zip us).take n)
    (∃ G', Ok kp G' r.value ∧ ((∀ u ∈ us, u.DistinctSeqs) → G' = Gρ ∧ r.asserts = true)) ∧
      (us.length ≤ n → ∀ t < kp.nStream, ∀ i < kp.kvSize,
        snap ((r.value.vCells t).cell i) = snap (((placeAll kp st us).vCells t).cell i)) := by
  induction us generalizing st ρ G Gρ n slots with
  | nil =>
    refine ⟨⟨Gρ, ?_, fun _ => ⟨rfl, ?_⟩⟩, fun _ t ht i hi => ?_⟩
    · simpa [applyAll] using hρ
    · simp [applyAll]
    · have hcell := h t ht i hi
      simp only [roundTrip, or_self] at hcell
      simpa [applyAll, placeAll] using hcell
  | cons u us ih =>
    have hu : UbatchOk kp u := hus u (by simp)
    have hus' : ∀ v ∈ us, UbatchOk kp v := fun v hv => hus v (by simp [hv])
    cases hslot : (st.findSlot kp u false).value with
    | none => simp [findAll, hslot] at hfind
    | some si =>
      simp only [findAll, hslot] at hfind
      obtain ⟨slots', hfind', rfl⟩ := Option.map_eq_some_iff.mp hfind
      obtain ⟨hfits, hbetween⟩ := replay_step hρ hst hu hus' hslot h
      obtain ⟨⟨G1, hok1, -, hdist⟩, -, -, -, hasserts⟩ := applyUbatch_spec hρ hu hfits
      obtain ⟨⟨G2, hok2, -, -⟩, -, -, -, -⟩ :=
        applyUbatch_spec hst hu ((hst.findSlot hu hslot).fits hst)
      have hplace : placeAll kp st (u :: us) = placeAll kp (st.applyUbatch kp si u).value us := by
        simp only [placeAll, hslot]
      cases n with
      | zero =>
        refine ⟨⟨Gρ, ?_, fun _ => ⟨rfl, ?_⟩⟩, fun hle => absurd hle (by simp)⟩
        · simpa [applyAll] using hρ
        · simp [applyAll]
      | succ n =>
        obtain ⟨⟨G', hok', hsame⟩, hcells⟩ := ih hus' n slots' hfind' hok1 hok2 hbetween
        have hloop : applyAll kp ρ (((si :: slots').zip (u :: us)).take (n + 1)) = (do
            let ρ' ← ρ.applyUbatch kp si u
            applyAll kp ρ' ((slots'.zip us).take n)) := by
          simp only [applyAll, List.zip_cons_cons, List.take_succ_cons, loop_cons]
        rw [hloop, hplace]
        refine ⟨⟨G', hok', fun hall => ?_⟩, fun hle => hcells (by simpa using hle)⟩
        have hd := hall u (by simp)
        obtain ⟨hG, hass⟩ := hsame fun v hv => hall v (by simp [hv])
        refine ⟨hG.trans (hdist.mp hd), ?_⟩
        rw [bind_asserts, hasserts hd, hass]
        rfl

end KvCache
