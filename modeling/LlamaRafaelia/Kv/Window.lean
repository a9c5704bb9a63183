import LlamaRafaelia.Kv.Apply

/-!
# Evictions never reach into the window

A cell may be taken over only when the window hides it from the next token of its sequence.  Moving the key back and
the query forward never brings a masked pair into view.
-/

theorem isMaskedSwa_mono {nSwa : ℕ} {swaType : SwaType} {p p0 p1 q : ℤ} (hp : p ≤ p0) (hq : p1 ≤ q)
    (hle : p0 ≤ p1) (h : (isMaskedSwa nSwa swaType p0 p1).value = true) :
    (isMaskedSwa nSwa swaType p q).value = true := by
  cases swaType with
  | none => simp [isMaskedSwa] at h
  | standard =>
    simp only [isMaskedSwa, Checked.bind_value, Checked.pure_value, decide_eq_true_eq] at h ⊢
    omega
  | chunked =>
    simp only [isMaskedSwa, Checked.bind_value, Checked.pure_value, decide_eq_true_eq] at h ⊢
    have hstart : p1 / (nSwa : ℤ) * nSwa ≤ q / (nSwa : ℤ) * nSwa := by
      rcases Nat.eq_zero_or_pos nSwa with rfl | hn
      · simp
      · have hn' : (0 : ℤ) < nSwa := by exact_mod_cast hn
        exact Int.mul_le_mul_of_nonneg_right (Int.ediv_le_ediv hn' hq) hn'.le
    omega
  | symmetric =>
    simp only [isMaskedSwa, Checked.bind_value, Checked.pure_value, decide_eq_true_eq] at h ⊢
    -- below the window only when the half width is negative, and then everything is masked
    omega

namespace KvCache

open Checked KvCells

variable {kp : KvParams} {st : KvCache} {G : ℕ → ℕ → ℤ → ℕ} {u : Ubatch} {cont : Bool} {si : SlotInfo}

/-- Some cell stores position `p` of sequence `s`. -/
def Holds (kp : KvParams) (st : KvCache) (s : ℕ) (p : ℤ) : Prop :=
  ∃ i < kp.kvSize, s ∈ ((st.vCells (kp.streamOf s)).cell i).seq ∧
    ((st.vCells (kp.streamOf s)).cell i).pos = p

theorem SlotOk.evicted_masked (hsi : SlotOk kp st u cont si) (hu : UbatchOk kp u) (h : Ok kp G st)
    {x : ℕ × ℕ × ℕ} (hx : x ∈ si.places) {s : ℕ} (hs : s ∈ ((st.vCells x.1).cell x.2.1).seq) :
    (kp.isMasked ((st.vCells x.1).cell x.2.1).pos
        (((st.vCells (kp.streamOf s)).seqPosMax s).value + 1)).value = true ∧
      ((st.vCells x.1).cell x.2.1).pos ≤ ((st.vCells (kp.streamOf s)).seqPosMax s).value := by
  obtain ⟨b, hb, -, -, hstrm, hidx, -, -⟩ := (hsi.fits h).mem_places hu hx
  have hplace := (hsi.fits h).placeOk hu hx
  have hok := h _ hplace.stream_lt
  have hin : x.2.1 < (st.vCells x.1).size := hok.size ▸ hplace.idx_lt
  have husable : Usable kp (st.vCells x.1) x.2.1 := hstrm ▸ (hsi.usable b hb _ hidx).2
  have hstream := (hok.stream _ hplace.idx_lt s hs).2
  rw [hstream]
  refine ⟨?_, le_seqPosMax hok.sound hin hs⟩
  rcases (usable_iff hok.sound hin).mp husable with hempty | ⟨-, s', hs', hmasked⟩
  · exact absurd hempty (hok.sound.seq_used _ hin (Finset.ne_empty_of_mem hs))
  · have heq : s = s' := by
      have hmem : s ∈ (st.vCells x.1).seq x.2.1 := hs
      rwa [hs', Finset.mem_singleton] at hmem
    rw [heq]
    exact hmasked

/-- **Nothing in view is lost.**  A stored position that a later query of the sequence can see is still
stored after the ubatch is placed. -/
theorem applyUbatch_holds (h : Ok kp G st) (hu : UbatchOk kp u) (hsi : SlotOk kp st u cont si) {s : ℕ}
    {p q : ℤ} (hq : ((st.vCells (kp.streamOf s)).seqPosMax s).value + 1 ≤ q) (hhold : Holds kp st s p)
    (hvis : (kp.isMasked p q).value = false) : Holds kp (st.applyUbatch kp si u).value s p := by
  obtain ⟨-, hoff, -, -, -⟩ := applyUbatch_spec h hu (hsi.fits h)
  obtain ⟨i, hi, hs, rfl⟩ := hhold
  have ht := kp.streamOf_lt s
  -- an evicted cell of `s` at or above the position would have hidden it from `q`
  have hsafe : ∀ x ∈ si.places, s ∈ ((st.vCells x.1).cell x.2.1).seq →
      ¬ ((st.vCells (kp.streamOf s)).cell i).pos ≤ ((st.vCells x.1).cell x.2.1).pos := by
    intro x hx hsx hle
    obtain ⟨hmasked, hmax⟩ := hsi.evicted_masked hu h hx hsx
    have := isMaskedSwa_mono hle hq (by omega) hmasked
    rw [KvParams.isMasked, this] at hvis
    exact absurd hvis (by simp)
  by_cases hcell : (kp.streamOf s, i) ∈ si.cells
  · obtain ⟨x, hx, hxeq⟩ := List.mem_map.mp hcell
    obtain ⟨h1, h2⟩ := Prod.mk.inj hxeq
    have hno := hsafe x hx (by rw [h1, h2]; exact hs)
    rw [h1, h2] at hno
    exact absurd (le_refl _) hno
  · have hkept : s ∈ keptBy st si ((st.vCells (kp.streamOf s)).cell i) := by
      refine Finset.mem_filter.mpr ⟨hs, ?_⟩
      by_contra hge
      obtain ⟨x, hx, -, hsx, hle⟩ := (le_slotRm_iff (h.pos_nonneg ht hi hs)).mp (Int.not_lt.mp hge)
      exact hsafe x hx hsx hle
    refine ⟨i, hi, ?_, ?_⟩
    · rw [hoff _ ht i hi hcell, KvCell.restrict_seq]
      exact hkept
    · rw [hoff _ ht i hi hcell, KvCell.restrict_pos (Finset.ne_empty_of_mem hkept)]

end KvCache
