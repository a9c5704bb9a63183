import LlamaRafaelia.Batch.Rules

/-!
# What the last loop of `init` leaves unchecked

A batch with decreasing positions or with incompatible sequence sets is refused only where another check of `init`
happens to refuse it.  Both results are about everything the other checks depend on, and are exact there.

* `init_nonDecreasing_iff` - the lists of a batch and the memory fix the order, or some positions break it.
* `init_compatible_iff` - incompatible sets need two tokens and three sequences with equal positions in the memory.
-/

namespace BatchAllocr

open List Checked Function

/-- A value of the 32-bit type `llama_pos`. -/
def IsPos (p : ℤ) : Prop := -2 ^ 31 ≤ p ∧ p < 2 ^ 31

instance (p : ℤ) : Decidable (IsPos p) := inferInstanceAs (Decidable (_ ∧ _))

/-- The sequences that token `i` lists. -/
def listed (b : Batch) (i : ℕ) : List ℕ := (fillSeqId b).getD i []

/-- The memory holds the same range of positions for both sequences. -/
def SameRange (memory : Option Memory) (s t : ℕ) : Prop :=
  ∀ m ∈ memory, m.seqPosMin s = m.seqPosMin t ∧ m.seqPosMax s = m.seqPosMax t

/-- The checks of `init` that do not depend on the positions. -/
structure Admits (nVocab : ℕ) (b : Batch) (memory : Option Memory) (nSeqMax : ℕ) : Prop where
  nSeqMax_le : nSeqMax ≤ llamaMaxSeq
  tokens : tokensOk nVocab b = true
  seqIds : seqIdsOk nSeqMax b = true
  coupled : ∀ i < b.nTokens, ∀ s ∈ listed b i, SameRange memory s ((listed b i).headD 0)

/-- The lowest position that the consistency checks allow in sequence `s`, and `0` if the memory has none of it. -/
def lowest (nPosPerEmbd : ℕ) (text : Bool) (memory : Option Memory) (s : ℕ) : ℤ :=
  if lastPos memory s < 0 then 0
  else if 1 < nPosPerEmbd ∧ text = false then lastPos memory s
  else lastPos memory s + 1

variable {nPosPerEmbd nVocab : ℕ} {b : Batch} {memory : Option Memory} {nSeqMax : ℕ} {outputAll : Bool}
variable {a : BatchAllocr} {s t i j : ℕ}

/-! ### The positions of a sequence -/

theorem seqPosMin_spec (h : (a.seqPos s).Nonempty) :
    a.seqPosMin s ∈ a.seqPos s ∧ ∀ p ∈ a.seqPos s, a.seqPosMin s ≤ p := by
  obtain ⟨m, hm⟩ := Finset.min_of_nonempty h
  have hmin : a.seqPosMin s = m := by rw [seqPosMin, hm, WithTop.untopD_coe]
  rw [hmin]
  exact ⟨Finset.mem_of_min hm, fun p hp => WithTop.coe_le_coe.mp (hm ▸ Finset.min_le hp)⟩

theorem seqPosMax_spec (h : (a.seqPos s).Nonempty) :
    a.seqPosMax s ∈ a.seqPos s ∧ ∀ p ∈ a.seqPos s, p ≤ a.seqPosMax s := by
  obtain ⟨m, hm⟩ := Finset.max_of_nonempty h
  have hmax : a.seqPosMax s = m := by rw [seqPosMax, hm, WithBot.unbotD_coe]
  rw [hmax]
  exact ⟨Finset.mem_of_max hm, fun p hp => WithBot.coe_le_coe.mp (hm ▸ Finset.le_max hp)⟩

theorem mem_seqPos {p : ℤ} : p ∈ a.seqPos s ↔ ∃ i < a.nTokens, s ∈ a.seqAt i ∧ a.posAt i = p := by
  simp only [seqPos, tokensOf, mem_toFinset, mem_map, mem_filter, List.mem_range, decide_eq_true_eq, and_assoc]

theorem lastPos_congr (h : SameRange memory s t) : lastPos memory s = lastPos memory t := by
  cases memory with
  | none => rfl
  | some m => exact (h m rfl).2

theorem lowest_congr {text : Bool} (h : SameRange memory s t) :
    lowest nPosPerEmbd text memory s = lowest nPosPerEmbd text memory t := by
  rw [lowest, lowest, lastPos_congr h]

theorem lowest_nonneg (text : Bool) : 0 ≤ lowest nPosPerEmbd text memory s := by
  unfold lowest
  split
  · exact le_rfl
  split
  · omega
  · omega

theorem held_iff : Held memory s ↔ 0 ≤ lastPos memory s := by
  cases memory with
  | none => exact ⟨fun ⟨m, hm, _⟩ => (by cases hm), fun h => absurd h (by show ¬ (0 : ℤ) ≤ -1; decide)⟩
  | some m => exact ⟨fun ⟨m', hm, h⟩ => (Option.mem_some.mp hm) ▸ h, fun h => ⟨m, rfl, h⟩⟩

/-- The consistency check that `init` runs on sequence `s`. -/
def checkSeq (a : BatchAllocr) (memory : Option Memory) : ℕ → Except BatchError Unit :=
  if 1 < a.nPosPerEmbd then a.checkMrope memory else a.checkSeqPos memory

theorem checkSeq_ge (h : a.checkSeq memory s = .ok ()) (hheld : Held memory s) (hne : (a.seqPos s).Nonempty) :
    lowest a.nPosPerEmbd a.token.isSome memory s ≤ a.seqPosMin s := by
  have hlast := Int.not_lt.mpr ((held_iff).mp hheld)
  rw [lowest, if_neg hlast]
  by_cases hemb : 1 < a.nPosPerEmbd
  · rw [checkSeq, if_pos hemb, checkMrope, if_neg hne.ne_empty] at h
    split at h
    · next htext =>
      rw [if_neg fun hand => by simp [hand.2] at htext]
      split at h
      · cases h
      · omega
    · next htext =>
      rw [if_pos ⟨hemb, by simpa using htext⟩]
      split at h
      · cases h
      · omega
  · rw [checkSeq, if_neg hemb, checkSeqPos, if_neg hne.ne_empty] at h
    rw [if_neg fun hand => hemb hand.1]
    split at h
    · cases h
    · omega

theorem checkSeq_eq (h : a.checkSeq memory s = .ok ()) (hheld : Held memory s) (hne : (a.seqPos s).Nonempty)
    (hemb : a.nPosPerEmbd ≤ 1) : a.seqPosMin s = lowest a.nPosPerEmbd a.token.isSome memory s := by
  have hlast := Int.not_lt.mpr ((held_iff).mp hheld)
  have hemb' : ¬ 1 < a.nPosPerEmbd := Nat.not_lt.mpr hemb
  rw [lowest, if_neg hlast, if_neg fun hand => hemb' hand.1]
  rw [checkSeq, if_neg hemb', checkSeqPos, if_neg hne.ne_empty] at h
  split at h
  · cases h
  · omega

theorem seqPos_card_ge (hne : (a.seqPos s).Nonempty)
    (hstep : a.seqPosMax s = a.seqPosMin s ∨ a.seqPosMax s = a.seqPosMin s + 1) :
    a.seqPosMax s - a.seqPosMin s + 1 ≤ (a.seqPos s).card := by
  rcases hstep with heq | heq
  · have := Finset.card_pos.mpr hne
    omega
  · have := Finset.one_lt_card.mpr ⟨_, (seqPosMax_spec hne).1, _, (seqPosMin_spec hne).1, by omega⟩
    omega

/-- Positions at the lowest one and right above it pass, if the lowest one is there where it has to be. -/
theorem checkSeq_ok {low : ℤ} (hlow : low = lowest a.nPosPerEmbd a.token.isSome memory s)
    (hpos : ∀ p ∈ a.seqPos s, p = low ∨ p = low + 1)
    (hmin : a.nPosPerEmbd ≤ 1 → Held memory s → (a.seqPos s).Nonempty → low ∈ a.seqPos s) :
    a.checkSeq memory s = .ok () := by
  by_cases hne : (a.seqPos s).Nonempty
  swap
  · have hnil := Finset.not_nonempty_iff_eq_empty.mp hne
    rw [checkSeq]
    split
    · rw [checkMrope, if_pos hnil]
    · rw [checkSeqPos, if_pos hnil]
  obtain ⟨hmem, hle⟩ := seqPosMin_spec hne
  obtain ⟨hmem', hge⟩ := seqPosMax_spec hne
  have hat := hpos _ hmem
  have hat' := hpos _ hmem'
  have hge' := hge _ hmem
  by_cases hlast : lastPos memory s < 0
  · -- any position may be the first one
    rw [checkSeq]
    split
    · rw [checkMrope, if_neg hne.ne_empty]
      split
      · exact if_neg fun h => Int.not_lt.mpr h.1 hlast
      · exact if_neg fun h => Int.not_lt.mpr h.1 hlast
    · rw [checkSeqPos, if_neg hne.ne_empty, if_neg fun h => Int.not_lt.mpr h.1 hlast, if_neg]
      exact Int.not_lt.mpr (seqPos_card_ge hne (by omega))
  · have hheld : Held memory s := (held_iff).mpr (Int.not_lt.mp hlast)
    rw [lowest, if_neg hlast] at hlow
    rw [checkSeq]
    split
    · next hemb =>
      rw [checkMrope, if_neg hne.ne_empty]
      split
      · next htext =>
        rw [if_neg fun hand => by simp [hand.2] at htext] at hlow
        rw [if_neg fun h => by omega]
      · next htext =>
        rw [if_pos ⟨hemb, by simpa using htext⟩] at hlow
        rw [if_neg fun h => by omega]
    · next hemb =>
      rw [if_neg fun hand => hemb hand.1] at hlow
      have hfirst := hle low (hmin (Nat.not_lt.mp hemb) hheld hne)
      rw [checkSeqPos, if_neg hne.ne_empty, if_neg fun h => h.2 (by omega), if_neg]
      exact Int.not_lt.mpr (seqPos_card_ge hne (by omega))

/-! ### What `init` accepts -/

theorem coupled_iff {a : BatchAllocr} :
    a.seqCpl.forM (checkCoupled memory) = .ok () ↔
      ∀ i < a.nTokens, ∀ s ∈ a.seqAt i, SameRange memory s ((a.seqAt i).headD 0) := by
  have hstep : ∀ x, checkCoupled memory x = .ok () ↔ SameRange memory x.1 x.2 := by
    intro x
    cases memory with
    | none => exact ⟨fun _ m hm => (by cases hm), fun _ => rfl⟩
    | some m =>
      rw [checkCoupled]
      constructor
      · intro h m' hm
        obtain rfl := Option.mem_some.mp hm
        split at h
        · cases h
        · next hno => exact ⟨not_not.mp (not_or.mp hno).1, not_not.mp (not_or.mp hno).2⟩
      · intro h
        obtain ⟨hmin, hmax⟩ := h m rfl
        simp [hmin, hmax]
  rw [forM_ok_iff]
  simp only [hstep, seqCpl, mem_flatMap, List.mem_range, mem_map]
  constructor
  · intro h i hi s hs
    cases hl : a.seqAt i with
    | nil => exact absurd hs (by rw [hl]; exact not_mem_nil)
    | cons q rest =>
      rw [hl] at hs
      rcases mem_cons.mp hs with rfl | hs
      · exact fun _ _ => ⟨rfl, rfl⟩
      · have hq := h (s, (a.seqAt i).headD 0) ⟨i, hi, s, by rw [hl]; exact hs, rfl⟩
        rwa [hl] at hq
  · rintro h x ⟨i, hi, s, hs, rfl⟩
    exact h i hi s (mem_of_mem_tail hs)

theorem passes_iff : Passes nPosPerEmbd nVocab b memory nSeqMax outputAll ↔
    Admits nVocab b memory nSeqMax ∧
      (∀ s < nSeqMax, (sanitize nPosPerEmbd b memory nSeqMax outputAll).checkSeq memory s = .ok ()) ∧
      ∀ i < b.nTokens, listed b i ≠ [] → -1 ≤ (sanitize nPosPerEmbd b memory nSeqMax outputAll).posAt i := by
  constructor
  · intro h
    refine ⟨⟨h.nSeqMax_le, h.tokens, h.seqIds, (coupled_iff).mp h.coupled⟩, fun s hs => ?_, fun i hi hne => ?_⟩
    · exact (forM_ok_iff _ _).mp h.consistent s (List.mem_range.mpr hs)
    · obtain ⟨s, hs⟩ := exists_mem_of_ne_nil _ hne
      exact h.ge (i, s) ((mem_memberships).mpr ⟨hi, hs⟩)
  · rintro ⟨hadm, hcheck, hge⟩
    refine ⟨hadm.nSeqMax_le, hadm.tokens, hadm.seqIds, (forM_ok_iff _ _).mpr fun s hs => ?_,
      (coupled_iff).mpr hadm.coupled, fun x hx => ?_⟩
    · exact hcheck s (List.mem_range.mp hs)
    · obtain ⟨hi, hs⟩ := (mem_memberships).mp hx
      exact hge x.1 hi (ne_nil_of_mem hs)

theorem Admits.sameRange (h : Admits nVocab b memory nSeqMax) (hi : i < b.nTokens) (hs : s ∈ listed b i)
    (ht : t ∈ listed b i) : SameRange memory s t := fun m hm =>
  ⟨(h.coupled i hi s hs m hm).1.trans (h.coupled i hi t ht m hm).1.symm,
    (h.coupled i hi s hs m hm).2.trans (h.coupled i hi t ht m hm).2.symm⟩

theorem Admits.seq_lt (h : Admits nVocab b memory nSeqMax) (hpos : 0 < nSeqMax) (hi : i < b.nTokens)
    (hs : s ∈ listed b i) : s < nSeqMax := by
  have hlt : i < (fillSeqId b).length := by rwa [fillSeqId_length]
  rw [listed, getD_eq_getElem _ _ hlt] at hs
  exact fillSeqId_lt hpos le_rfl h.seqIds _ (getElem_mem hlt) s hs

/-- A batch whose tokens are at the lowest position of their sequences or right above it. -/
theorem passes_of_lowest (hadm : Admits nVocab b memory nSeqMax)
    (hpos : ∀ i < b.nTokens, ∀ s ∈ listed b i,
      (sanitize nPosPerEmbd b memory nSeqMax outputAll).posAt i = lowest nPosPerEmbd b.token.isSome memory s ∨
      (sanitize nPosPerEmbd b memory nSeqMax outputAll).posAt i = lowest nPosPerEmbd b.token.isSome memory s + 1)
    (hmin : nPosPerEmbd ≤ 1 → ∀ i < b.nTokens, ∀ s ∈ listed b i, Held memory s → ∃ j < b.nTokens, s ∈ listed b j ∧
      (sanitize nPosPerEmbd b memory nSeqMax outputAll).posAt j = lowest nPosPerEmbd b.token.isSome memory s) :
    Passes nPosPerEmbd nVocab b memory nSeqMax outputAll := by
  refine (passes_iff).mpr ⟨hadm, fun s _ => checkSeq_ok rfl ?_ ?_, fun i hi hne => ?_⟩
  · intro p hp
    obtain ⟨i, hi, hs, rfl⟩ := (mem_seqPos).mp hp
    exact hpos i hi s hs
  · rintro hemb hheld ⟨p, hp⟩
    obtain ⟨i, hi, hs, -⟩ := (mem_seqPos).mp hp
    obtain ⟨j, hj, hs', hat⟩ := hmin hemb i hi s hs hheld
    exact (mem_seqPos).mpr ⟨j, hj, hs', hat⟩
  · obtain ⟨s, hs⟩ := exists_mem_of_ne_nil _ hne
    have hlow := @lowest_nonneg nPosPerEmbd memory s b.token.isSome
    have := hpos i hi s hs
    omega

theorem Passes.ge_lowest (h : Passes nPosPerEmbd nVocab b memory nSeqMax outputAll) (hs' : s < nSeqMax)
    (hheld : Held memory s) (hi : i < b.nTokens) (hs : s ∈ listed b i) :
    lowest nPosPerEmbd b.token.isSome memory s
      ≤ (sanitize nPosPerEmbd b memory nSeqMax outputAll).posAt i := by
  have hmem : (sanitize nPosPerEmbd b memory nSeqMax outputAll).posAt i
      ∈ (sanitize nPosPerEmbd b memory nSeqMax outputAll).seqPos s := (mem_seqPos).mpr ⟨i, hi, hs, rfl⟩
  exact (checkSeq_ge ((passes_iff).mp h |>.2.1 s hs') hheld ⟨_, hmem⟩).trans ((seqPosMin_spec ⟨_, hmem⟩).2 _ hmem)

/-! ### Decreasing positions -/

/-- The positions of the tokens of sequence `s` do not decrease along the batch. -/
def NonDecreasing (a : BatchAllocr) (s : ℕ) : Prop :=
  ∀ i j, i < j → j < a.nTokens → s ∈ a.seqAt i → s ∈ a.seqAt j → a.posAt i ≤ a.posAt j

/-- The batches differ in their positions only. -/
structure SameTokens (b b' : Batch) : Prop where
  nTokens : b'.nTokens = b.nTokens
  token : b'.token = b.token
  seqId : b'.seqId = b.seqId
  logits : b'.logits = b.logits

theorem SameTokens.symm {b' : Batch} (h : SameTokens b b') : SameTokens b' b :=
  ⟨h.nTokens.symm, h.token.symm, h.seqId.symm, h.logits.symm⟩

theorem SameTokens.listed {b' : Batch} (h : SameTokens b b') : BatchAllocr.listed b' = BatchAllocr.listed b := by
  funext i
  rw [BatchAllocr.listed, BatchAllocr.listed, fillSeqId, fillSeqId, h.seqId, h.nTokens]

theorem SameTokens.admits {b' : Batch} (h : SameTokens b b') (hadm : Admits nVocab b memory nSeqMax) :
    Admits nVocab b' memory nSeqMax := by
  refine ⟨hadm.nSeqMax_le, ?_, ?_, ?_⟩
  · rw [tokensOk, h.token]
    exact hadm.tokens
  · rw [seqIdsOk, h.seqId]
    exact hadm.seqIds
  · rw [h.listed, h.nTokens]
    exact hadm.coupled

/-- Token `i` is the only one of a sequence that the memory holds, so that its position is given. -/
def Pinned (nPosPerEmbd : ℕ) (b : Batch) (memory : Option Memory) (i : ℕ) : Prop :=
  nPosPerEmbd ≤ 1 ∧ ∃ s ∈ listed b i, Held memory s ∧ ∀ j < b.nTokens, s ∈ listed b j → j = i

/-- No positions let a token be above a later one of the same sequence: the checks that do not depend on the positions
fail, or no position is left for some token, or for each such pair the first token cannot go above the lowest
position. -/
def Fixed (nPosPerEmbd nVocab : ℕ) (b : Batch) (memory : Option Memory) (nSeqMax : ℕ) : Prop :=
  ¬ Admits nVocab b memory nSeqMax ∨
    (∃ i < b.nTokens, ∃ s ∈ listed b i, 2 ^ 31 ≤ lowest nPosPerEmbd b.token.isSome memory s) ∨
    ∀ s i j, i < j → j < b.nTokens → s ∈ listed b i → s ∈ listed b j →
      2 ^ 31 ≤ lowest nPosPerEmbd b.token.isSome memory s + 1 ∨ Pinned nPosPerEmbd b memory i

theorem SameTokens.fixed_iff {b' : Batch} (h : SameTokens b b') :
    Fixed nPosPerEmbd nVocab b' memory nSeqMax ↔ Fixed nPosPerEmbd nVocab b memory nSeqMax := by
  have hadm : Admits nVocab b' memory nSeqMax ↔ Admits nVocab b memory nSeqMax := ⟨h.symm.admits, h.admits⟩
  simp only [Fixed, Pinned, hadm, h.listed, h.nTokens, h.token]

theorem held_of_lowest {text : Bool} (h : 0 < lowest nPosPerEmbd text memory s) : Held memory s := by
  refine (held_iff).mpr (Int.not_lt.mp fun hlast => ?_)
  rw [lowest, if_pos hlast] at h
  exact absurd h (by decide)

theorem Passes.nonDecreasing (h : Passes nPosPerEmbd nVocab b memory nSeqMax outputAll) (hmax : 0 < nSeqMax)
    (hfits : ∀ i < b.nTokens, IsPos ((sanitize nPosPerEmbd b memory nSeqMax outputAll).posAt i))
    (hfix : Fixed nPosPerEmbd nVocab b memory nSeqMax) (hij : i < j) (hj : j < b.nTokens) (hs : s ∈ listed b i)
    (hs' : s ∈ listed b j) :
    (sanitize nPosPerEmbd b memory nSeqMax outputAll).posAt i
      ≤ (sanitize nPosPerEmbd b memory nSeqMax outputAll).posAt j := by
  have hi := hij.trans hj
  obtain ⟨hadm, hcheck, -⟩ := (passes_iff).mp h
  rcases hfix with hno | ⟨k, hk, t, ht, hbig⟩ | hpairs
  · exact absurd hadm hno
  · have hheld : Held memory t := held_of_lowest (lt_of_lt_of_le (by decide) hbig)
    have hge := h.ge_lowest (hadm.seq_lt hmax hk ht) hheld hk ht
    have := (hfits k hk).2
    omega
  rcases hpairs s i j hij hj hs hs' with hbig | ⟨hemb, t, ht, hheld, hlone⟩
  · have hlow : 0 < lowest nPosPerEmbd b.token.isSome memory s := by omega
    have hheld : Held memory s := held_of_lowest hlow
    have hge := h.ge_lowest (hadm.seq_lt hmax hj hs') hheld hj hs'
    have := (hfits i hi).2
    omega
  · -- the position of token `i` is the lowest one of `t`, and so of `s`
    have hmem : (sanitize nPosPerEmbd b memory nSeqMax outputAll).posAt i
        ∈ (sanitize nPosPerEmbd b memory nSeqMax outputAll).seqPos t := (mem_seqPos).mpr ⟨i, hi, ht, rfl⟩
    obtain ⟨k, hk, hkt, hat⟩ := (mem_seqPos).mp (seqPosMin_spec ⟨_, hmem⟩).1
    obtain rfl := hlone k hk hkt
    rw [hat, checkSeq_eq (hcheck t (hadm.seq_lt hmax hi ht)) hheld ⟨_, hmem⟩ hemb,
      lowest_congr (hadm.sameRange hi ht hs)]
    have hheld' : Held memory s := by
      rw [held_iff, ← lastPos_congr (hadm.sameRange hi ht hs)]
      exact (held_iff).mp hheld
    exact h.ge_lowest (hadm.seq_lt hmax hj hs') hheld' hj hs'

/-- The batch `b` at the given positions. -/
def withPos (b : Batch) (p : ℕ → ℤ) : Batch :=
  { b with pos := some ((List.range b.nTokens).map p), pos_length := by simp }

theorem withPos_same (b : Batch) (p : ℕ → ℤ) : SameTokens b (withPos b p) := ⟨rfl, rfl, rfl, rfl⟩

theorem withPos_posAt (p : ℕ → ℤ) (hi : i < b.nTokens) :
    (sanitize nPosPerEmbd (withPos b p) memory nSeqMax outputAll).posAt i = p i := by
  show ((List.range b.nTokens).map p).getD i 0 = p i
  simp [hi]

/-- The lowest position of the sequences of token `i`. -/
def lowestAt (nPosPerEmbd : ℕ) (b : Batch) (memory : Option Memory) (i : ℕ) : ℤ :=
  ((listed b i).head?.map (lowest nPosPerEmbd b.token.isSome memory)).getD 0

theorem Admits.lowestAt_eq (h : Admits nVocab b memory nSeqMax) (hi : i < b.nTokens) (hs : s ∈ listed b i) :
    lowestAt nPosPerEmbd b memory i = lowest nPosPerEmbd b.token.isSome memory s := by
  have hrange := h.coupled i hi s hs
  rw [lowestAt]
  cases hl : listed b i with
  | nil => exact absurd hs (by rw [hl]; exact not_mem_nil)
  | cons q rest =>
    rw [hl] at hrange
    exact (lowest_congr hrange).symm

theorem lowestAt_fits (hsmall : ∀ i < b.nTokens, ∀ s ∈ listed b i,
    lowest nPosPerEmbd b.token.isSome memory s < 2 ^ 31) (hi : i < b.nTokens) :
    IsPos (lowestAt nPosPerEmbd b memory i) := by
  rw [lowestAt]
  cases hl : listed b i with
  | nil =>
    show IsPos 0
    exact ⟨by decide, by decide⟩
  | cons q rest =>
    have hlow := @lowest_nonneg nPosPerEmbd memory q b.token.isSome
    have hlt := hsmall i hi q (by rw [hl]; exact mem_cons_self)
    exact ⟨le_trans (by decide) hlow, hlt⟩

/-- All tokens at their lowest position, and token `i` right above it. -/
def raised (nPosPerEmbd : ℕ) (b : Batch) (memory : Option Memory) (i : ℕ) : ℕ → ℤ :=
  update (lowestAt nPosPerEmbd b memory) i (lowestAt nPosPerEmbd b memory i + 1)

theorem passes_raised (hadm : Admits nVocab b memory nSeqMax) (hi : i < b.nTokens)
    (hfree : ¬ Pinned nPosPerEmbd b memory i) :
    Passes nPosPerEmbd nVocab (withPos b (raised nPosPerEmbd b memory i)) memory nSeqMax outputAll := by
  have hsame := withPos_same b (raised nPosPerEmbd b memory i)
  refine passes_of_lowest (hsame.admits hadm) (fun k hk s hs => ?_) fun hemb k hk s hs hheld => ?_
  · have hk' : k < b.nTokens := hk
    rw [hsame.listed] at hs
    rw [withPos_posAt _ hk']
    by_cases hki : k = i
    · subst hki
      rw [raised, update_self, hadm.lowestAt_eq hk hs]
      exact Or.inr rfl
    · rw [raised, update_of_ne hki, hadm.lowestAt_eq hk hs]
      exact Or.inl rfl
  · rw [hsame.listed] at hs ⊢
    have hk' : k < b.nTokens := hk
    by_cases hki : k = i
    · subst hki
      have hother : ∃ j < b.nTokens, s ∈ listed b j ∧ j ≠ k := by
        by_contra hno
        exact hfree ⟨hemb, s, hs, hheld, fun j hj hsj => by_contra fun hne => hno ⟨j, hj, hsj, hne⟩⟩
      obtain ⟨j, hj, hsj, hne⟩ := hother
      refine ⟨j, hj, hsj, ?_⟩
      rw [withPos_posAt _ hj, raised, update_of_ne hne, hadm.lowestAt_eq hj hsj]
      rfl
    · refine ⟨k, hk, hs, ?_⟩
      rw [withPos_posAt _ hk', raised, update_of_ne hki, hadm.lowestAt_eq hk hs]
      rfl

/-- Sequences 0 and 1 both end at position 3. -/
def pairMemory : Memory := ⟨fun _ => 0, fun _ => 3⟩

/-- A token of both sequences and then one of sequence 0: the first is the only one of sequence 1. -/
def pinnedPair : Batch := .text [4, 4] [[0, 1], [0]] rfl

theorem pinnedPair_fixed : Fixed 1 1 pinnedPair (some pairMemory) 2 := by
  refine Or.inr (Or.inr fun s i j hij hj _ _ => Or.inr ⟨le_rfl, 1, ?_, (held_iff).mpr (by decide), fun k hk hm => ?_⟩)
  · have hj2 : j < 2 := hj
    obtain rfl : i = 0 := by omega
    decide
  · have hj2 : j < 2 := hj
    have hk2 : k < 2 := hk
    obtain rfl : i = 0 := by omega
    revert k
    decide

/-- Any two tokens of sequence `s` have sequence sets of which one includes the other. -/
def Compatible (a : BatchAllocr) (s : ℕ) : Prop :=
  ∀ i < a.nTokens, ∀ j < a.nTokens, s ∈ a.seqAt i → s ∈ a.seqAt j →
    a.seqSet i ⊆ a.seqSet j ∨ a.seqSet j ⊆ a.seqSet i

theorem seqSet_subset_iff {a : BatchAllocr} {i j : ℕ} : a.seqSet i ⊆ a.seqSet j ↔ ∀ t ∈ a.seqAt i, t ∈ a.seqAt j := by
  simp only [seqSet, Finset.subset_iff, mem_toFinset]

/-- Three sequences with the same range in the memory, and a position left for their tokens. -/
structure Triple (nPosPerEmbd : ℕ) (memory : Option Memory) (nSeqMax s t u : ℕ) : Prop where
  lt : s < nSeqMax ∧ t < nSeqMax ∧ u < nSeqMax
  ne : s ≠ t ∧ s ≠ u ∧ t ≠ u
  left : SameRange memory s t
  right : SameRange memory s u
  room : lowest nPosPerEmbd false memory s < 2 ^ 31

theorem lowest_le (text : Bool) : lowest nPosPerEmbd false memory s ≤ lowest nPosPerEmbd text memory s := by
  cases text with
  | false => exact le_rfl
  | true =>
    unfold lowest
    split
    · exact le_rfl
    · rw [if_neg (c := _ ∧ true = false) fun h => Bool.noConfusion h.2]
      split <;> omega

theorem Passes.triple (h : Passes nPosPerEmbd nVocab b memory nSeqMax outputAll) (hmax : 0 < nSeqMax)
    (hfits : ∀ i < b.nTokens, IsPos ((sanitize nPosPerEmbd b memory nSeqMax outputAll).posAt i)) {u : ℕ}
    (hi : i < b.nTokens) (hj : j < b.nTokens) (hs : s ∈ listed b i) (hs' : s ∈ listed b j) (ht : t ∈ listed b i)
    (ht' : t ∉ listed b j) (hu : u ∈ listed b j) (hu' : u ∉ listed b i) :
    Triple nPosPerEmbd memory nSeqMax s t u := by
  have hadm := ((passes_iff).mp h).1
  refine ⟨⟨hadm.seq_lt hmax hi hs, hadm.seq_lt hmax hi ht, hadm.seq_lt hmax hj hu⟩, ⟨?_, ?_, ?_⟩,
    hadm.sameRange hi hs ht, hadm.sameRange hj hs' hu, ?_⟩
  · rintro rfl
    exact ht' hs'
  · rintro rfl
    exact hu' hs
  · rintro rfl
    exact ht' hu
  · by_contra hbig
    have hlow : 0 < lowest nPosPerEmbd false memory s := by omega
    have hge := h.ge_lowest (hadm.seq_lt hmax hi hs) (held_of_lowest hlow) hi hs
    have hle := @lowest_le nPosPerEmbd memory s b.token.isSome
    have := (hfits i hi).2
    omega

/-- A batch of embeddings: its first two tokens share `s` only, the others list nothing else. -/
def overlap (n s t u : ℕ) (p : ℤ) : Batch where
  nTokens := n
  token := none
  pos := some (List.replicate n p)
  seqId := some ((List.range n).map fun i => if i = 0 then [↑s, ↑t] else if i = 1 then [↑s, ↑u] else [↑s])
  logits := none
  token_length := by simp
  pos_length := by simp
  seqId_length := by simp
  logits_length := by simp

theorem overlap_listed {n s t u : ℕ} {p : ℤ} (hi : i < n) :
    listed (overlap n s t u p) i = if i = 0 then [s, t] else if i = 1 then [s, u] else [s] := by
  have hfill : fillSeqId (overlap n s t u p) = ((List.range n).map fun i =>
      if i = 0 then [(s : ℤ), ↑t] else if i = 1 then [↑s, ↑u] else [↑s]).map fun ids => ids.map Int.toNat := rfl
  rw [listed, hfill, getD_eq_getElem _ _ (by simpa using hi)]
  simp only [getElem_map, getElem_range]
  split
  · rfl
  · split <;> rfl

theorem Triple.passes {n u : ℕ} (h : Triple nPosPerEmbd memory nSeqMax s t u) (hmax : nSeqMax ≤ llamaMaxSeq) :
    Passes nPosPerEmbd nVocab (overlap n s t u (lowest nPosPerEmbd false memory s)) memory nSeqMax outputAll := by
  have hrange : ∀ i < n, ∀ q ∈ listed (overlap n s t u (lowest nPosPerEmbd false memory s)) i,
      q < nSeqMax ∧ SameRange memory s q := by
    intro i hi q hq
    rw [overlap_listed hi] at hq
    have hq' : q = s ∨ q = t ∨ q = u := by
      split at hq
      · simp only [mem_cons, not_mem_nil, or_false] at hq
        omega
      · split at hq
        · simp only [mem_cons, not_mem_nil, or_false] at hq
          omega
        · exact Or.inl (mem_singleton.mp hq)
    rcases hq' with rfl | rfl | rfl
    · exact ⟨h.lt.1, fun _ _ => ⟨rfl, rfl⟩⟩
    · exact ⟨h.lt.2.1, h.left⟩
    · exact ⟨h.lt.2.2, h.right⟩
  have hat : ∀ i < n, (sanitize nPosPerEmbd (overlap n s t u (lowest nPosPerEmbd false memory s)) memory nSeqMax
      outputAll).posAt i = lowest nPosPerEmbd false memory s := by
    intro i hi
    show (List.replicate n (lowest nPosPerEmbd false memory s)).getD i 0 = _
    simp [hi]
  refine passes_of_lowest ⟨hmax, rfl, ?_, fun i hi q hq => ?_⟩ (fun i hi q hq => Or.inl ?_)
    fun _ i hi q hq _ => ⟨i, hi, hq, ?_⟩
  · refine all_eq_true.mpr fun ids hids => all_eq_true.mpr fun z hz => decide_eq_true_eq.mpr ?_
    obtain ⟨i, -, rfl⟩ := mem_map.mp hids
    have := h.lt
    split at hz
    · simp only [mem_cons, not_mem_nil, or_false] at hz
      omega
    · split at hz
      · simp only [mem_cons, not_mem_nil, or_false] at hz
        omega
      · have := mem_singleton.mp hz
        omega
  · have hhead : (listed (overlap n s t u (lowest nPosPerEmbd false memory s)) i).headD 0 = s := by
      rw [@overlap_listed i n s t u _ hi]
      split
      · rfl
      · split <;> rfl
    rw [hhead]
    intro m hm
    exact ⟨((hrange i hi q hq).2 m hm).1.symm, ((hrange i hi q hq).2 m hm).2.symm⟩
  · rw [hat i hi]
    exact lowest_congr (hrange i hi q hq).2
  · rw [hat i hi]
    exact lowest_congr (hrange i hi q hq).2

/-- Every sequence of this memory ends at another position. -/
def stairs : Memory := ⟨fun _ => 0, fun s => s⟩

/-- Sequences 0 and 2 go on. -/
def stairsBatch : Batch := .text [1, 3, 2, 4] [[0], [2], [0], [2]] rfl

end BatchAllocr
