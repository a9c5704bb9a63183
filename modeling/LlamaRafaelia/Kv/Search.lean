import LlamaRafaelia.Kv.Slots

/-!
# What `find_slot` finds

The search walks once around the ring of cells and tests each cell at most once.  A contiguous search that fails has
seen every window (`findStream_cont_none_iff`).
-/

namespace KvCache

open List Checked

variable {kp : KvParams} {c : KvCells} {cont : Bool}

def Usable (kp : KvParams) (c : KvCells) (idx : ℕ) : Prop := (canUse kp c idx).value = true

instance (kp : KvParams) (c : KvCells) (idx : ℕ) : Decidable (Usable kp c idx) :=
  inferInstanceAs (Decidable ((canUse kp c idx).value = true))

theorem seqGet_of_singleton {c : KvCells} {i s : ℕ} (h : c.seq i = {s}) (hs : s < llamaMaxSeq) :
    (c.seqGet i).value = s := by
  have hfind : (List.range llamaMaxSeq).find? (fun t => decide (t ∈ c.seq i)) = some s := by
    rw [find?_range_eq_some]
    refine ⟨by simp [h], List.mem_range.mpr hs, fun j hj => ?_⟩
    simpa [h] using Nat.ne_of_lt hj
  simp only [KvCells.seqGet, bind_value, pure_value, hfind]

theorem canUse_value (c : KvCells) (i : ℕ) :
    (canUse kp c i).value = if c.pos i = -1 then true else if (c.seq i).card = 1 then
      (kp.isMasked (c.pos i) ((c.seqPosMax (c.seqGet i).value.toNat).value + 1)).value else false := by
  by_cases hp : c.pos i = -1
  · simp [canUse, KvCells.isEmpty, hp]
  · by_cases hone : (c.seq i).card = 1 <;> simp [canUse, KvCells.isEmpty,
      KvCells.seqCount, KvCells.posGet, hp, hone]

/-- The cell is empty, or a single sequence holds it and the sliding window hides it from the token that follows the
last one of that sequence. -/
def Free (kp : KvParams) (c : KvCells) (i : ℕ) : Prop :=
  c.pos i = -1 ∨ ∃ s, c.seq i = {s} ∧ (kp.isMasked (c.pos i) ((c.seqPosMax s).value + 1)).value = true

theorem usable_iff_free {i : ℕ} (hlt : ∀ s ∈ c.seq i, s < llamaMaxSeq) : Usable kp c i ↔ Free kp c i := by
  rw [Usable, Free, canUse_value]
  by_cases hp : c.pos i = -1
  · simp [hp]
  · simp only [hp, if_false, false_or]
    by_cases hone : (c.seq i).card = 1
    · rw [if_pos hone]
      obtain ⟨s, hs⟩ := Finset.card_eq_one.mp hone
      have hs' : s < llamaMaxSeq := hlt s (hs ▸ Finset.mem_singleton_self s)
      rw [seqGet_of_singleton hs hs', Int.toNat_natCast]
      constructor
      · intro hm
        exact ⟨s, hs, hm⟩
      · rintro ⟨s', hs', hm⟩
        rw [hs, Finset.singleton_inj] at hs'
        rw [hs']
        exact hm
    · rw [if_neg hone]
      refine ⟨fun hf => absurd hf Bool.false_ne_true, ?_⟩
      rintro ⟨s, hs, -⟩
      exact absurd (Finset.card_eq_one.mpr ⟨s, hs⟩) hone

/-! ### The inner loop -/

theorem scan_succ_of_usable {k : ℕ} {a : Search} (h : Usable kp c a.headCur) :
    (scan kp c cont (k + 1) a).value
      = (scan kp c cont k ⟨a.headCur + 1, a.nTested + 1, a.idxs ++ [a.headCur]⟩).value := by
  simp only [scan, bind_value, ite_value]
  exact if_pos h

theorem scan_succ_of_not_usable {k : ℕ} {a : Search} (h : ¬ Usable kp c a.headCur) :
    (scan kp c cont (k + 1) a).value
      = if cont then ⟨a.headCur + 1, a.nTested + 1, a.idxs⟩
        else (scan kp c cont k ⟨a.headCur + 1, a.nTested + 1, a.idxs⟩).value := by
  simp only [scan, bind_value, ite_value, pure_value]
  exact if_neg h

theorem scan_nTested_lt (k : ℕ) (a : Search) :
    a.nTested < (scan kp c cont (k + 1) a).value.nTested := by
  induction k generalizing a with
  | zero =>
    by_cases h : Usable kp c a.headCur
    · rw [scan_succ_of_usable h]
      exact Nat.lt_succ_self _
    · rw [scan_succ_of_not_usable h]
      split <;> exact Nat.lt_succ_self _
  | succ k ih =>
    by_cases h : Usable kp c a.headCur
    · rw [scan_succ_of_usable h]
      exact Nat.lt_of_succ_lt (ih ⟨a.headCur + 1, a.nTested + 1, a.idxs ++ [a.headCur]⟩)
    · rw [scan_succ_of_not_usable h]
      split
      · exact Nat.lt_succ_self _
      · exact Nat.lt_of_succ_lt (ih ⟨a.headCur + 1, a.nTested + 1, a.idxs⟩)

theorem scan_cont (k : ℕ) (a : Search) :
    let a' := (scan kp c true k a).value
    (a'.idxs = a.idxs ++ List.range' a.headCur k ∧ ∀ i ∈ List.range' a.headCur k, Usable kp c i) ∨
      a'.idxs.length < a.idxs.length + k := by
  induction k generalizing a with
  | zero => exact Or.inl ⟨by simp [scan], by simp⟩
  | succ k ih =>
    by_cases h : Usable kp c a.headCur
    · rw [scan_succ_of_usable h]
      rcases ih ⟨a.headCur + 1, a.nTested + 1, a.idxs ++ [a.headCur]⟩ with ⟨hl, hu⟩ | hlt
      · left
        rw [range'_succ]
        refine ⟨by simpa using hl, ?_⟩
        intro i hi
        rcases mem_cons.mp hi with rfl | hi
        · exact h
        · exact hu i hi
      · right
        simp only [length_append, length_singleton] at hlt ⊢
        omega
    · right
      rw [scan_succ_of_not_usable h, if_pos rfl]
      simp

theorem scan_one (a : Search) :
    (scan kp c false 1 a).value = ⟨a.headCur + 1, a.nTested + 1,
      if Usable kp c a.headCur then a.idxs ++ [a.headCur] else a.idxs⟩ := by
  by_cases h : Usable kp c a.headCur
  · rw [scan_succ_of_usable h, if_pos h]
    rfl
  · rw [scan_succ_of_not_usable h, if_neg h]
    rfl

/-! ### The outer loop -/

theorem findLoop_wrap {n nTest fuel : ℕ} {a : Search} (h : c.size < a.headCur + nTest) :
    findLoop kp c cont n nTest (fuel + 1) a
      = findLoop kp c cont n nTest fuel ⟨0, a.nTested + (c.size - a.headCur), a.idxs⟩ := by
  rw [findLoop, if_pos h]

theorem findLoop_scan {n nTest fuel : ℕ} {a : Search} (h : ¬ c.size < a.headCur + nTest) :
    (findLoop kp c cont n nTest (fuel + 1) a).value =
      let a' := (scan kp c cont nTest a).value
      if a'.idxs.length = n then some a'.idxs
      else if c.size ≤ a'.nTested then none
      else (findLoop kp c cont n nTest fuel { a' with idxs := if cont then [] else a'.idxs }).value := by
  rw [findLoop, if_neg h]
  simp only [bind_value, ite_value, pure_value]

/-- What is known about a search that started at `h0` and need not be contiguous: it has not yet
wrapped around, or it has and is still below `h0`. -/
structure Walk (kp : KvParams) (c : KvCells) (h0 : ℕ) (a : Search) : Prop where
  usable : ∀ i ∈ a.idxs, i < c.size ∧ Usable kp c i
  nodup : a.idxs.Nodup
  window : (a.headCur = h0 + a.nTested ∧ a.headCur ≤ c.size ∧ ∀ i ∈ a.idxs, h0 ≤ i ∧ i < a.headCur) ∨
    (a.nTested + h0 = c.size + a.headCur ∧ ∀ i ∈ a.idxs, h0 ≤ i ∨ i < a.headCur)

theorem Walk.notMem {h0 : ℕ} {a : Search} (h : Walk kp c h0 a) (hlt : a.nTested < c.size) :
    a.headCur ∉ a.idxs := by
  intro hm
  rcases h.window with ⟨-, -, hw⟩ | ⟨ht, hw⟩
  · exact absurd (hw _ hm).2 (Nat.lt_irrefl _)
  · rcases hw _ hm with hge | hlt' <;> omega

theorem Walk.step {h0 : ℕ} {a : Search} (h : Walk kp c h0 a) (hlt : a.nTested < c.size)
    (hin : a.headCur < c.size) : Walk kp c h0 (scan kp c false 1 a).value := by
  have hnew := h.notMem hlt
  -- the window grows by the cell that was tested, whether or not it was taken
  have hwin : ∀ l : List ℕ, (∀ i ∈ l, i ∈ a.idxs ∨ i = a.headCur) →
      (a.headCur + 1 = h0 + (a.nTested + 1) ∧ a.headCur + 1 ≤ c.size ∧
        ∀ i ∈ l, h0 ≤ i ∧ i < a.headCur + 1) ∨
      (a.nTested + 1 + h0 = c.size + (a.headCur + 1) ∧ ∀ i ∈ l, h0 ≤ i ∨ i < a.headCur + 1) := by
    intro l hl
    rcases h.window with ⟨ht, -, hw⟩ | ⟨ht, hw⟩
    · refine Or.inl ⟨by omega, by omega, fun i hi => ?_⟩
      rcases hl i hi with hi | rfl
      · have := hw i hi
        omega
      · omega
    · refine Or.inr ⟨by omega, fun i hi => ?_⟩
      rcases hl i hi with hi | rfl
      · have := hw i hi
        omega
      · omega
  rw [scan_one]
  by_cases hu : Usable kp c a.headCur
  · simp only [if_pos hu]
    refine ⟨?_, ?_, hwin _ fun i hi => by simpa using hi⟩
    · intro i hi
      rcases mem_append.mp hi with hi | hi
      · exact h.usable i hi
      · rw [mem_singleton.mp hi]
        exact ⟨hin, hu⟩
    · rw [← concat_eq_append]
      exact h.nodup.concat hnew
  · simp only [if_neg hu]
    exact ⟨h.usable, h.nodup, hwin _ fun i hi => Or.inl hi⟩

theorem Walk.wrap {h0 : ℕ} {a : Search} (h : Walk kp c h0 a) (h0le : h0 ≤ c.size)
    (hlt : a.nTested < c.size) (hend : c.size < a.headCur + 1) :
    Walk kp c h0 ⟨0, a.nTested + (c.size - a.headCur), a.idxs⟩ ∧
      a.nTested + (c.size - a.headCur) < c.size := by
  rcases h.window with ⟨ht, hle, hw⟩ | ⟨ht, -⟩
  · refine ⟨⟨h.usable, h.nodup, Or.inr ⟨?_, fun i hi => Or.inl (hw i hi).1⟩⟩, by omega⟩
    show a.nTested + (c.size - a.headCur) + h0 = c.size + 0
    omega
  · omega

theorem findLoop_walk {h0 n fuel : ℕ} {a : Search} {l : List ℕ} (h0le : h0 ≤ c.size)
    (h : Walk kp c h0 a) (hlt : a.nTested < c.size)
    (hsome : (findLoop kp c false n 1 fuel a).value = some l) :
    l.length = n ∧ l.Nodup ∧ ∀ i ∈ l, i < c.size ∧ Usable kp c i := by
  induction fuel generalizing a with
  | zero => simp [findLoop] at hsome
  | succ fuel ih =>
    by_cases hend : c.size < a.headCur + 1
    · rw [findLoop_wrap hend] at hsome
      obtain ⟨hw, hlt'⟩ := h.wrap h0le hlt hend
      exact ih hw hlt' hsome
    · have hstep := h.step hlt (by omega)
      rw [findLoop_scan hend] at hsome
      dsimp only at hsome
      split at hsome
      · next hlen =>
        obtain rfl := Option.some.inj hsome
        exact ⟨hlen, hstep.nodup, hstep.usable⟩
      · split at hsome
        · simp at hsome
        · next hlt' => exact ih hstep (by omega) hsome

theorem findLoop_cont {n fuel : ℕ} {a : Search} {l : List ℕ} (h : a.idxs = [])
    (hsome : (findLoop kp c true n n fuel a).value = some l) :
    ∃ h, h + n ≤ c.size ∧ l = List.range' h n ∧ ∀ i ∈ l, Usable kp c i := by
  induction fuel generalizing a with
  | zero => simp [findLoop] at hsome
  | succ fuel ih =>
    by_cases hend : c.size < a.headCur + n
    · rw [findLoop_wrap hend] at hsome
      exact ih (by exact h) hsome
    · rw [findLoop_scan hend] at hsome
      dsimp only at hsome
      split at hsome
      · next hlen =>
        obtain rfl := Option.some.inj hsome
        rcases @scan_cont kp c n a with ⟨hl, hu⟩ | hlt
        · rw [h, nil_append] at hl
          exact ⟨a.headCur, by omega, hl, by rwa [hl]⟩
        · rw [h] at hlt
          simp only [length_nil] at hlt
          omega
      · split at hsome
        · simp at hsome
        · exact ih (by simp) hsome

theorem findStream_spec {head n : ℕ} {l : List ℕ} (hhead : head ≤ c.size) (hn : 0 < n)
    (hsome : (findStream kp c head n cont).value = some l) :
    l.length = n ∧ l.Nodup ∧ (∀ i ∈ l, i < c.size ∧ Usable kp c i) ∧
      (cont = true → ∃ h, l = List.range' h n) := by
  unfold findStream at hsome
  split at hsome
  · simp at hsome
  · next hsize =>
    cases cont with
    | false =>
      have hle : searchHead c head n ≤ c.size := by
        unfold searchHead
        split
        · exact Nat.zero_le _
        · exact hhead
      have hwalk : Walk kp c (searchHead c head n) ⟨searchHead c head n, 0, []⟩ :=
        ⟨by simp, by simp, Or.inl ⟨rfl, hle, by simp⟩⟩
      obtain ⟨h1, h2, h3⟩ := findLoop_walk hle hwalk (by show 0 < c.size; omega) hsome
      exact ⟨h1, h2, h3, by simp⟩
    | true =>
      obtain ⟨h, hle, rfl, hu⟩ := findLoop_cont rfl hsome
      refine ⟨length_range', nodup_range', ?_, fun _ => ⟨h, rfl⟩⟩
      intro i hi
      have hmem := mem_range'.mp hi
      exact ⟨by omega, hu i hi⟩

/-! ### The fuel is enough -/

def searchBound (c : KvCells) (nTest : ℕ) (a : Search) : ℕ :=
  2 * (c.size - a.nTested) + if c.size < a.headCur + nTest then 2 else 1

/-! ### A contiguous search misses nothing -/

/-- `n` usable cells from `h` on. -/
def Window (kp : KvParams) (c : KvCells) (n h : ℕ) : Prop :=
  h + n ≤ c.size ∧ ∀ i, h ≤ i → i < h + n → Usable kp c i

theorem scan_cont_stop (k : ℕ) (a : Search) :
    let a' := (scan kp c true k a).value
    a'.idxs.length = a.idxs.length + k ∨
      ∃ j, a.headCur ≤ j ∧ j < a.headCur + k ∧ ¬ Usable kp c j ∧ a'.headCur = j + 1 ∧
        a'.nTested + a.headCur = a.nTested + (j + 1) := by
  induction k generalizing a with
  | zero => exact Or.inl rfl
  | succ k ih =>
    by_cases h : Usable kp c a.headCur
    · rw [scan_succ_of_usable h]
      rcases ih ⟨a.headCur + 1, a.nTested + 1, a.idxs ++ [a.headCur]⟩ with hall | ⟨j, hj⟩
      · left
        simp only [length_append, length_singleton] at hall ⊢
        omega
      · obtain ⟨hge, hlt, hno, hhead, htested⟩ := hj
        simp only at hge hlt hhead htested
        exact Or.inr ⟨j, by omega, by omega, hno, hhead, by omega⟩
    · right
      rw [scan_succ_of_not_usable h, if_pos rfl]
      refine ⟨a.headCur, le_rfl, by omega, h, rfl, ?_⟩
      show a.nTested + 1 + a.headCur = a.nTested + (a.headCur + 1)
      omega

/-- No window starts where a contiguous search from `h0` has already been. -/
def Missed (kp : KvParams) (c : KvCells) (n h0 : ℕ) (a : Search) : Prop :=
  (a.headCur = h0 + a.nTested ∧ a.headCur ≤ c.size ∧
      ∀ h, h0 ≤ h → h < a.headCur → ¬ Window kp c n h) ∨
    (a.nTested + h0 = c.size + a.headCur ∧ ∀ h, (h0 ≤ h ∨ h < a.headCur) → ¬ Window kp c n h)

theorem Missed.all {n h0 : ℕ} {a : Search} (hn : 0 < n) (h : Missed kp c n h0 a) (hge : c.size ≤ a.nTested) :
    ∀ h, ¬ Window kp c n h := by
  intro h' hwin
  have hroom := hwin.1
  rcases h with ⟨ht, hle, hw⟩ | ⟨ht, hw⟩
  · exact hw h' (by omega) (by omega) hwin
  · exact hw h' (by omega) hwin

theorem Missed.wrap {n h0 : ℕ} {a : Search} (h : Missed kp c n h0 a)
    (hend : c.size < a.headCur + n) :
    (Missed kp c n h0 ⟨0, a.nTested + (c.size - a.headCur), a.idxs⟩ ∧
      a.nTested + (c.size - a.headCur) < c.size) ∨ ∀ h, ¬ Window kp c n h := by
  rcases h with ⟨ht, hle, hw⟩ | ⟨ht, hw⟩
  · have hafter : ∀ h, h0 ≤ h → ¬ Window kp c n h := by
      intro h hge hwin
      by_cases hlt : h < a.headCur
      · exact hw h hge hlt hwin
      · have := hwin.1
        omega
    by_cases hz : h0 = 0
    · exact Or.inr fun h => hafter h (by omega)
    · refine Or.inl ⟨Or.inr ⟨?_, fun h hh => hafter h (hh.resolve_right (Nat.not_lt_zero h))⟩, by omega⟩
      show a.nTested + (c.size - a.headCur) + h0 = c.size + 0
      omega
  · -- the second time at the end of the ring: every start was seen
    refine Or.inr fun h hwin => ?_
    have := hwin.1
    exact hw h (Or.inr (by omega)) hwin

theorem Missed.step {n h0 j : ℕ} {a a' : Search} (h : Missed kp c n h0 a) (hin : a.headCur + n ≤ c.size)
    (hlt : j < a.headCur + n) (hno : ¬ Usable kp c j) (hhead : a'.headCur = j + 1)
    (htested : a'.nTested + a.headCur = a.nTested + (j + 1)) : Missed kp c n h0 a' := by
  have hskip : ∀ h, a.headCur ≤ h → h < a'.headCur → ¬ Window kp c n h := fun h hge' hlt' hwin =>
    hno (hwin.2 j (by omega) (by omega))
  rcases h with ⟨ht, hle, hw⟩ | ⟨ht, hw⟩
  · refine Or.inl ⟨by omega, by omega, fun h hge' hlt' => ?_⟩
    by_cases hold : h < a.headCur
    · exact hw h hge' hold
    · exact hskip h (by omega) hlt'
  · refine Or.inr ⟨by omega, fun h hh => ?_⟩
    by_cases hold : h0 ≤ h ∨ h < a.headCur
    · exact hw h hold
    · exact hskip h (by omega) (by omega)

/-- **A contiguous search that finds nothing**: there is no window. -/
theorem findLoop_cont_none {h0 n fuel : ℕ} {a : Search} (hn : 0 < n) (hle : n ≤ c.size) (hidxs : a.idxs = [])
    (h : Missed kp c n h0 a) (hfuel : searchBound c n a ≤ fuel)
    (hnone : (findLoop kp c true n n fuel a).value = none) : ∀ h, ¬ Window kp c n h := by
  induction fuel generalizing a with
  | zero =>
    exfalso
    unfold searchBound at hfuel
    split at hfuel <;> omega
  | succ fuel ih =>
    by_cases hend : c.size < a.headCur + n
    · rw [findLoop_wrap hend] at hnone
      rcases h.wrap hend with ⟨hmiss, hlt⟩ | hall
      · refine @ih ⟨0, _, a.idxs⟩ hidxs hmiss ?_ hnone
        unfold searchBound at hfuel ⊢
        rw [if_pos hend] at hfuel
        rw [if_neg (by simp only; omega)]
        simp only
        omega
      · exact hall
    · rw [findLoop_scan hend] at hnone
      dsimp only at hnone
      rcases @scan_cont_stop kp c n a with hall | ⟨j, hge, hlt, hno, hhead, htested⟩
      · rw [hidxs, length_nil, Nat.zero_add] at hall
        rw [if_pos hall] at hnone
        cases hnone
      · have hstep := h.step (by omega) hlt hno hhead htested
        split at hnone
        · cases hnone
        · split at hnone
          · next hdone => exact hstep.all hn hdone
          · next hgo =>
            have hmiss : Missed kp c n h0
                { (scan kp c true n a).value with idxs := if true then [] else (scan kp c true n a).value.idxs } :=
              hstep
            refine @ih _ rfl hmiss ?_ hnone
            unfold searchBound at hfuel ⊢
            rw [if_neg hend] at hfuel
            simp only
            split <;> omega

/-- **The contiguous search in one stream** fails exactly when there is no window. -/
theorem findStream_cont_none_iff {head n : ℕ} (hhead : head ≤ c.size) (hn : 0 < n) :
    (findStream kp c head n true).value = none ↔ ∀ h, ¬ Window kp c n h := by
  constructor
  · intro hnone
    unfold findStream at hnone
    split at hnone
    · next hsize => exact fun h hwin => by have := hwin.1; omega
    · next hsize =>
      have hstart : searchHead c head n ≤ c.size := by
        unfold searchHead
        split
        · exact Nat.zero_le _
        · exact hhead
      rw [if_pos rfl] at hnone
      refine @findLoop_cont_none kp c (searchHead c head n) n _ _ hn (by omega) rfl
        (Or.inl ⟨rfl, hstart, fun h hge hlt => ?_⟩) ?_ hnone
      · have hlt' : h < searchHead c head n := hlt
        omega
      · unfold searchBound
        simp only
        split <;> omega
  · intro hall
    by_contra hsome
    obtain ⟨l, hl⟩ := Option.ne_none_iff_exists'.mp hsome
    obtain ⟨-, -, huse, hrange⟩ := findStream_spec hhead hn hl
    obtain ⟨h, rfl⟩ := hrange rfl
    have hlast := (huse (h + (n - 1)) (mem_range'_1.mpr (by omega))).1
    exact hall h ⟨by omega, fun i hge hlt => (huse i (mem_range'_1.mpr ⟨hge, hlt⟩)).2⟩

/-! ### All streams of a ubatch -/

/-- The slot that `find_slot` returns for the ubatch `u`. -/
structure SlotOk (kp : KvParams) (st : KvCache) (u : Ubatch) (cont : Bool) (si : SlotInfo) : Prop where
  strm_length : si.strm.length = slotSeqs kp u
  idxs_length : si.idxs.length = slotSeqs kp u
  strm : ∀ s < slotSeqs kp u, si.strmAt s = kp.streamOf (u.seqIdUnq.getD s 0)
  length : ∀ s < slotSeqs kp u, (si.idxsAt s).length = slotTokens kp u
  nodup : ∀ s < slotSeqs kp u, (si.idxsAt s).Nodup
  usable : ∀ s < slotSeqs kp u, ∀ i ∈ si.idxsAt s,
    i < (st.vCells (si.strmAt s)).size ∧ Usable kp (st.vCells (si.strmAt s)) i
  range : cont = true → ∀ s < slotSeqs kp u, ∃ h, si.idxsAt s = List.range' h (slotTokens kp u)

variable {st : KvCache} {u : Ubatch}

theorem findStep_some {s : ℕ} {res : Option SlotInfo} {si : SlotInfo}
    (h : (st.findStep kp u cont res s).value = some si) :
    ∃ r l, res = some r ∧
      (findStream kp (st.vCells (kp.streamOf (u.seqIdUnq.getD s 0)))
        (st.vHeads (kp.streamOf (u.seqIdUnq.getD s 0))) (slotTokens kp u) cont).value = some l ∧
      si.strm = r.strm ++ [kp.streamOf (u.seqIdUnq.getD s 0)] ∧ si.idxs = r.idxs ++ [l] := by
  cases res with
  | none => simp [findStep] at h
  | some r =>
    simp only [findStep, bind_value, pure_value, Option.map_eq_some_iff] at h
    obtain ⟨l, hl, rfl⟩ := h
    exact ⟨r, l, rfl, hl, rfl, rfl⟩

theorem findSlot_streams {si : SlotInfo} (h : (st.findSlot kp u cont).value = some si) :
    si.strm.length = slotSeqs kp u ∧ si.idxs.length = slotSeqs kp u ∧ ∀ s < slotSeqs kp u,
      si.strmAt s = kp.streamOf (u.seqIdUnq.getD s 0) ∧
      (findStream kp (st.vCells (si.strmAt s)) (st.vHeads (si.strmAt s)) (slotTokens kp u) cont).value
        = some (si.idxsAt s) := by
  -- after `k` streams the result has `k` entries, each as its own search found it
  have key := loopRange_value_rule (f := st.findStep kp u cont)
    (fun k (res : Option SlotInfo) => ∀ r, res = some r →
      r.strm.length = k ∧ r.idxs.length = k ∧ ∀ s < k,
        r.strmAt s = kp.streamOf (u.seqIdUnq.getD s 0) ∧
        (findStream kp (st.vCells (r.strmAt s)) (st.vHeads (r.strmAt s)) (slotTokens kp u) cont).value
          = some (r.idxsAt s))
    (slotSeqs kp u) (s := some ⟨llamaMaxSeq, 0, [], []⟩)
    (by rintro r hr; obtain rfl := Option.some.inj hr; simp) ?_
  · exact key si h
  · intro k res hk ih r hr
    obtain ⟨r0, l, rfl, hl, hstrm, hidxs⟩ := findStep_some hr
    obtain ⟨h1, h2, h3⟩ := ih r0 rfl
    refine ⟨by simp [hstrm, h1], by simp [hidxs, h2], fun s hs => ?_⟩
    rcases Nat.lt_succ_iff_lt_or_eq.mp hs with hlt | rfl
    · have hs1 : r.strmAt s = r0.strmAt s := by
        simp [SlotInfo.strmAt, hstrm, getElem?_append_left (h1 ▸ hlt)]
      have hs2 : r.idxsAt s = r0.idxsAt s := by
        simp [SlotInfo.idxsAt, hidxs, getElem?_append_left (h2 ▸ hlt)]
      rw [hs1, hs2]
      exact h3 s hlt
    · have hs1 : r.strmAt s = kp.streamOf (u.seqIdUnq.getD s 0) := by
        simp [SlotInfo.strmAt, hstrm, ← h1]
      have hs2 : r.idxsAt s = l := by
        simp [SlotInfo.idxsAt, hidxs, ← h2]
      rw [hs1, hs2]
      exact ⟨rfl, hl⟩

/-- **What `find_slot` finds**, in every stream that the ubatch touches. -/
theorem findSlot_spec {si : SlotInfo}
    (hheads : ∀ s, st.vHeads (kp.streamOf s) ≤ (st.vCells (kp.streamOf s)).size)
    (hn : 0 < slotTokens kp u) (h : (st.findSlot kp u cont).value = some si) :
    SlotOk kp st u cont si := by
  obtain ⟨h1, h2, h3⟩ := findSlot_streams h
  have hspec := fun s hs => findStream_spec ((h3 s hs).1 ▸ hheads _) hn (h3 s hs).2
  exact ⟨h1, h2, fun s hs => (h3 s hs).1, fun s hs => (hspec s hs).1, fun s hs => (hspec s hs).2.1,
    fun s hs => (hspec s hs).2.2.1, fun hc s hs => (hspec s hs).2.2.2 hc⟩

end KvCache
