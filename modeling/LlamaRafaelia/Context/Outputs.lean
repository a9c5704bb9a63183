import LlamaRafaelia.Lib.Swaps
import Mathlib.Data.List.Nodup

/-!
# The order of the outputs (`llama-context.cpp`)

At the end of `decode` the ids of the outputs are sorted and the swaps of the sort are remembered; `output_reorder`
makes the same swaps with the rows when they are read for the first time.

* `sortIds_arranged` - **the selection sort** sorts, and its swaps replayed on the rows move each row with its id;
-/

/-- What `llama_context` keeps of the outputs: a buffer each for the logits and the embeddings, of size 0 when it is not
used, the row of each token of the batch, and the swaps that are still to be made. -/
structure Outputs (α : Type) where
  nVocab : ℕ
  nEmbd : ℕ
  logitsSize : ℕ
  embdSize : ℕ
  logits : ℕ → α
  embd : ℕ → α
  outputIds : ℕ → ℤ
  outputSwaps : List (ℕ × ℕ)

namespace Outputs

open List Swaps

variable {α : Type}

/-! ### The end of `decode` -/

/-- `j_min`: the place of the least id from place `i` on. -/
def minIndex (ids : List ℕ) (i : ℕ) : ℕ :=
  (List.range' (i + 1) (ids.length - (i + 1))).foldl
    (fun jMin j => if ids.getD j 0 < ids.getD jMin 0 then j else jMin) i

def sortStep (x : List ℕ × List (ℕ × ℕ)) (i : ℕ) : List ℕ × List (ℕ × ℕ) :=
  if minIndex x.1 i = i then x
  else (swapEntries x.1 i (minIndex x.1 i), x.2 ++ [(i, minIndex x.1 i)])

def sortIds (outIds : List ℕ) (outputSwaps : List (ℕ × ℕ)) : List ℕ × List (ℕ × ℕ) :=
  (List.range (outIds.length - 1)).foldl sortStep (outIds, outputSwaps)

/-- `output_ids[out_ids[i]] = i`, for all `i`. -/
def assign (outIds : List ℕ) (outputIds : ℕ → ℤ) : ℕ → ℤ :=
  outIds.zipIdx.foldl (fun outputIds x => Function.update outputIds x.1 x.2) outputIds

/-- The beginning of `decode`: `output_swaps.clear()`, and `output_reserve` sets all ids as invalid. -/
def reserve (o : Outputs α) : Outputs α := { o with outputIds := fun _ => -1, outputSwaps := [] }

/-- "set output mappings". -/
def setMappings (o : Outputs α) (outIds : List ℕ) : Outputs α :=
  if outIds = [] then o
  else if outIds.zipIdx.all fun x => x.1 = x.2 then { o with outputIds := assign outIds o.outputIds }
  else
    { o with
      outputIds := assign (sortIds outIds o.outputSwaps).1 fun _ => -1
      outputSwaps := (sortIds outIds o.outputSwaps).2 }

/-! ### `output_reorder` -/

def applySwap (o : Outputs α) (p : ℕ × ℕ) : Outputs α :=
  { o with
    logits := if 0 < o.logitsSize then swapRow o.nVocab o.logits p else o.logits
    embd := if 0 < o.embdSize then swapRow o.nEmbd o.embd p else o.embd }

def outputReorder (o : Outputs α) : Outputs α :=
  { o.outputSwaps.foldl applySwap o with outputSwaps := [] }

/-! ### The selection sort -/

theorem minIndex_spec {ids : List ℕ} {i : ℕ} (hi : i < ids.length) :
    i ≤ minIndex ids i ∧ minIndex ids i < ids.length ∧
      ∀ j, i ≤ j → j < ids.length → ids.getD (minIndex ids i) 0 ≤ ids.getD j 0 := by
  have hloop : ∀ m, i + m < ids.length →
      let r := (List.range' (i + 1) m).foldl (fun jMin j => if ids.getD j 0 < ids.getD jMin 0 then j else jMin) i
      i ≤ r ∧ r ≤ i + m ∧ ∀ j, i ≤ j → j ≤ i + m → ids.getD r 0 ≤ ids.getD j 0 := by
    intro m
    induction m with
    | zero =>
      refine fun _ => ⟨Nat.le_refl i, Nat.le_refl i, fun j hj hj' => ?_⟩
      obtain rfl : j = i := Nat.le_antisymm hj' hj
      exact Nat.le_refl _
    | succ m ih =>
      intro hm
      obtain ⟨hle, hlt, hmin⟩ := ih (by omega)
      rw [range'_concat, foldl_append, foldl_cons, foldl_nil, Nat.one_mul]
      dsimp only
      split
      · next hless =>
        refine ⟨by omega, by omega, fun j hj hj' => ?_⟩
        by_cases hlast : j = i + 1 + m
        · rw [hlast]
        · have := hmin j hj (by omega)
          omega
      · next hnot =>
        refine ⟨hle, by omega, fun j hj hj' => ?_⟩
        by_cases hlast : j = i + 1 + m
        · rw [hlast]
          omega
        · exact hmin j hj (by omega)
  obtain ⟨hle, hlt, hmin⟩ := hloop (ids.length - (i + 1)) (by omega)
  exact ⟨hle, Nat.lt_of_le_of_lt hlt (by omega), fun j hj hj' => hmin j hj (by omega)⟩

/-- The ids `ids` are those of `outIds`, rearranged by the swaps, and in order up to place `i`. -/
structure Arranged (outIds : List ℕ) (i : ℕ) (x : List ℕ × List (ℕ × ℕ)) : Prop where
  perm : x.1.Perm outIds
  replay : ∀ k, x.1.getD k 0 = outIds.getD (Swaps.perm x.2 k) 0
  inside : ∀ k < outIds.length, Swaps.perm x.2 k < outIds.length
  ordered : ∀ a < i, ∀ b, a < b → b < outIds.length → x.1.getD a 0 < x.1.getD b 0

theorem Arranged.length {outIds : List ℕ} {i : ℕ} {x : List ℕ × List (ℕ × ℕ)} (h : Arranged outIds i x) :
    x.1.length = outIds.length := h.perm.length_eq

theorem Arranged.getD_inj {outIds : List ℕ} (hnodup : outIds.Nodup) {i : ℕ} {x : List ℕ × List (ℕ × ℕ)}
    (h : Arranged outIds i x) {a b : ℕ} (ha : a < outIds.length) (hb : b < outIds.length)
    (heq : x.1.getD a 0 = x.1.getD b 0) : a = b := by
  rw [getD_eq_getElem _ _ (h.length.symm ▸ ha), getD_eq_getElem _ _ (h.length.symm ▸ hb)] at heq
  exact (List.Nodup.getElem_inj_iff (h.perm.nodup_iff.mpr hnodup)).mp heq

theorem Arranged.step {outIds : List ℕ} (hnodup : outIds.Nodup) {i : ℕ} (hi : i < outIds.length)
    {x : List ℕ × List (ℕ × ℕ)} (h : Arranged outIds i x) : Arranged outIds (i + 1) (sortStep x i) := by
  have hlen := h.length
  obtain ⟨hle, hlt, hmin⟩ := minIndex_spec (show i < x.1.length from hlen.symm ▸ hi)
  have hstrict : ∀ j, i ≤ j → j < outIds.length → j ≠ minIndex x.1 i →
      x.1.getD (minIndex x.1 i) 0 < x.1.getD j 0 := by
    intro j hj hj' hne
    have hle' := hmin j hj (hlen.symm ▸ hj')
    have hne' : x.1.getD (minIndex x.1 i) 0 ≠ x.1.getD j 0 := fun heq =>
      hne (h.getD_inj hnodup (hlen ▸ hlt) hj' heq).symm
    omega
  rw [sortStep]
  by_cases hmin' : minIndex x.1 i = i
  · rw [if_pos hmin']
    refine ⟨h.perm, h.replay, h.inside, fun a ha b hab hb => ?_⟩
    by_cases hai : a = i
    · rw [hai]
      have := hstrict b (by omega) hb (by omega)
      rwa [hmin'] at this
    · exact h.ordered a (by omega) b hab hb
  · rw [if_neg hmin']
    generalize hj : minIndex x.1 i = j at hle hlt hmin hstrict hmin'
    have hi' : i < x.1.length := hlen.symm ▸ hi
    have hget : ∀ k, (swapEntries x.1 i j).getD k 0 = x.1.getD (Equiv.swap i j k) 0 := getD_swapEntries hi' hlt
    refine ⟨(swapEntries_perm hi' hlt).trans h.perm, fun k => ?_, fun k hk => ?_, fun a ha b hab hb => ?_⟩
    · rw [hget, h.replay, perm_snoc]
      rfl
    · rw [perm_snoc]
      exact h.inside _ (swap_lt hi (hlen ▸ hlt) hk)
    · rw [hget, hget]
      by_cases hai : a = i
      · -- The least id comes to place `i`; what it changes places with is behind it.
        rw [hai, Equiv.swap_apply_left]
        refine hstrict _ ?_ (swap_lt hi (hlen ▸ hlt) hb) ?_
        · rw [Equiv.swap_apply_def]
          split_ifs <;> omega
        · rw [Equiv.swap_apply_def]
          split_ifs <;> omega
      · have ha' : Equiv.swap i j a = a := Equiv.swap_apply_of_ne_of_ne (by omega) (by omega)
        rw [ha']
        refine h.ordered a (by omega) _ ?_ (swap_lt hi (hlen ▸ hlt) hb)
        rw [Equiv.swap_apply_def]
        split_ifs <;> omega

theorem arranged_start (outIds : List ℕ) : Arranged outIds 0 (outIds, []) where
  perm := List.Perm.refl outIds
  replay _ := rfl
  inside _ hk := hk
  ordered a ha := absurd ha (Nat.not_lt_zero a)

theorem sortIds_arranged {outIds : List ℕ} (hnodup : outIds.Nodup) :
    Arranged outIds (outIds.length - 1) (sortIds outIds []) := by
  have hloop : ∀ m ≤ outIds.length - 1, Arranged outIds m ((List.range m).foldl sortStep (outIds, [])) := by
    intro m
    induction m with
    | zero => exact fun _ => arranged_start outIds
    | succ m ih =>
      intro hm
      rw [range_succ, foldl_append, foldl_cons, foldl_nil]
      exact (ih (by omega)).step hnodup (by omega)
  exact hloop _ (Nat.le_refl _)

/-! ### `output_ids` -/

theorem foldl_assign {l : List ℕ} (hnodup : l.Nodup) (m : ℕ) (ids : ℕ → ℤ) (b : ℕ) :
    (l.zipIdx m).foldl (fun ids x => Function.update ids x.1 (x.2 : ℤ)) ids b
      = if b ∈ l then ((m + l.idxOf b : ℕ) : ℤ) else ids b := by
  induction l generalizing m ids with
  | nil => rfl
  | cons x l ih =>
    obtain ⟨hx, hl⟩ := nodup_cons.mp hnodup
    rw [zipIdx_cons, foldl_cons, ih hl]
    by_cases hb : b = x
    · subst hb
      rw [if_neg hx, if_pos mem_cons_self, Function.update_self, idxOf_cons_self, Nat.add_zero]
    · rw [Function.update_of_ne hb]
      refine if_congr (by rw [mem_cons, or_iff_right hb]) ?_ rfl
      rw [idxOf_cons_ne _ (Ne.symm hb)]
      omega

theorem assign_apply {l : List ℕ} (hnodup : l.Nodup) (ids : ℕ → ℤ) (b : ℕ) :
    assign l ids b = if b ∈ l then (l.idxOf b : ℤ) else ids b := by
  rw [assign, foldl_assign hnodup, Nat.zero_add]

theorem setMappings_arranged (o : Outputs α) {outIds : List ℕ} (hnodup : outIds.Nodup) :
    ∃ x, Arranged outIds (outIds.length - 1) x ∧
      o.reserve.setMappings outIds = { o with outputIds := assign x.1 fun _ => -1, outputSwaps := x.2 } := by
  rw [setMappings]
  by_cases hnil : outIds = []
  · rw [if_pos hnil, hnil]
    exact ⟨([], []), arranged_start [], rfl⟩
  rw [if_neg hnil]
  by_cases hsorted : outIds.zipIdx.all fun x => x.1 = x.2
  · rw [if_pos hsorted]
    refine ⟨(outIds, []), ⟨List.Perm.refl outIds, fun _ => rfl, fun k hk => hk, fun a _ b hab hb => ?_⟩, rfl⟩
    -- Every id is its own place.
    have hself : ∀ k (hk : k < outIds.length), outIds[k] = k := fun k hk =>
      of_decide_eq_true (all_eq_true.mp hsorted (outIds[k], k) (mem_zipIdx_iff_getElem?.mpr
        (getElem?_eq_getElem hk)))
    rw [getD_eq_getElem _ _ (Nat.lt_trans hab hb), getD_eq_getElem _ _ hb, hself, hself]
    exact hab
  · rw [if_neg hsorted]
    exact ⟨_, sortIds_arranged hnodup, rfl⟩

/-! ### `output_reorder` -/

theorem foldl_applySwap (swaps : List (ℕ × ℕ)) (o : Outputs α) :
    swaps.foldl applySwap o =
      { o with
        logits := if 0 < o.logitsSize then swaps.foldl (swapRow o.nVocab) o.logits else o.logits
        embd := if 0 < o.embdSize then swaps.foldl (swapRow o.nEmbd) o.embd else o.embd } := by
  induction swaps generalizing o with
  | nil =>
    rw [foldl_nil, foldl_nil, foldl_nil, ite_self, ite_self]
  | cons p swaps ih =>
    rw [foldl_cons, ih]
    simp only [applySwap, foldl_cons]
    congr 1
    · split_ifs <;> rfl
    · split_ifs <;> rfl

/-- In `o'` the outputs `outIds` of the batch are in batch order, each with the row that is stored for it in `o`, in the
order of `outIds`. -/
structure InBatchOrder (o : Outputs α) (outIds : List ℕ) (o' : Outputs α) : Prop where
  row : ∀ b ∈ outIds, ∃ r < outIds.length, o'.outputIds b = r ∧
    (0 < o.logitsSize → Swaps.row o.nVocab o'.logits r = Swaps.row o.nVocab o.logits (outIds.idxOf b)) ∧
      (0 < o.embdSize → Swaps.row o.nEmbd o'.embd r = Swaps.row o.nEmbd o.embd (outIds.idxOf b))
  increasing : ∀ b ∈ outIds, ∀ b' ∈ outIds, b < b' → o'.outputIds b < o'.outputIds b'
  other : ∀ b ∉ outIds, o'.outputIds b = -1
  done : o'.outputSwaps = []

/-- **The order of the outputs.**  Whatever order the splitter took, `decode` and `output_reorder` put the rows into the
order of the batch. -/
theorem outputReorder_inBatchOrder (o : Outputs α) {outIds : List ℕ} (hnodup : outIds.Nodup) :
    InBatchOrder o outIds (o.reserve.setMappings outIds).outputReorder := by
  obtain ⟨x, hx, heq⟩ := setMappings_arranged o hnodup
  have hids : x.1.Nodup := hx.perm.nodup_iff.mpr hnodup
  have hout : (o.reserve.setMappings outIds).outputReorder.outputIds = assign x.1 fun _ => -1 := by
    rw [outputReorder, heq, foldl_applySwap]
  have hplace : ∀ b ∈ outIds, x.1.idxOf b < outIds.length ∧ x.1.getD (x.1.idxOf b) 0 = b := by
    intro b hb
    have hlt : x.1.idxOf b < x.1.length := idxOf_lt_length_iff.mpr (hx.perm.mem_iff.mpr hb)
    refine ⟨hx.length ▸ hlt, ?_⟩
    rw [getD_eq_getElem _ _ hlt, getElem_idxOf]
  have hval : ∀ b ∈ outIds, (o.reserve.setMappings outIds).outputReorder.outputIds b = (x.1.idxOf b : ℤ) := by
    intro b hb
    rw [hout, assign_apply hids, if_pos (hx.perm.mem_iff.mpr hb)]
  have hfrom : ∀ b ∈ outIds, Swaps.perm x.2 (x.1.idxOf b) = outIds.idxOf b := by
    intro b hb
    obtain ⟨hlt, hget⟩ := hplace b hb
    have hin := hx.inside _ hlt
    rw [hx.replay, getD_eq_getElem _ _ hin] at hget
    exact (List.Nodup.idxOf_getElem hnodup _ hin).symm.trans (congrArg outIds.idxOf hget)
  refine ⟨fun b hb => ⟨x.1.idxOf b, (hplace b hb).1, hval b hb, fun hsize => ?_, fun hsize => ?_⟩,
    fun b hb b' hb' hlt => ?_, fun b hb => ?_, rfl⟩
  · have hlogits : (o.reserve.setMappings outIds).outputReorder.logits = x.2.foldl (swapRow o.nVocab) o.logits := by
      rw [outputReorder, heq, foldl_applySwap]
      exact if_pos hsize
    rw [hlogits, row_foldl_swapRow, Function.comp_apply, hfrom b hb]
  · have hembd : (o.reserve.setMappings outIds).outputReorder.embd = x.2.foldl (swapRow o.nEmbd) o.embd := by
      rw [outputReorder, heq, foldl_applySwap]
      exact if_pos hsize
    rw [hembd, row_foldl_swapRow, Function.comp_apply, hfrom b hb]
  · obtain ⟨hlt1, hget1⟩ := hplace b hb
    obtain ⟨hlt2, hget2⟩ := hplace b' hb'
    rw [hval b hb, hval b' hb', Int.ofNat_lt]
    refine Nat.lt_of_not_le fun hle => ?_
    obtain hlt' | heq' := Nat.lt_or_eq_of_le hle
    · have := hx.ordered _ (by omega) _ hlt' hlt1
      omega
    · rw [heq'] at hget2
      omega
  · rw [hout, assign_apply hids, if_neg fun hmem => hb (hx.perm.mem_iff.mp hmem)]

def threeOutputs : Outputs ℕ := ⟨1, 1, 3, 0, fun i => [20, 0, 10].getD i 0, fun _ => 0, fun _ => 5, [(0, 1)]⟩

theorem outputReorder_threeOutputs :
    InBatchOrder threeOutputs [2, 0, 1] (threeOutputs.reserve.setMappings [2, 0, 1]).outputReorder :=
  outputReorder_inBatchOrder threeOutputs (by decide)

example : (List.range 3).map (threeOutputs.reserve.setMappings [2, 0, 1]).outputReorder.logits = [0, 10, 20] := by
  decide

end Outputs
