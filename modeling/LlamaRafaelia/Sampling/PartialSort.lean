import LlamaRafaelia.Lib.Buckets
import Mathlib.Data.Int.Order.Basic
import Mathlib.Data.List.Induction
import Mathlib.Order.Monotone.Basic
import Mathlib.Data.Int.ConditionallyCompleteOrder
import Mathlib.Order.ConditionallyCompleteLattice.Basic

/-!
# The partial sort of the candidates

The samplers need the candidates with the largest logits.  For many of them the candidates are first thrown into buckets by
their logits, and only the bucket that the wanted number falls into is sorted in part.

* `partial_sort_leading` - **the candidates with the largest logits come first**, as a plain partial sort has them.
-/

namespace Sampling

open List

/-- `llama_token_data`. -/
structure TokenData (L : Type) where
  id : ℤ
  logit : L
  p : L
deriving Inhabited, DecidableEq, Repr

open Buckets

variable {L : Type}

/-- `std::sort` and `std::partial_sort` for the comparison of logits; the order of equal logits is left open. -/
structure StdSort (L : Type) [LinearOrder L] where
  sort : List (TokenData L) → List (TokenData L)
  partialSort : ℕ → List (TokenData L) → List (TokenData L)
  sort_perm : ∀ l, (sort l).Perm l
  sort_sorted : ∀ l, (sort l).Pairwise fun a b => b.logit ≤ a.logit
  partialSort_perm : ∀ n l, (partialSort n l).Perm l
  partialSort_leading : ∀ n l, n ≤ l.length → Leading TokenData.logit l ((partialSort n l).take n)

/-! ### The buckets -/

def nbuckets : ℕ := 128

/-- The bucket of a logit: `scaled` is the truncation of the scaled logit. -/
def bucketIndex (scaled : L → ℤ) (val : L) : ℕ := (max 0 (min ((nbuckets : ℤ) - 1) (scaled val))).toNat

/-- `bucket_idx` and `histo` after one more candidate. -/
def histoStep (scaled : L → ℤ) (st : List ℕ × List ℕ) (a : TokenData L) : List ℕ × List ℕ :=
  let ib := bucketIndex scaled a.logit
  (st.1 ++ [ib], st.2.set ib (st.2.getD ib 0 + 1))

def histogram (scaled : L → ℤ) (cur : List (TokenData L)) : List ℕ × List ℕ :=
  cur.foldl (histoStep scaled) ([], replicate nbuckets 0)

/-- The loop down from the last bucket: the first one where the number of candidates is reached, and how many there are. -/
def cutoff (histo : List ℕ) (nPartial : ℕ) : ℕ → ℕ → Except String (ℕ × ℕ)
  | 0, _ => .error "histo index out of range"
  | ib + 1, nhave =>
    if nPartial ≤ nhave + histo.getD ib 0 then .ok (ib, nhave + histo.getD ib 0)
    else cutoff histo nPartial ib (nhave + histo.getD ib 0)

/-- The loop that makes `bucket_ptrs`, the last bucket first. -/
def ptrLoop (histo : List ℕ) (ib : ℕ) : ℕ → ℕ → List ℕ → List ℕ
  | 0, _, ptrs => ptrs
  | j + 1, ptr, ptrs => if ib ≤ j then ptrLoop histo ib j (ptr + histo.getD j 0) (ptrs ++ [ptr]) else ptrs

def scatterStep (ib : ℕ) (st : List (TokenData L) × List ℕ) (e : ℕ × TokenData L) :
    Except String (List (TokenData L) × List ℕ) :=
  if ib ≤ e.1 then
    match st.2[nbuckets - 1 - e.1]? with
    | none => .error "bucket_ptrs index out of range"
    | some ptr =>
      if ptr < st.1.length then .ok (st.1.set ptr e.2, st.2.set (nbuckets - 1 - e.1) (ptr + 1))
      else .error "write outside of res"
  else .ok st

/-! ### Sorting -/

/-- A function of the library on the `n` candidates from `ptr` on. -/
def onRange (f : List (TokenData L) → List (TokenData L)) (ptr n : ℕ) (res : List (TokenData L)) :
    Except String (List (TokenData L)) :=
  if ptr + n ≤ res.length then .ok (res.take ptr ++ f ((res.drop ptr).take n) ++ res.drop (ptr + n))
  else .error "range outside of res"

/-- The result, the pointer into it and `ndone`. -/
structure SortState (L : Type) where
  res : List (TokenData L)
  ptr : ℕ
  ndone : ℕ

def sortLoop [LinearOrder L] (std : StdSort L) (histo : List ℕ) (ib : ℕ) : ℕ → SortState L → Except String (SortState L)
  | 0, st => .ok st
  | j + 1, st =>
    if ib < j then do
      let res ← onRange std.sort st.ptr (histo.getD j 0) st.res
      sortLoop std histo ib j ⟨res, st.ptr + histo.getD j 0, st.ndone + histo.getD j 0⟩
    else .ok st

/-- `llama_token_data_array_partial_sort`. -/
def partial_sort [LinearOrder L] [Inhabited L] (std : StdSort L) (scaled : L → ℤ) (cur : List (TokenData L)) (nPartial : ℕ) :
    Except String (List (TokenData L)) := do
  let counted := histogram scaled cur
  let cut ← cutoff counted.2 nPartial nbuckets 0
  let ptrs := ptrLoop counted.2 cut.1 nbuckets 0 []
  let scattered ← (counted.1.zip cur).foldlM (scatterStep cut.1) (replicate cut.2 default, ptrs)
  let st ← sortLoop std counted.2 cut.1 nbuckets ⟨scattered.1, 0, 0⟩
  if st.ndone ≤ nPartial ∧ nPartial - st.ndone ≤ counted.2.getD cut.1 0 then
    onRange (std.partialSort (nPartial - st.ndone)) st.ptr (counted.2.getD cut.1 0) st.res
  else throw "partial_sort: middle outside of the range"

/-- `llama_token_data_array`: the candidates, `size` of them, and whether they are sorted. -/
structure TokenDataArray (L : Type) where
  data : List (TokenData L)
  sorted : Bool

/-- `llama_token_data_array_partial_sort_inplace`. -/
def partial_sort_inplace [LinearOrder L] [Inhabited L] (std : StdSort L) (scaled : L → ℤ) (cur_p : TokenDataArray L)
    (nPartial : ℕ) : Except String (TokenDataArray L) :=
  if nPartial ≤ 128 then
    if nPartial ≤ cur_p.data.length then return ⟨(std.partialSort nPartial cur_p.data).take nPartial, true⟩
    else throw "partial_sort: middle outside of the range"
  else do
    let tmp ← partial_sort std scaled cur_p.data nPartial
    if nPartial ≤ tmp.length ∧ nPartial ≤ cur_p.data.length then return ⟨tmp.take nPartial, true⟩
    else throw "copy outside of the array"

/-! ### Buckets from the last one down -/

variable {scaled : L → ℤ} {cur : List (TokenData L)}

theorem bucketIndex_lt (scaled : L → ℤ) (val : L) : bucketIndex scaled val < nbuckets := by
  rw [bucketIndex, nbuckets]
  omega

theorem bucketIndex_mono [LinearOrder L] (hmono : Monotone scaled) {x y : L} (h : x ≤ y) :
    bucketIndex scaled x ≤ bucketIndex scaled y := by
  have hscaled := hmono h
  rw [bucketIndex, bucketIndex]
  omega

def fromTop (scaled : L → ℤ) (a : TokenData L) : ℕ := nbuckets - 1 - bucketIndex scaled a.logit

def bucketOf (scaled : L → ℤ) (cur : List (TokenData L)) (i : ℕ) : List (TokenData L) :=
  cur.filter (fromTop scaled · = i)

theorem fromTop_lt (scaled : L → ℤ) (a : TokenData L) : fromTop scaled a < nbuckets := by
  rw [fromTop, nbuckets]
  omega

theorem logit_le_of_fromTop_lt [LinearOrder L] (hmono : Monotone scaled) {a b : TokenData L}
    (h : fromTop scaled a < fromTop scaled b) : b.logit ≤ a.logit := by
  by_contra hlt
  have hle := bucketIndex_mono hmono (not_le.mp hlt).le
  rw [fromTop, fromTop] at h
  omega

theorem bucketOf_concat (scaled : L → ℤ) (cur : List (TokenData L)) (a : TokenData L) (i : ℕ) :
    bucketOf scaled (cur ++ [a]) i = if fromTop scaled a = i then bucketOf scaled cur i ++ [a] else bucketOf scaled cur i := by
  rw [bucketOf, filter_append, filter_singleton]
  by_cases h : fromTop scaled a = i
  · simp [bucketOf, h]
  · simp [bucketOf, h]

theorem histogram_spec (scaled : L → ℤ) (cur : List (TokenData L)) :
    (histogram scaled cur).1 = cur.map (fun a => bucketIndex scaled a.logit) ∧
      (histogram scaled cur).2.length = nbuckets ∧
      ∀ i < nbuckets, (histogram scaled cur).2.getD (nbuckets - 1 - i) 0 = (bucketOf scaled cur i).length := by
  induction cur using reverseRecOn with
  | nil =>
    refine ⟨rfl, length_replicate, fun i hi => ?_⟩
    rw [histogram, foldl_nil, getD_eq_getElem?_getD, getElem?_replicate]
    split <;> rfl
  | append_singleton cur a ih =>
    obtain ⟨hidx, hlength, hcount⟩ := ih
    have hstep : histogram scaled (cur ++ [a]) = histoStep scaled (histogram scaled cur) a := by
      rw [histogram, foldl_append]
      rfl
    rw [hstep]
    refine ⟨?_, length_set.trans hlength, fun i hi => ?_⟩
    · rw [histoStep, hidx, map_append]
      rfl
    · have hlt := bucketIndex_lt scaled a.logit
      rw [histoStep, bucketOf_concat, getD_eq_getElem?_getD]
      by_cases htop : fromTop scaled a = i
      · have hplace : nbuckets - 1 - i = bucketIndex scaled a.logit := by
          rw [← htop, fromTop]
          omega
        have hcount' := hcount i hi
        rw [hplace] at hcount' ⊢
        rw [if_pos htop, getElem?_set_self (by omega), hcount', Option.getD_some, length_append,
          length_singleton]
      · have hplace : bucketIndex scaled a.logit ≠ nbuckets - 1 - i := by
          rw [fromTop] at htop
          omega
        rw [if_neg htop, getElem?_set_ne hplace, ← getD_eq_getElem?_getD, hcount i hi]

/-- The number of candidates in the first `n` buckets from the last one. -/
def countTop (scaled : L → ℤ) (cur : List (TokenData L)) (n : ℕ) : ℕ :=
  ((range n).map fun i => (bucketOf scaled cur i).length).sum

theorem countTop_succ (scaled : L → ℤ) (cur : List (TokenData L)) (n : ℕ) :
    countTop scaled cur (n + 1) = countTop scaled cur n + (bucketOf scaled cur n).length := by
  rw [countTop, range_succ, map_append, sum_append, map_singleton, sum_singleton, countTop]

theorem countTop_all (scaled : L → ℤ) (cur : List (TokenData L)) : countTop scaled cur nbuckets = cur.length := by
  have hperm := perm_buckets (fromTop scaled) cur nbuckets
  have hnone : cur.filter (nbuckets ≤ fromTop scaled ·) = [] := by
    rw [filter_eq_nil_iff]
    intro a _
    simpa using fromTop_lt scaled a
  rw [hnone, append_nil] at hperm
  rw [countTop, ← hperm.length_eq, length_flatMap]
  rfl

/-- **The last bucket** is the first one where the number is reached. -/
theorem cutoff_spec {histo : List ℕ} {nPartial : ℕ}
    (hhisto : ∀ i < nbuckets, histo.getD (nbuckets - 1 - i) 0 = (bucketOf scaled cur i).length)
    (hle : nPartial ≤ cur.length) (n j : ℕ) (hj : n + j = nbuckets) (hbefore : n = 0 ∨ countTop scaled cur n < nPartial) :
    ∃ m, m < nbuckets ∧ cutoff histo nPartial j (countTop scaled cur n) = .ok (nbuckets - 1 - m, countTop scaled cur (m + 1)) ∧
      countTop scaled cur m ≤ nPartial ∧ nPartial ≤ countTop scaled cur (m + 1) := by
  induction j generalizing n with
  | zero =>
    obtain rfl : n = nbuckets := hj
    rw [countTop_all] at hbefore
    rcases hbefore with hzero | hlt
    · cases hzero
    · omega
  | succ j ih =>
    have hlt : n < nbuckets := by omega
    have hplace : j = nbuckets - 1 - n := by omega
    have hnext : countTop scaled cur n + histo.getD j 0 = countTop scaled cur (n + 1) := by
      rw [countTop_succ, hplace, hhisto n hlt]
    rw [cutoff, hnext]
    by_cases hreached : nPartial ≤ countTop scaled cur (n + 1)
    · rw [if_pos hreached, hplace]
      refine ⟨n, hlt, rfl, ?_, hreached⟩
      rcases hbefore with rfl | hbefore
      · exact Nat.zero_le _
      · exact hbefore.le
    · rw [if_neg hreached]
      exact ih (n + 1) (by omega) (.inr (not_le.mp hreached))

theorem ptrLoop_spec {histo : List ℕ} {m : ℕ}
    (hhisto : ∀ i < nbuckets, histo.getD (nbuckets - 1 - i) 0 = (bucketOf scaled cur i).length) (hm : m < nbuckets)
    (n j : ℕ) (hj : n + j = nbuckets) (hn : n ≤ m + 1) :
    ptrLoop histo (nbuckets - 1 - m) j (countTop scaled cur n) ((range n).map (countTop scaled cur)) =
      (range (m + 1)).map (countTop scaled cur) := by
  induction j generalizing n with
  | zero =>
    obtain rfl : n = m + 1 := by omega
    rfl
  | succ j ih =>
    rw [ptrLoop]
    by_cases hlast : n ≤ m
    · have hplace : j = nbuckets - 1 - n := by omega
      have hnext : countTop scaled cur n + histo.getD j 0 = countTop scaled cur (n + 1) := by
        rw [countTop_succ, hplace, hhisto n (by omega)]
      rw [if_pos (by omega), hnext, ← ih (n + 1) (by omega) (by omega), range_succ, map_append, map_singleton]
    · obtain rfl : n = m + 1 := by omega
      rw [if_neg (by omega)]

/-! ### The pass that fills the buckets -/

theorem scatterStep_filling [Inhabited L] {m : ℕ} (hm : m < nbuckets) {done todo : List (TokenData L)} {a : TokenData L}
    {st : List (TokenData L) × List ℕ} (hcur : done ++ a :: todo = cur)
    (h : Filling default (m + 1) (fun i => (bucketOf scaled cur i).length) (bucketOf scaled done) st.1 st.2) :
    ∃ st', scatterStep (nbuckets - 1 - m) st (bucketIndex scaled a.logit, a) = .ok st' ∧
      Filling default (m + 1) (fun i => (bucketOf scaled cur i).length) (bucketOf scaled (done ++ [a])) st'.1 st'.2 := by
  have hlt := bucketIndex_lt scaled a.logit
  have htop : fromTop scaled a = nbuckets - 1 - bucketIndex scaled a.logit := rfl
  rw [scatterStep]
  by_cases hin : nbuckets - 1 - m ≤ bucketIndex scaled a.logit
  · have hroom : (bucketOf scaled done (fromTop scaled a)).length < (bucketOf scaled cur (fromTop scaled a)).length := by
      rw [← hcur, ← singleton_append, ← append_assoc, bucketOf, bucketOf, filter_append,
        filter_append, filter_singleton]
      simp
    obtain ⟨ptr, hptr, hwrite, hnext⟩ := h.put (show fromTop scaled a < m + 1 by omega) hroom a
    rw [if_pos hin, ← htop, hptr]
    refine ⟨(st.1.set ptr a, st.2.set (fromTop scaled a) (ptr + 1)), if_pos hwrite, hnext.congr fun i _ => ?_⟩
    rw [bucketOf_concat]
    by_cases hi : fromTop scaled a = i
    · rw [if_pos hi, ← hi, Function.update_self]
    · rw [if_neg hi, Function.update_of_ne (Ne.symm hi)]
  · rw [if_neg hin]
    refine ⟨st, rfl, h.congr fun i hi => ?_⟩
    rw [bucketOf_concat, if_neg (by omega)]

theorem scatter_filling [Inhabited L] {m : ℕ} (hm : m < nbuckets) (done todo : List (TokenData L))
    (st : List (TokenData L) × List ℕ) (hcur : done ++ todo = cur)
    (h : Filling default (m + 1) (fun i => (bucketOf scaled cur i).length) (bucketOf scaled done) st.1 st.2) :
    ∃ st', ((todo.map fun a => bucketIndex scaled a.logit).zip todo).foldlM (scatterStep (nbuckets - 1 - m)) st = .ok st' ∧
      Filling default (m + 1) (fun i => (bucketOf scaled cur i).length) (bucketOf scaled cur) st'.1 st'.2 := by
  induction todo generalizing done st with
  | nil =>
    rw [append_nil] at hcur
    exact ⟨st, rfl, hcur ▸ h⟩
  | cons a todo ih =>
    obtain ⟨st₁, hst₁, h₁⟩ := scatterStep_filling hm hcur h
    obtain ⟨st', hst', h'⟩ := ih (done ++ [a]) st₁ (by rw [← hcur, append_assoc, singleton_append]) h₁
    refine ⟨st', ?_, h'⟩
    rw [map_cons, zip_cons_cons, foldlM_cons, hst₁]
    exact hst'

/-! ### The pass that sorts the buckets -/

theorem onRange_middle (f : List (TokenData L) → List (TokenData L)) {S B R : List (TokenData L)} {ptr n : ℕ}
    (hptr : S.length = ptr) (hn : B.length = n) : onRange f ptr n (S ++ (B ++ R)) = .ok (S ++ f B ++ R) := by
  subst hptr
  subst hn
  have hfits : S.length + B.length ≤ (S ++ (B ++ R)).length := by
    rw [length_append, length_append]
    omega
  have hrest : (S ++ (B ++ R)).drop (S.length + B.length) = R := by
    rw [← append_assoc, ← length_append, drop_left]
  rw [onRange, if_pos hfits, take_left, drop_left, take_left, hrest]

/-- **The buckets above the last one are sorted**, one after the other. -/
theorem sortLoop_spec [LinearOrder L] (hmono : Monotone scaled) (std : StdSort L) {histo : List ℕ} {m : ℕ}
    (hhisto : ∀ i < nbuckets, histo.getD (nbuckets - 1 - i) 0 = (bucketOf scaled cur i).length) (hm : m < nbuckets)
    (n j : ℕ) (hj : n + j = nbuckets) (hn : n ≤ m) (S : List (TokenData L))
    (hS : S.Perm ((range n).flatMap (bucketOf scaled cur))) (hsorted : S.Pairwise fun a b => b.logit ≤ a.logit) :
    ∃ S', sortLoop std histo (nbuckets - 1 - m) j
        ⟨S ++ (range' n (m + 1 - n)).flatMap (bucketOf scaled cur), countTop scaled cur n, countTop scaled cur n⟩ =
        .ok ⟨S' ++ bucketOf scaled cur m, countTop scaled cur m, countTop scaled cur m⟩ ∧
      S'.Perm ((range m).flatMap (bucketOf scaled cur)) ∧ S'.Pairwise fun a b => b.logit ≤ a.logit := by
  induction j generalizing n S with
  | zero => omega
  | succ j ih =>
    rw [sortLoop]
    by_cases habove : n < m
    · have hlength : S.length = countTop scaled cur n := by
        rw [hS.length_eq, length_flatMap]
        rfl
      have hplace : histo.getD j 0 = (bucketOf scaled cur n).length := by
        rw [← hhisto n (by omega), show nbuckets - 1 - n = j by omega]
      have hblocks : range' n (m + 1 - n) = n :: range' (n + 1) (m + 1 - (n + 1)) := by
        rw [show m + 1 - n = m + 1 - (n + 1) + 1 by omega, range'_succ]
      have hnext : (S ++ std.sort (bucketOf scaled cur n)).Perm ((range (n + 1)).flatMap (bucketOf scaled cur)) := by
        rw [range_succ, flatMap_append, flatMap_singleton]
        exact hS.append (std.sort_perm _)
      have hsorted' : (S ++ std.sort (bucketOf scaled cur n)).Pairwise fun a b => b.logit ≤ a.logit := by
        rw [pairwise_append]
        refine ⟨hsorted, std.sort_sorted _, fun a ha b hb => ?_⟩
        obtain ⟨i, hi, hai⟩ := mem_flatMap.mp (hS.mem_iff.mp ha)
        rw [(std.sort_perm _).mem_iff] at hb
        have ha' := of_decide_eq_true (mem_filter.mp hai).2
        have hb' := of_decide_eq_true (mem_filter.mp hb).2
        have := mem_range.mp hi
        exact logit_le_of_fromTop_lt hmono (by omega)
      obtain ⟨S', hS', hrest⟩ := ih (n + 1) (by omega) habove _ hnext hsorted'
      refine ⟨S', ?_, hrest⟩
      rw [if_pos (by omega), hblocks, flatMap_cons, onRange_middle std.sort hlength hplace.symm, hplace,
        ← countTop_succ]
      exact hS'
    · obtain rfl : n = m := by omega
      refine ⟨S, ?_, hS, hsorted⟩
      rw [if_neg (by omega), Nat.add_sub_cancel_left, range'_one, flatMap_singleton]

/-! ### The largest logits -/

theorem partial_sort_spec [LinearOrder L] [Inhabited L] (std : StdSort L) (hmono : Monotone scaled) {nPartial : ℕ}
    (hle : nPartial ≤ cur.length) :
    ∃ res, partial_sort std scaled cur nPartial = .ok res ∧ nPartial ≤ res.length ∧
      Leading TokenData.logit cur (res.take nPartial) := by
  obtain ⟨hidx, -, hhisto⟩ := histogram_spec scaled cur
  obtain ⟨m, hm, hcut, hdone, hreached⟩ := cutoff_spec hhisto hle 0 nbuckets (Nat.zero_add _) (.inl rfl)
  have hptrs := ptrLoop_spec hhisto hm 0 nbuckets (Nat.zero_add _) (Nat.zero_le _)
  have hstart : Filling default (m + 1) (fun i => (bucketOf scaled cur i).length) (bucketOf scaled [])
      (replicate (countTop scaled cur (m + 1)) default) ((range (m + 1)).map (countTop scaled cur)) :=
    Filling.start default (m + 1) fun i => (bucketOf scaled cur i).length
  obtain ⟨st, hscatter, hfilled⟩ := scatter_filling hm [] cur (_, _) (nil_append cur) hstart
  have hres : st.1 = (range (m + 1)).flatMap (bucketOf scaled cur) := hfilled.full fun i _ => Nat.le_refl _
  obtain ⟨S, hsort, hS, hsorted⟩ := sortLoop_spec hmono std hhisto hm 0 nbuckets (Nat.zero_add _) (Nat.zero_le m) []
    List.Perm.nil List.Pairwise.nil
  have hlength : S.length = countTop scaled cur m := by
    rw [hS.length_eq, length_flatMap]
    rfl
  have hbucket := hhisto m hm
  have hlast : nPartial - countTop scaled cur m ≤ (bucketOf scaled cur m).length := by
    rw [countTop_succ] at hreached
    omega
  -- what is written is the sorted buckets and the last one sorted in part
  have hwritten := onRange_middle (std.partialSort (nPartial - countTop scaled cur m)) (R := []) hlength hbucket.symm
  rw [append_nil, append_nil] at hwritten
  have hrun : partial_sort std scaled cur nPartial =
      .ok (S ++ std.partialSort (nPartial - countTop scaled cur m) (bucketOf scaled cur m)) := by
    have hzero : countTop scaled cur 0 = 0 := rfl
    rw [hzero] at hcut hptrs hsort
    rw [range_zero, map_nil] at hptrs
    rw [Nat.sub_zero, nil_append, ← range_eq_range', ← hres] at hsort
    simp only [partial_sort, hcut, hptrs, hidx, bind, Except.bind]
    rw [hscatter]
    simp only [hsort]
    rw [if_pos ⟨hdone, by rwa [hbucket]⟩]
    exact hwritten
  have hperm := std.partialSort_perm (nPartial - countTop scaled cur m) (bucketOf scaled cur m)
  have htake : ∀ P : List (TokenData L), (S ++ P).take nPartial = S ++ P.take (nPartial - countTop scaled cur m) := by
    intro P
    rw [take_append, take_of_length_le (by omega), hlength]
  refine ⟨_, hrun, ?_, ?_⟩
  · rw [length_append, hperm.length_eq]
    omega
  · rw [htake]
    have hbelow : Leading TokenData.logit (bucketOf scaled cur m ++ cur.filter (m + 1 ≤ fromTop scaled ·))
        ((std.partialSort (nPartial - countTop scaled cur m) (bucketOf scaled cur m)).take
          (nPartial - countTop scaled cur m)) := by
      refine (std.partialSort_leading _ _ hlast).append_below fun a ha b hb => logit_le_of_fromTop_lt hmono ?_
      have ha' := of_decide_eq_true (mem_filter.mp ha).2
      have hb' := of_decide_eq_true (mem_filter.mp hb).2
      omega
    refine (Leading.append hS hsorted ?_ hbelow).of_perm ?_
    · intro a ha b hb
      obtain ⟨i, hi, hai⟩ := mem_flatMap.mp ha
      have ha' := of_decide_eq_true (mem_filter.mp hai).2
      have hi' := mem_range.mp hi
      refine logit_le_of_fromTop_lt hmono ?_
      rcases mem_append.mp hb with hb | hb
      · have hb' := of_decide_eq_true (mem_filter.mp hb).2
        omega
      · have hb' := of_decide_eq_true (mem_filter.mp hb).2
        omega
    · have hall := perm_buckets (fromTop scaled) cur (m + 1)
      rw [range_succ, flatMap_append, flatMap_singleton, append_assoc] at hall
      exact hall

/-- **The partial sort of the candidates**: the candidates with the largest logits come first, with the same logits as a
plain partial sort has them; in place only they are kept. -/
theorem partial_sort_leading [LinearOrder L] [Inhabited L] (std : StdSort L) (hmono : Monotone scaled) {nPartial : ℕ}
    (hle : nPartial ≤ cur.length) :
    (∃ res, partial_sort std scaled cur nPartial = .ok res ∧ nPartial ≤ res.length ∧
      Leading TokenData.logit cur (res.take nPartial) ∧
      (res.take nPartial).map TokenData.logit = ((std.partialSort nPartial cur).take nPartial).map TokenData.logit) ∧
    ∀ sorted, ∃ kept, partial_sort_inplace std scaled ⟨cur, sorted⟩ nPartial = .ok ⟨kept, true⟩ ∧ kept.length = nPartial ∧
      Leading TokenData.logit cur kept ∧
      kept.map TokenData.logit = ((std.partialSort nPartial cur).take nPartial).map TokenData.logit := by
  obtain ⟨res, hres, hlength, hlead⟩ := partial_sort_spec std hmono hle
  have hplain := std.partialSort_leading nPartial cur hle
  have hplainLength : ((std.partialSort nPartial cur).take nPartial).length = nPartial := by
    rw [length_take, (std.partialSort_perm nPartial cur).length_eq]
    omega
  have htakeLength : (res.take nPartial).length = nPartial := by
    rw [length_take]
    omega
  have hsame := hlead.keys_eq hplain (htakeLength.trans hplainLength.symm)
  refine ⟨⟨res, hres, hlength, hlead, hsame⟩, fun sorted => ?_⟩
  rw [partial_sort_inplace]
  by_cases hfew : nPartial ≤ 128
  · rw [if_pos hfew, if_pos hle]
    exact ⟨_, rfl, hplainLength, hplain, rfl⟩
  · rw [if_neg hfew, hres]
    exact ⟨res.take nPartial, if_pos ⟨hlength, hle⟩, htakeLength, hlead, hsame⟩

/-! ### Sorting by insertion -/

def Before [LinearOrder L] (a b : TokenData L) : Prop := b.logit ≤ a.logit

instance [LinearOrder L] : DecidableRel (Before (L := L)) := fun a b => inferInstanceAs (Decidable (b.logit ≤ a.logit))

instance [LinearOrder L] : Std.Total (Before (L := L)) := ⟨fun a b => le_total b.logit a.logit⟩

instance [LinearOrder L] : IsTrans (TokenData L) Before := ⟨fun _ _ _ hab hbc => le_trans hbc hab⟩

/-- Sorting everything by insertion keeps the promises of both functions. -/
def StdSort.insertion (L : Type) [LinearOrder L] : StdSort L where
  sort := insertionSort Before
  partialSort := fun _ => insertionSort Before
  sort_perm := perm_insertionSort Before
  sort_sorted := pairwise_insertionSort Before
  partialSort_perm := fun _ => perm_insertionSort Before
  partialSort_leading := fun n l _ => by
    have hsorted := pairwise_insertionSort Before l
    have hperm := perm_insertionSort Before l
    rw [← take_append_drop n (l.insertionSort Before)] at hsorted hperm
    have hparts := pairwise_append.mp hsorted
    exact ⟨hparts.1, _, hperm, hparts.2.2⟩

/-- So many that they go through the buckets. -/
def manyCandidates : List (TokenData ℤ) := (range 200).map fun (i : ℕ) => ⟨i, (i : ℤ) % 7 - 3, 0⟩

theorem partial_sort_leading_buckets :
    ∃ res, partial_sort (StdSort.insertion ℤ) id manyCandidates 150 = .ok res ∧ 150 ≤ res.length ∧
      Leading TokenData.logit manyCandidates (res.take 150) := by
  have hle : 150 ≤ manyCandidates.length := by simp [manyCandidates]
  obtain ⟨⟨res, hres, hlength, hlead, -⟩, -⟩ := partial_sort_leading (StdSort.insertion ℤ) monotone_id hle
  exact ⟨res, hres, hlength, hlead⟩

end Sampling
