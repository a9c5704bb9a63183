import LlamaRafaelia.Lib.CountTable
import Mathlib.Algebra.BigOperators.Group.Finset.Basic
import Mathlib.Data.Int.Interval
import Mathlib.Data.Int.ConditionallyCompleteOrder
import Mathlib.Order.ConditionallyCompleteLattice.Basic

/-!
# The n-gram cache: updates and merges

The cache counts which token follows an n-gram.  `common_ngram_cache_update` counts the windows that end in a new
token; `common_ngram_cache_merge` adds one cache to another.

* `update_tracks` - **one call** adds the windows that end in the new tokens;
* `updates_eq` - **appending in pieces** gives the same cache as one call;
* `merge_tracks` - **merging adds counts**, in whatever order the entries are met.
-/

namespace NgramCache

open List

/-- `llama_token`. -/
abbrev Token := Int32

/-- `LLAMA_TOKEN_NULL`. -/
def llamaTokenNull : Token := -1

/-- `LLAMA_NGRAM_MAX`. -/
abbrev llamaNgramMax : ℕ := 4

/-- `common_ngram`. -/
abbrev Ngram := Fin llamaNgramMax → Token

/-- The constructor of `common_ngram`: what lies beyond the n-gram is null. -/
def ngram (input : List Token) (ngramSize : ℤ) : Ngram := fun i =>
  if (i : ℤ) < ngramSize then input.getD i llamaTokenNull else llamaTokenNull

/-- `common_ngram_cache_part`. -/
abbrev Part := CountMap Token

/-- `common_ngram_cache`. -/
abbrev Cache := CountTable Ngram Token

/-! ### `common_ngram_cache_update` -/

def countToken (part : Part) (token : Token) : Part :=
  match part.lookup token with
  | none => part.insert token 1
  | some n => part.insert token (n + 1)

def countNgram (cache : Cache) (p : Ngram × Token) : Cache :=
  match cache.lookup p.1 with
  | none => cache.insert p.1 ((∅ : Part).insert p.2 1)
  | some part => cache.insert p.1 (countToken part p.2)

/-- The values of `ngram_size`. -/
def sizes (ngramMin ngramMax : ℤ) : List ℤ := (range (ngramMax + 1 - ngramMin).toNat).map fun k : ℕ => ngramMin + k

/-- The values of `i`, from `i_start` to the end of the text. -/
def positions (inp : List Token) (nnew ngramSize : ℤ) : List ℕ :=
  let iStart := (max ((inp.length : ℤ) - nnew) ngramSize).toNat
  range' iStart (inp.length - iStart)

/-- The n-gram before position `i` and the token there. -/
def pairAt (inp : List Token) (ngramSize : ℤ) (i : ℕ) : Ngram × Token :=
  (ngram (inp.drop ((i : ℤ) - ngramSize).toNat) ngramSize, inp.getD i llamaTokenNull)

/-- `common_ngram_cache_update`. -/
def update (cache : Cache) (ngramMin ngramMax : ℤ) (inp : List Token) (nnew : ℤ) : Cache :=
  (sizes ngramMin ngramMax).foldl (fun cache ngramSize =>
    (positions inp nnew ngramSize).foldl (fun cache i => countNgram cache (pairAt inp ngramSize i)) cache) cache

/-- A text that grows by pieces, and the cache updated after each of them. -/
def updates (ngramMin ngramMax : ℤ) : Cache → List Token → List (List Token) → Cache
  | cache, _, [] => cache
  | cache, inp, piece :: pieces =>
    updates ngramMin ngramMax (update cache ngramMin ngramMax (inp ++ piece) piece.length) (inp ++ piece) pieces

/-! ### What a cache should hold -/

/-- How often the token follows the n-gram at or after position `start`, for n-grams of the given sizes. -/
noncomputable def pairCountFrom (start : ℕ) (ngramMin ngramMax : ℤ) (inp : List Token) (g : Ngram) (t : Token) : ℕ :=
  ∑ s ∈ Finset.Icc ngramMin ngramMax,
    (range inp.length).countP fun i => decide (start ≤ i ∧ s ≤ i ∧ pairAt inp s i = (g, t))

noncomputable def pairCount (ngramMin ngramMax : ℤ) (inp : List Token) (g : Ngram) (t : Token) : ℕ :=
  pairCountFrom 0 ngramMin ngramMax inp g t

/-- How often the tokens `w` stand in the text with `t` behind them. -/
def occurrences (inp w : List Token) (t : Token) : ℕ :=
  (range inp.length).countP fun i =>
    decide (w.length ≤ i ∧ (inp.drop (i - w.length)).take w.length = w ∧ inp.getD i llamaTokenNull = t)

theorem mem_sizes {ngramMin ngramMax s : ℤ} : s ∈ sizes ngramMin ngramMax ↔ s ∈ Finset.Icc ngramMin ngramMax := by
  rw [sizes, mem_map, Finset.mem_Icc]
  constructor
  · rintro ⟨k, hk, rfl⟩
    rw [mem_range] at hk
    omega
  · intro h
    exact ⟨(s - ngramMin).toNat, mem_range.mpr (by omega), by omega⟩

theorem nodup_sizes (ngramMin ngramMax : ℤ) : (sizes ngramMin ngramMax).Nodup := by
  refine List.Nodup.map (fun a b h => ?_) nodup_range
  omega

theorem sum_sizes (ngramMin ngramMax : ℤ) (f : ℤ → ℕ) :
    ((sizes ngramMin ngramMax).map f).sum = ∑ s ∈ Finset.Icc ngramMin ngramMax, f s := by
  rw [← sum_toFinset f (nodup_sizes ngramMin ngramMax)]
  refine Finset.sum_congr (Finset.ext fun s => ?_) fun _ _ => rfl
  rw [mem_toFinset, mem_sizes]

theorem countP_range' (p : ℕ → Bool) (a n : ℕ) :
    (range' a (n - a)).countP p = (range n).countP fun i => decide (a ≤ i) && p i := by
  by_cases h : a ≤ n
  · have hsplit : range n = range a ++ range' a (n - a) := by
      have happ := range'_append_1 (s := 0) (m := a) (n := n - a)
      rw [Nat.zero_add, Nat.add_sub_cancel' h] at happ
      rw [range_eq_range', range_eq_range', happ]
    have hlow : (range a).countP (fun i => decide (a ≤ i) && p i) = 0 := by
      rw [countP_eq_zero]
      intro i hi
      simp [Nat.not_le.mpr (mem_range.mp hi)]
    rw [hsplit, countP_append, hlow, Nat.zero_add]
    refine countP_congr fun i hi => ?_
    simp [(mem_range'_1.mp hi).1]
  · rw [Nat.sub_eq_zero_of_le (Nat.le_of_not_le h)]
    refine (countP_eq_zero.mpr fun i hi => ?_).symm
    have := mem_range.mp hi
    simp [show ¬ a ≤ i from by omega]

/-! ### One call -/

theorem countToken_eq (part : Part) (token : Token) : countToken part token = CountMap.inc part token := by
  rw [countToken, CountMap.inc]
  cases part.lookup token with
  | none => rfl
  | some n => rfl

theorem countNgram_eq (cache : Cache) (p : Ngram × Token) : countNgram cache p = CountTable.bump cache p := by
  rw [countNgram, CountTable.bump]
  cases cache.lookup p.1 with
  | none =>
    show _ = cache.insert p.1 (CountMap.inc ∅ p.2)
    rw [CountMap.inc, Finmap.lookup_empty]
    rfl
  | some part =>
    show cache.insert p.1 (countToken part p.2) = _
    rw [countToken_eq]
    rfl

def pairs (ngramMin ngramMax : ℤ) (inp : List Token) (nnew : ℤ) : List (Ngram × Token) :=
  (sizes ngramMin ngramMax).flatMap fun s => (positions inp nnew s).map (pairAt inp s)

theorem update_eq (cache : Cache) (ngramMin ngramMax : ℤ) (inp : List Token) (nnew : ℤ) :
    update cache ngramMin ngramMax inp nnew = (pairs ngramMin ngramMax inp nnew).foldl CountTable.bump cache := by
  have hbody : (fun (cache : Cache) (s : ℤ) =>
      (positions inp nnew s).foldl (fun cache i => countNgram cache (pairAt inp s i)) cache) =
      fun cache s => ((positions inp nnew s).map (pairAt inp s)).foldl CountTable.bump cache := by
    funext cache s
    rw [foldl_map]
    congr 1
    funext cache i
    exact countNgram_eq cache _
  rw [update, hbody, pairs, foldl_flatMap]

theorem count_pairs (ngramMin ngramMax : ℤ) (inp : List Token) (nnew : ℤ) (g : Ngram) (t : Token) :
    (pairs ngramMin ngramMax inp nnew).count (g, t) =
      pairCountFrom ((inp.length : ℤ) - nnew).toNat ngramMin ngramMax inp g t := by
  rw [pairs, count_flatMap, sum_sizes, pairCountFrom]
  refine Finset.sum_congr rfl fun s _ => ?_
  rw [Function.comp_apply, count, countP_map, positions, countP_range']
  refine countP_congr fun i _ => ?_
  simp only [Function.comp_apply, Bool.and_eq_true, decide_eq_true_eq, beq_iff_eq]
  constructor
  · rintro ⟨hge, hpair⟩
    exact ⟨by omega, by omega, hpair⟩
  · rintro ⟨hge, hs, hpair⟩
    exact ⟨by omega, hpair⟩

theorem update_tracks {cache : Cache} {f : Ngram → Token → ℕ} (h : cache.Tracks f) (ngramMin ngramMax : ℤ)
    (inp : List Token) (nnew : ℤ) :
    (update cache ngramMin ngramMax inp nnew).Tracks fun g t =>
      f g t + pairCountFrom ((inp.length : ℤ) - nnew).toNat ngramMin ngramMax inp g t := by
  rw [update_eq]
  exact (h.foldl_bump _).congr fun g t => by rw [count_pairs]

/-! ### Pieces -/

theorem pairAt_append {inp piece : List Token} {s : ℤ} {i : ℕ} (hi : i < inp.length) (hs : s ≤ i) :
    pairAt (inp ++ piece) s i = pairAt inp s i := by
  have htoken : (inp ++ piece).getD i llamaTokenNull = inp.getD i llamaTokenNull := by
    rw [getD_eq_getElem?_getD, getD_eq_getElem?_getD, getElem?_append_left hi]
  rw [pairAt, pairAt, htoken, Prod.mk.injEq]
  refine ⟨funext fun j => ?_, rfl⟩
  rw [ngram, ngram]
  split
  · next hj =>
    have hlt : ((i : ℤ) - s).toNat + j < inp.length := by omega
    rw [getD_eq_getElem?_getD, getD_eq_getElem?_getD, getElem?_drop, getElem?_drop,
      getElem?_append_left hlt]
  · rfl

/-- **Every window is counted once**: those of the old text and those that end in the new piece. -/
theorem pairCount_append (ngramMin ngramMax : ℤ) (inp piece : List Token) (g : Ngram) (t : Token) :
    pairCount ngramMin ngramMax (inp ++ piece) g t =
      pairCount ngramMin ngramMax inp g t + pairCountFrom inp.length ngramMin ngramMax (inp ++ piece) g t := by
  rw [pairCount, pairCount, pairCountFrom, pairCountFrom, pairCountFrom, ← Finset.sum_add_distrib]
  refine Finset.sum_congr rfl fun s _ => ?_
  have hsplit : range (inp ++ piece).length =
      range inp.length ++ range' inp.length ((inp ++ piece).length - inp.length) := by
    have happ := range'_append_1 (s := 0) (m := inp.length) (n := piece.length)
    rw [Nat.zero_add] at happ
    rw [length_append, Nat.add_sub_cancel_left, range_eq_range', range_eq_range', happ]
  rw [hsplit, countP_append]
  congr 1
  · refine countP_congr fun i hi => ?_
    have hi' := mem_range.mp hi
    simp only [decide_eq_true_eq]
    constructor
    · rintro ⟨-, hs, hpair⟩
      exact ⟨Nat.zero_le _, hs, pairAt_append hi' hs ▸ hpair⟩
    · rintro ⟨-, hs, hpair⟩
      exact ⟨Nat.zero_le _, hs, (pairAt_append hi' hs).trans hpair⟩
  · rw [countP_range', ← hsplit]
    refine countP_congr fun i _ => ?_
    simp

theorem pairCount_nil (ngramMin ngramMax : ℤ) (g : Ngram) (t : Token) : pairCount ngramMin ngramMax [] g t = 0 := by
  rw [pairCount, pairCountFrom]
  exact Finset.sum_eq_zero fun _ _ => rfl

theorem updates_tracks (ngramMin ngramMax : ℤ) (f : Ngram → Token → ℕ) (pieces : List (List Token)) {cache : Cache}
    {inp : List Token} (h : cache.Tracks fun g t => f g t + pairCount ngramMin ngramMax inp g t) :
    (updates ngramMin ngramMax cache inp pieces).Tracks fun g t =>
      f g t + pairCount ngramMin ngramMax (inp ++ pieces.flatten) g t := by
  induction pieces generalizing cache inp with
  | nil =>
    rw [flatten_nil, append_nil]
    exact h
  | cons piece pieces ih =>
    rw [updates, flatten_cons, ← append_assoc]
    refine ih ((update_tracks h ngramMin ngramMax (inp ++ piece) piece.length).congr fun g t => ?_)
    rw [pairCount_append, length_append, Nat.cast_add, Int.add_sub_cancel, Int.toNat_natCast, Nat.add_assoc]

/-- **Appending in pieces** gives the same cache as one call on the whole text. -/
theorem updates_eq (ngramMin ngramMax : ℤ) {cache : Cache} {f : Ngram → Token → ℕ} (h : cache.Tracks f)
    (pieces : List (List Token)) :
    updates ngramMin ngramMax cache [] pieces =
      update cache ngramMin ngramMax pieces.flatten pieces.flatten.length := by
  have hwhole := update_tracks h ngramMin ngramMax pieces.flatten pieces.flatten.length
  rw [Int.sub_self, Int.toNat_zero] at hwhole
  have hstart : cache.Tracks fun g t => f g t + pairCount ngramMin ngramMax [] g t :=
    h.congr fun g t => by rw [pairCount_nil, Nat.add_zero]
  have hpieces := updates_tracks ngramMin ngramMax f pieces hstart
  rw [nil_append] at hpieces
  exact hpieces.unique hwhole

theorem update_empty_tracks (ngramMin ngramMax : ℤ) (inp : List Token) :
    (update ∅ ngramMin ngramMax inp inp.length).Tracks (pairCount ngramMin ngramMax inp) := by
  have h := update_tracks CountTable.tracks_empty ngramMin ngramMax inp inp.length
  rw [Int.sub_self, Int.toNat_zero] at h
  exact h.congr fun g t => Nat.zero_add _

/-! ### Real n-grams -/

theorem getElem?_eq_of_notMem {w : List Token} (h : llamaTokenNull ∉ w) (i : ℕ) :
    w[i]? = if w.getD i llamaTokenNull = llamaTokenNull then none else some (w.getD i llamaTokenNull) := by
  rw [getD_eq_getElem?_getD]
  cases hi : w[i]? with
  | none => rfl
  | some a =>
    have ha : a ≠ llamaTokenNull := by
      rintro rfl
      exact h (mem_of_getElem? hi)
    rw [Option.getD_some, if_neg ha]

theorem ngram_apply (w : List Token) (i : Fin llamaNgramMax) : ngram w w.length i = w.getD i llamaTokenNull := by
  rw [ngram]
  split
  · rfl
  · next hge =>
    rw [getD_eq_getElem?_getD, getElem?_eq_none (by omega)]
    rfl

theorem ngram_inj {w w' : List Token} (hw : w.length ≤ llamaNgramMax) (hw' : w'.length ≤ llamaNgramMax)
    (hnull : llamaTokenNull ∉ w) (hnull' : llamaTokenNull ∉ w') (h : ngram w w.length = ngram w' w'.length) : w = w' := by
  refine ext_getElem? fun i => ?_
  by_cases hi : i < llamaNgramMax
  · have hval := congrFun h ⟨i, hi⟩
    rw [ngram_apply, ngram_apply] at hval
    rw [getElem?_eq_of_notMem hnull, getElem?_eq_of_notMem hnull', hval]
  · rw [getElem?_eq_none (by omega), getElem?_eq_none (by omega)]

theorem ngram_take (input : List Token) (n : ℕ) (h : n ≤ input.length) :
    ngram input n = ngram (input.take n) (input.take n).length := by
  rw [length_take_of_le h]
  funext i
  rw [ngram, ngram]
  split
  · next hi =>
    have hi' : (i : ℕ) < n := by exact_mod_cast hi
    rw [getD_eq_getElem?_getD, getD_eq_getElem?_getD, getElem?_take_of_lt hi']
  · rfl

/-- **Real n-grams**: when no token is null and no size exceeds the key, the number counts exactly the occurrences of
the n-gram with the token behind it. -/
theorem pairCount_eq_occurrences {ngramMin ngramMax : ℤ} {inp w : List Token} (hmin : 0 < ngramMin)
    (hmax : ngramMax ≤ llamaNgramMax) (hlow : ngramMin ≤ w.length) (hhigh : w.length ≤ ngramMax)
    (hinp : llamaTokenNull ∉ inp) (hw : llamaTokenNull ∉ w) (t : Token) :
    pairCount ngramMin ngramMax inp (ngram w w.length) t = occurrences inp w t := by
  have hlen : w.length ≤ llamaNgramMax := by exact_mod_cast hhigh.trans hmax
  -- a window has the key of `w` only if it is `w`
  have hkey : ∀ (n i : ℕ), n ≤ llamaNgramMax → n ≤ i → i < inp.length →
      (ngram (inp.drop (i - n)) n = ngram w w.length ↔ n = w.length ∧ (inp.drop (i - n)).take n = w) := by
    intro n i hn hni hi
    have hle : n ≤ (inp.drop (i - n)).length := by
      rw [length_drop]
      omega
    have htake : ((inp.drop (i - n)).take n).length = n := length_take_of_le hle
    rw [ngram_take _ n hle]
    constructor
    · intro h
      have heq := ngram_inj (htake.le.trans hn) hlen
        (fun hmem => hinp (mem_of_mem_drop (mem_of_mem_take hmem))) hw h
      exact ⟨htake.symm.trans (congrArg length heq), heq⟩
    · rintro ⟨-, heq⟩
      rw [heq]
  rw [pairCount, pairCountFrom, occurrences]
  rw [Finset.sum_eq_single (w.length : ℤ)]
  · refine countP_congr fun i hi => ?_
    have hi' := mem_range.mp hi
    simp only [decide_eq_true_eq, pairAt, Prod.mk.injEq]
    rw [show ((i : ℤ) - w.length).toNat = i - w.length from by omega]
    constructor
    · rintro ⟨-, hle, hgram, htoken⟩
      have hle' : w.length ≤ i := by exact_mod_cast hle
      exact ⟨hle', ((hkey w.length i hlen hle' hi').mp hgram).2, htoken⟩
    · rintro ⟨hle, hwin, htoken⟩
      exact ⟨Nat.zero_le _, by exact_mod_cast hle, (hkey w.length i hlen hle hi').mpr ⟨rfl, hwin⟩, htoken⟩
  · intro s hs hne
    rw [Finset.mem_Icc] at hs
    rw [countP_eq_zero]
    intro i hi
    have hi' := mem_range.mp hi
    simp only [decide_eq_true_eq, pairAt, Prod.mk.injEq, not_and]
    intro _ hle hgram
    obtain ⟨n, rfl⟩ := Int.eq_ofNat_of_zero_le (show 0 ≤ s by omega)
    rw [show ((i : ℤ) - n).toNat = i - n from by omega,
      hkey n i (by exact_mod_cast hs.2.trans hmax) (by exact_mod_cast hle) hi'] at hgram
    exact absurd (congrArg Nat.cast hgram.1) hne
  · intro hnot
    exact absurd (Finset.mem_Icc.mpr ⟨hlow, hhigh⟩) hnot

/-! ### `common_ngram_cache_merge` -/

/-- The order in which a loop over a cache meets the n-grams, and for each of them the tokens of its row. -/
structure Iteration (c : Cache) where
  ngrams : List (Ngram × Part)
  tokens : Ngram → List (Token × ℤ)
  lists : Entries c ngrams
  tokens_lists : ∀ g part, (g, part) ∈ ngrams → Entries part (tokens g)

/-- The body of the inner loop of `common_ngram_cache_merge`. -/
def mergeToken (merged : Part) (p : Token × ℤ) : Except String Part :=
  if p.2 ≤ 0 then .error "GGML_ASSERT(count > 0)"
  else
    match merged.lookup p.1 with
    | none => .ok (merged.insert p.1 p.2)
    | some n => .ok (merged.insert p.1 (n + p.2))

def mergeNgram (tokens : Ngram → List (Token × ℤ)) (target : Cache) (p : Ngram × Part) : Except String Cache :=
  match target.lookup p.1 with
  | none => .ok (target.insert p.1 p.2)
  | some part => do
    let merged ← (tokens p.1).foldlM mergeToken part
    .ok (target.insert p.1 merged)

/-- `common_ngram_cache_merge`. -/
def merge (target : Cache) {add : Cache} (it : Iteration add) : Except String Cache :=
  it.ngrams.foldlM (mergeNgram it.tokens) target

theorem ite_mem_cons {α : Type} [DecidableEq α] {a : α} {l : List α} (h : a ∉ l) (b : α) (n : ℕ) :
    (if b ∈ a :: l then n else 0) = (if b = a then n else 0) + if b ∈ l then n else 0 := by
  by_cases hb : b = a
  · subst hb
    simp [h]
  · simp [hb]

theorem mergeToken_tracks {merged : Part} {f : Token → ℕ} (h : merged.Tracks f) {t : Token} {k : ℕ} (hk : 0 < k) :
    ∃ merged', mergeToken merged (t, k) = .ok merged' ∧
      merged'.Tracks fun t' => f t' + if t' = t then k else 0 := by
  have hpos : ¬ ((k : ℤ) ≤ 0) := by omega
  have hstore : CountMap.Tracks (merged.insert t ((merged.lookup t).getD 0 + k))
      fun t' => f t' + if t' = t then k else 0 := by
    apply h.insert
    · rw [h.getD_lookup, if_pos rfl, Nat.cast_add]
    · rw [if_pos rfl]
      omega
    · intro t' ht'
      rw [if_neg ht', Nat.add_zero]
  rw [mergeToken, if_neg hpos]
  cases hlook : merged.lookup t with
  | none =>
    rw [hlook, Option.getD_none, zero_add] at hstore
    exact ⟨_, rfl, hstore⟩
  | some n =>
    rw [hlook, Option.getD_some] at hstore
    exact ⟨_, rfl, hstore⟩

theorem foldlM_mergeToken_tracks {h : Token → ℕ} (l : List (Token × ℤ)) (hnodup : (l.map Prod.fst).Nodup)
    (hl : ∀ p ∈ l, p.2 = h p.1 ∧ 0 < h p.1) {merged : Part} {f : Token → ℕ} (hf : merged.Tracks f) :
    ∃ merged', l.foldlM mergeToken merged = .ok merged' ∧
      merged'.Tracks fun t => f t + if t ∈ l.map Prod.fst then h t else 0 := by
  induction l generalizing merged f with
  | nil => exact ⟨merged, rfl, hf⟩
  | cons p l ih =>
    obtain ⟨t, n⟩ := p
    obtain ⟨hn, hpos⟩ := hl (t, n) mem_cons_self
    obtain rfl : n = h t := hn
    rw [map_cons, nodup_cons] at hnodup
    obtain ⟨merged₁, hstep, htracks₁⟩ := mergeToken_tracks hf (t := t) hpos
    obtain ⟨merged₂, hrest, htracks₂⟩ := ih hnodup.2 (fun p hp => hl p (mem_cons_of_mem _ hp)) htracks₁
    refine ⟨merged₂, ?_, htracks₂.congr fun t' => ?_⟩
    · rw [foldlM_cons, hstep]
      exact hrest
    · have hshare := ite_mem_cons hnodup.1 t' (h t')
      dsimp only at hshare
      by_cases ht : t' = t
      · subst ht
        rw [map_cons, hshare, if_pos rfl, Nat.add_assoc]
      · rw [map_cons, hshare, if_neg ht, if_neg ht, Nat.add_assoc]

theorem lists_counts {part : Part} {f : Token → ℕ} (h : part.Tracks f) {l : List (Token × ℤ)} (hl : Entries part l) :
    (∀ p ∈ l, p.2 = f p.1 ∧ 0 < f p.1) ∧ ∀ t, t ∈ l.map Prod.fst ↔ 0 < f t := by
  refine ⟨fun p hp => ?_, fun t => ?_⟩
  · have hval := (hl.mem p.1 p.2).mpr hp
    rw [h p.1] at hval
    split at hval
    · cases hval
    · next hne => exact ⟨(Option.some.inj hval).symm, Nat.pos_of_ne_zero hne⟩
  · rw [← h.lookup_isSome, Option.isSome_iff_exists, mem_map]
    constructor
    · rintro ⟨⟨t', n⟩, hmem, rfl⟩
      exact ⟨n, (hl.mem t' n).mpr hmem⟩
    · rintro ⟨n, hn⟩
      exact ⟨(t, n), (hl.mem t n).mp hn, rfl⟩

theorem mergeNgram_tracks {tokens : Ngram → List (Token × ℤ)} {target : Cache} {f h : Ngram → Token → ℕ}
    (hf : target.Tracks f) {g : Ngram} {part : Part} (hpart : part.Tracks (h g)) (hpos : ∃ t, 0 < h g t)
    (hl : Entries part (tokens g)) :
    ∃ target', mergeNgram tokens target (g, part) = .ok target' ∧
      target'.Tracks fun g' t => f g' t + if g' = g then h g' t else 0 := by
  have hput : ∀ part' : Part, (part'.Tracks fun t => f g t + h g t) →
      CountTable.Tracks (target.insert g part') fun g' t => f g' t + if g' = g then h g' t else 0 := by
    intro part' htracks
    apply hf.insert
    · exact htracks.congr fun t => by rw [if_pos rfl]
    · obtain ⟨t, ht⟩ := hpos
      refine ⟨t, ?_⟩
      rw [if_pos rfl]
      omega
    · intro g' hg' t
      rw [if_neg hg', Nat.add_zero]
  rw [mergeNgram]
  cases hlook : target.lookup g with
  | none => exact ⟨_, rfl, hput part (hpart.congr fun t => by rw [hf.no_row hlook t, Nat.zero_add])⟩
  | some row =>
    obtain ⟨hcounts, hmem⟩ := lists_counts hpart hl
    obtain ⟨merged, hfold, htracks⟩ := foldlM_mergeToken_tracks (tokens g) hl.nodup hcounts (hf.row hlook).1
    refine ⟨target.insert g merged, ?_, hput merged (htracks.congr fun t => ?_)⟩
    · simp only [hfold]
      rfl
    · congr 1
      by_cases ht : 0 < h g t
      · rw [if_pos ((hmem t).mpr ht)]
      · rw [if_neg fun hmem' => ht ((hmem t).mp hmem')]
        omega

/-- **Merging adds counts**, in whatever order the entries are met. -/
theorem merge_tracks {target add : Cache} {f h : Ngram → Token → ℕ} (hf : target.Tracks f) (hadd : add.Tracks h)
    (it : Iteration add) : ∃ target', merge target it = .ok target' ∧ target'.Tracks fun g t => f g t + h g t := by
  have hrun : ∀ (l : List (Ngram × Part)) (target : Cache) (f : Ngram → Token → ℕ), target.Tracks f →
      (l.map Prod.fst).Nodup → (∀ p ∈ l, p ∈ it.ngrams) →
      ∃ target', l.foldlM (mergeNgram it.tokens) target = .ok target' ∧
        target'.Tracks fun g t => f g t + if g ∈ l.map Prod.fst then h g t else 0 := by
    intro l
    induction l with
    | nil => exact fun target f hf _ _ => ⟨target, rfl, hf⟩
    | cons p l ih =>
      intro target f hf hnodup hmem
      obtain ⟨g, part⟩ := p
      rw [map_cons, nodup_cons] at hnodup
      have hp := hmem (g, part) mem_cons_self
      obtain ⟨hpart, hpos⟩ := hadd.row ((it.lists.mem g part).mpr hp)
      obtain ⟨target₁, hstep, htracks₁⟩ := mergeNgram_tracks hf hpart hpos (it.tokens_lists g part hp)
      obtain ⟨target₂, hrest, htracks₂⟩ := ih target₁ _ htracks₁ hnodup.2 fun p hp => hmem p (mem_cons_of_mem _ hp)
      refine ⟨target₂, ?_, htracks₂.congr fun g' t => ?_⟩
      · rw [foldlM_cons, hstep]
        exact hrest
      · rw [map_cons, ite_mem_cons hnodup.1, Nat.add_assoc]
  obtain ⟨target', hmerge, htracks⟩ := hrun it.ngrams target f hf it.lists.nodup fun _ hp => hp
  refine ⟨target', hmerge, htracks.congr fun g t => ?_⟩
  congr 1
  cases hg : add.lookup g with
  | none => rw [hadd.no_row hg t, ite_self]
  | some part => rw [if_pos (mem_map.mpr ⟨(g, part), (it.lists.mem g part).mp hg, rfl⟩)]

end NgramCache
