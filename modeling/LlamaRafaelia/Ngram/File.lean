import LlamaRafaelia.Lib.Parse
import LlamaRafaelia.Ngram.Cache
import Mathlib.Data.Fin.VecNotation

/-!
# The file of an n-gram cache

`common_ngram_cache_save` writes for each n-gram its four tokens, the number of tokens that follow it, and those with
their counts; every number is an `int32_t`.  `common_ngram_cache_load` reads until no whole n-gram is left.

* `load_save` - **loading undoes saving**, in whatever order the maps were written.
-/

namespace NgramCache

open List Int32

/-! ### Numbers in the file -/

/-- An `int32_t` as it lies in memory. -/
def int32Bytes (x : Int32) : List UInt8 := leBytes 4 x.toUInt32.toNat

/-- `file.read(..., sizeof(int32_t))`. -/
def readInt32 (bs : List UInt8) : Option (Int32 × List UInt8) :=
  if bs.length < 4 then none else some ((UInt32.ofNat (leNat (bs.take 4))).toInt32, bs.drop 4)

theorem readInt32_append (x : Int32) (rest : List UInt8) : readInt32 (int32Bytes x ++ rest) = some (x, rest) := by
  have hlen : (int32Bytes x).length = 4 := leBytes_length 4 _
  have hval : leNat (int32Bytes x) = x.toUInt32.toNat := leNat_leBytes_of_lt x.toUInt32.toNat_lt
  rw [readInt32, if_neg (by rw [length_append]; omega), take_left' hlen, drop_left' hlen, hval,
    UInt32.ofNat_toNat]
  rfl

def ngramBytes (g : Ngram) : List UInt8 := int32Bytes (g 0) ++ int32Bytes (g 1) ++ int32Bytes (g 2) ++ int32Bytes (g 3)

/-- `file.read(..., sizeof(common_ngram))`: without all of its bytes nothing is read. -/
def readNgram (bs : List UInt8) : Option (Ngram × List UInt8) :=
  if bs.length < 16 then none
  else do
    let (t0, bs) ← readInt32 bs
    let (t1, bs) ← readInt32 bs
    let (t2, bs) ← readInt32 bs
    let (t3, bs) ← readInt32 bs
    return (![t0, t1, t2, t3], bs)

theorem readNgram_append (g : Ngram) (rest : List UInt8) : readNgram (ngramBytes g ++ rest) = some (g, rest) := by
  have hlen : (ngramBytes g ++ rest).length = 16 + rest.length := by
    simp only [ngramBytes, int32Bytes, length_append, leBytes_length]
  have hg : ![g 0, g 1, g 2, g 3] = g := by
    funext i
    match i with
    | 0 => rfl
    | 1 => rfl
    | 2 => rfl
    | 3 => rfl
  rw [readNgram, if_neg (by omega), ngramBytes]
  simp only [append_assoc, readInt32_append, Option.bind_eq_bind, Option.bind_some, hg]
  rfl

/-! ### `common_ngram_cache_save` -/

def saveToken (p : Token × ℤ) : Except String (List UInt8) :=
  if p.2 ≤ 0 then .error "GGML_ASSERT(count > 0)" else .ok (int32Bytes p.1 ++ int32Bytes (ofInt p.2))

def saveNgram (tokens : Ngram → List (Token × ℤ)) (p : Ngram × Part) : Except String (List UInt8) :=
  let ntokens := ofInt (tokens p.1).length
  if tokens p.1 = [] then .error "GGML_ASSERT(!token_counts.empty())"
  else if ntokens ≤ 0 then .error "GGML_ASSERT(ntokens > 0)"
  else do
    let row ← (tokens p.1).mapM saveToken
    .ok (ngramBytes p.1 ++ int32Bytes ntokens ++ row.flatten)

/-- `common_ngram_cache_save`: the bytes of the file. -/
def save {c : Cache} (it : Iteration c) : Except String (List UInt8) := do
  let items ← it.ngrams.mapM (saveNgram it.tokens)
  .ok items.flatten

/-! ### `common_ngram_cache_load` -/

/-- The inner loop: `n` tokens with their counts. -/
def loadTokens : ℕ → List UInt8 → Part → Except String (Part × List UInt8)
  | 0, bs, part => .ok (part, bs)
  | n + 1, bs, part =>
    match readInt32 bs with
    | none => .error "GGML_ASSERT(hashmap_file.read(tokenc, sizeof(llama_token)))"
    | some (token, bs) =>
      match readInt32 bs with
      | none => .error "GGML_ASSERT(hashmap_file.read(countc, sizeof(int32_t)))"
      | some (count, bs) =>
        if count ≤ 0 then .error "GGML_ASSERT(count > 0)" else loadTokens n bs (emplace part (token, count.toInt))

def loadNgrams : ℕ → List UInt8 → Cache → Except String Cache
  | 0, _, _ => .error "out of fuel"
  | fuel + 1, bs, cache =>
    match readNgram bs with
    | none => .ok cache
    | some (g, bs) =>
      match readInt32 bs with
      | none => .error "GGML_ASSERT(hashmap_file.read(ntokensc, sizeof(int32_t)))"
      | some (ntokens, bs) =>
        if ntokens ≤ 0 then .error "GGML_ASSERT(ntokens > 0)"
        else do
          let (part, bs) ← loadTokens ntokens.toInt.toNat bs ∅
          loadNgrams fuel bs (emplace cache (g, part))

/-- `common_ngram_cache_load`.  Every turn of the loop takes a byte, so the fuel is never used up. -/
def load (file : List UInt8) : Except String Cache := loadNgrams (file.length + 1) file ∅

/-! ### Loading undoes saving -/

def rowBytes (l : List (Token × ℤ)) : List UInt8 := l.flatMap fun p => int32Bytes p.1 ++ int32Bytes (ofInt p.2)

/-- The numbers of a row fit an `int32_t`. -/
def RowFits (l : List (Token × ℤ)) : Prop := 0 < l.length ∧ l.length < 2 ^ 31 ∧ ∀ p ∈ l, 0 < p.2 ∧ p.2 < 2 ^ 31

theorem toInt_ofInt {n : ℤ} (hpos : 0 < n) (hlt : n < 2 ^ 31) : (ofInt n).toInt = n :=
  toInt_ofInt_of_le (by omega) hlt

theorem ofInt_pos {n : ℤ} (hpos : 0 < n) (hlt : n < 2 ^ 31) : ¬ ofInt n ≤ 0 := by
  rw [le_iff_toInt_le, toInt_ofInt hpos hlt]
  exact Int.not_le.mpr hpos

theorem saveNgram_eq {tokens : Ngram → List (Token × ℤ)} {p : Ngram × Part} (h : RowFits (tokens p.1)) :
    saveNgram tokens p =
      .ok (ngramBytes p.1 ++ int32Bytes (ofInt (tokens p.1).length) ++ rowBytes (tokens p.1)) := by
  obtain ⟨hpos, hlen, hcounts⟩ := h
  have hne : tokens p.1 ≠ [] := ne_nil_of_length_pos hpos
  have hrow : (tokens p.1).mapM saveToken =
      .ok ((tokens p.1).map fun q => int32Bytes q.1 ++ int32Bytes (ofInt q.2)) :=
    Except.mapM_eq_ok fun q hq => if_neg (Int.not_le.mpr (hcounts q hq).1)
  rw [saveNgram, if_neg hne, if_neg (ofInt_pos (by omega) (by omega)), hrow]
  rfl

theorem loadTokens_rowBytes (l : List (Token × ℤ)) (hl : ∀ p ∈ l, 0 < p.2 ∧ p.2 < 2 ^ 31) (rest : List UInt8)
    (part : Part) : loadTokens l.length (rowBytes l ++ rest) part = .ok (l.foldl emplace part, rest) := by
  induction l generalizing part with
  | nil => rfl
  | cons p l ih =>
    obtain ⟨hpos, hlt⟩ := hl p mem_cons_self
    rw [rowBytes, flatMap_cons, ← rowBytes, append_assoc, append_assoc, length_cons, loadTokens,
      readInt32_append]
    simp only [readInt32_append, if_neg (ofInt_pos hpos hlt), toInt_ofInt hpos hlt]
    exact ih (fun q hq => hl q (mem_cons_of_mem _ hq)) _

theorem loadNgrams_cons (fuel : ℕ) (g : Ngram) {l : List (Token × ℤ)} (h : RowFits l) (rest : List UInt8)
    (cache : Cache) :
    loadNgrams (fuel + 1) (ngramBytes g ++ int32Bytes (ofInt l.length) ++ rowBytes l ++ rest) cache =
      loadNgrams fuel rest (emplace cache (g, l.foldl emplace ∅)) := by
  obtain ⟨hpos, hlen, hcounts⟩ := h
  have hn : (ofInt (l.length : ℤ)).toInt.toNat = l.length := by
    rw [toInt_ofInt (by omega) (by omega), Int.toNat_natCast]
  rw [loadNgrams, append_assoc, append_assoc, readNgram_append]
  simp only [readInt32_append, if_neg (ofInt_pos (show (0 : ℤ) < l.length by omega) (by omega)), hn,
    loadTokens_rowBytes l hcounts]
  rfl

def itemBytes (tokens : Ngram → List (Token × ℤ)) (p : Ngram × Part) : List UInt8 :=
  ngramBytes p.1 ++ int32Bytes (ofInt (tokens p.1).length) ++ rowBytes (tokens p.1)

theorem itemBytes_length (tokens : Ngram → List (Token × ℤ)) (p : Ngram × Part) :
    16 ≤ (itemBytes tokens p).length := by
  simp only [itemBytes, ngramBytes, int32Bytes, length_append, leBytes_length]
  omega

theorem loadNgrams_flatMap {tokens : Ngram → List (Token × ℤ)} (l : List (Ngram × Part))
    (hl : ∀ p ∈ l, RowFits (tokens p.1) ∧ Entries p.2 (tokens p.1)) (fuel : ℕ) (hfuel : l.length < fuel) (cache : Cache) :
    loadNgrams fuel (l.flatMap (itemBytes tokens)) cache = .ok (l.foldl emplace cache) := by
  induction l generalizing fuel cache with
  | nil =>
    obtain ⟨fuel, rfl⟩ : ∃ n, fuel = n + 1 := ⟨fuel - 1, by omega⟩
    rfl
  | cons p l ih =>
    obtain ⟨fuel, rfl⟩ : ∃ n, fuel = n + 1 := ⟨fuel - 1, by omega⟩
    obtain ⟨hfits, hlists⟩ := hl p mem_cons_self
    rw [length_cons] at hfuel
    rw [flatMap_cons, itemBytes, loadNgrams_cons fuel p.1 hfits, hlists.foldl_emplace, foldl_cons]
    exact ih (fun q hq => hl q (mem_cons_of_mem _ hq)) fuel (by omega) _

theorem length_le_flatMap (tokens : Ngram → List (Token × ℤ)) (l : List (Ngram × Part)) :
    l.length ≤ (l.flatMap (itemBytes tokens)).length := by
  induction l with
  | nil => exact Nat.zero_le _
  | cons p l ih =>
    have := itemBytes_length tokens p
    rw [flatMap_cons, length_append, length_cons]
    omega

/-- Every number of the cache fits an `int32_t`: the counts, and how many tokens follow an n-gram. -/
structure Fits (c : Cache) (f : Ngram → Token → ℕ) : Prop where
  counts : ∀ g t, f g t < 2 ^ 31
  rows : ∀ g part, c.lookup g = some part → part.keys.card < 2 ^ 31

theorem Fits.rowFits {c : Cache} {f : Ngram → Token → ℕ} (h : Fits c f) (hc : c.Tracks f) (it : Iteration c)
    {p : Ngram × Part} (hp : p ∈ it.ngrams) : RowFits (it.tokens p.1) := by
  have hlook := (it.lists.mem p.1 p.2).mpr hp
  have hlists := it.tokens_lists p.1 p.2 hp
  obtain ⟨hrow, t, ht⟩ := hc.row hlook
  obtain ⟨hcounts, hmem⟩ := lists_counts hrow hlists
  have hkeys : ((it.tokens p.1).map Prod.fst).toFinset = Finmap.keys p.2 := by
    ext t'
    rw [mem_toFinset, hmem, Finmap.mem_keys, ← Finmap.lookup_isSome, hrow.lookup_isSome]
  refine ⟨?_, ?_, fun q hq => ?_⟩
  · obtain ⟨q, hq, -⟩ := mem_map.mp ((hmem t).mpr ht)
    exact length_pos_of_mem hq
  · have hcard := h.rows p.1 p.2 hlook
    rwa [← hkeys, toFinset_card_of_nodup hlists.nodup, length_map] at hcard
  · obtain ⟨hval, hpos⟩ := hcounts q hq
    have hlt := h.counts p.1 q.1
    omega

/-- **Loading undoes saving**, in whatever order the maps were written. -/
theorem load_save {c : Cache} {f : Ngram → Token → ℕ} (hc : c.Tracks f) (hfits : Fits c f) (it : Iteration c) :
    ∃ file, save it = .ok file ∧ load file = .ok c := by
  have hitem : it.ngrams.mapM (saveNgram it.tokens) = .ok (it.ngrams.map (itemBytes it.tokens)) :=
    Except.mapM_eq_ok fun p hp => saveNgram_eq (hfits.rowFits hc it hp)
  refine ⟨it.ngrams.flatMap (itemBytes it.tokens), ?_, ?_⟩
  · rw [save, hitem]
    rfl
  · rw [load, loadNgrams_flatMap it.ngrams (fun p hp => ⟨hfits.rowFits hc it hp, it.tokens_lists p.1 p.2 hp⟩) _
      (Nat.lt_succ_of_le (length_le_flatMap _ _)), it.lists.foldl_emplace]

/-! ### The cache as a whole -/

/-- **The cache counts what it should, however it was brought together.**  Appending the text in pieces gives the same
cache as one call; from an empty cache it holds the counts of all pairs, which for real n-grams are their occurrences;
merging adds the counts of two caches; and a cache whose numbers fit the file is loaded as it was saved. -/
theorem cache_exact (ngramMin ngramMax : ℤ) :
    (∀ (cache : Cache) (f : Ngram → Token → ℕ), cache.Tracks f → ∀ pieces : List (List Token),
      updates ngramMin ngramMax cache [] pieces =
        update cache ngramMin ngramMax pieces.flatten pieces.flatten.length) ∧
    (∀ pieces : List (List Token),
      (updates ngramMin ngramMax ∅ [] pieces).Tracks (pairCount ngramMin ngramMax pieces.flatten)) ∧
    (0 < ngramMin → ngramMax ≤ llamaNgramMax → ∀ inp w : List Token, ngramMin ≤ w.length → w.length ≤ ngramMax →
      llamaTokenNull ∉ inp → llamaTokenNull ∉ w →
        ∀ t, pairCount ngramMin ngramMax inp (ngram w w.length) t = occurrences inp w t) ∧
    (∀ (target add : Cache) (f h : Ngram → Token → ℕ), target.Tracks f → add.Tracks h → ∀ it : Iteration add,
      ∃ merged, merge target it = .ok merged ∧ merged.Tracks fun g t => f g t + h g t) ∧
    (∀ (c : Cache) (f : Ngram → Token → ℕ), c.Tracks f → Fits c f → ∀ it : Iteration c,
      ∃ file, save it = .ok file ∧ load file = .ok c) := by
  refine ⟨fun cache f h pieces => updates_eq ngramMin ngramMax h pieces, fun pieces => ?_, ?_, ?_, ?_⟩
  · rw [updates_eq ngramMin ngramMax CountTable.tracks_empty pieces]
    exact update_empty_tracks ngramMin ngramMax pieces.flatten
  · intro hmin hmax inp w hlow hhigh hinp hw t
    exact pairCount_eq_occurrences hmin hmax hlow hhigh hinp hw t
  · exact fun target add f h hf hadd it => merge_tracks hf hadd it
  · exact fun c f hc hfits it => load_save hc hfits it

/-- A text in two pieces, the first shorter than the larger n-gram. -/
theorem cache_exact_pieces :
    updates 1 2 ∅ [] [[1], [2, 1, 2]] = update ∅ 1 2 [1, 2, 1, 2] 4 ∧
      pairCount 1 2 [1, 2, 1, 2] (ngram [1] 1) 2 = 2 := by
  refine ⟨(cache_exact 1 2).1 ∅ _ CountTable.tracks_empty [[1], [2, 1, 2]], ?_⟩
  have hcount := (cache_exact 1 2).2.2.1 (by decide) (by decide) [1, 2, 1, 2] [1] (by decide) (by decide) (by decide)
    (by decide) 2
  exact hcount.trans (by decide)

end NgramCache
