import LlamaRafaelia.Ngram.Cache

/-!
# Drafting from the n-gram caches

`common_ngram_cache_draft` appends tokens that one of three caches has seen behind the end of the text.  The text is the
input and what was drafted so far; the first token of the draft is the last one of the input and is not looked at.

* `draft_iff` - **the reads stay inside, and all that is drafted are successors, exactly when the input has at least as many
  tokens as the largest n-gram** or nothing is drafted at all.
-/

namespace NgramCache

open List

/-- `LLAMA_NGRAM_STATIC`. -/
abbrev llamaNgramStatic : ℕ := 2

/-- A row of a cache, in the order in which the hash map is gone through. -/
abbrev Row := List (Token × ℤ)

abbrev Rows := Ngram → Option Row

def nullNgram : Ngram := fun _ => llamaTokenNull

/-- A position as a `size_t`. -/
def toSizeT (j : ℤ) : ℕ := (j % 2 ^ 64).toNat

/-- `get_token`. -/
def getToken (inp draft : List Token) (i : ℕ) : Option Token :=
  if i < inp.length then inp[i]? else draft[(1 + i - inp.length) % 2 ^ 64]?

/-- `draft_min_sample_size_lax`. -/
def draftMinSampleSizeLax : List ℤ := [2, 2, 1, 1]

/-- `draft_min_percent_lax`. -/
def draftMinPercentLax : List ℤ := [66, 50, 50, 50]

/-- `draft_min_sample_size_strict`. -/
def draftMinSampleSizeStrict : List ℤ := [4, 3, 2, 2]

/-- `draft_min_percent_strict`. -/
def draftMinPercentStrict : List ℤ := [75, 66, 66, 66]

/-! ### One cache -/

/-- The most frequent token of a row so far, its count, and the sum of the counts. -/
structure StaticMax where
  maxToken : Token
  maxCount : ℤ
  sumCount : ℤ

def StaticMax.next (m : StaticMax) (e : Token × ℤ) : StaticMax :=
  if m.maxCount < e.2 then ⟨e.1, e.2, m.sumCount + e.2⟩ else ⟨m.maxToken, m.maxCount, m.sumCount + e.2⟩

/-- `try_draft` with the static cache. -/
def tryDraftStatic (ncStatic : Rows) (ngramStatic : Ngram) : Token :=
  match ncStatic ngramStatic with
  | none => llamaTokenNull
  | some partStatic =>
    let m := partStatic.foldl StaticMax.next ⟨llamaTokenNull, 0, 0⟩
    if m.sumCount < draftMinSampleSizeLax.getD (llamaNgramStatic - 1) 0 then llamaTokenNull
    else if 100 * m.maxCount < draftMinPercentLax.getD (llamaNgramStatic - 1) 0 * m.sumCount then llamaTokenNull
    else m.maxToken

/-- The best token of a row so far, with its count, its weight in the static cache, and the sum of the counts. -/
structure PrimaryMax where
  maxToken : Token
  maxCountPrimary : ℤ
  maxCountStatic : ℤ
  sumCountPrimary : ℤ

def countStatic (partStatic : Row) (token : Token) : ℤ :=
  match partStatic.lookup token with
  | some count => 100 * count
  | none => 1

def PrimaryMax.next (partStatic : Row) (m : PrimaryMax) (e : Token × ℤ) : PrimaryMax :=
  if m.maxCountPrimary * m.maxCountStatic < e.2 * countStatic partStatic e.1 then
    ⟨e.1, e.2, countStatic partStatic e.1, m.sumCountPrimary + e.2⟩
  else { m with sumCountPrimary := m.sumCountPrimary + e.2 }

/-- The loop of `try_draft` with the context or the dynamic cache, with `i` n-grams left. -/
def tryDraftPrimary (ncPrimary : Rows) (ngramsPrimary : List Ngram) (partStatic : Row) (minSampleSize minPercent : List ℤ) :
    ℕ → Token
  | 0 => llamaTokenNull
  | i + 1 =>
    match ncPrimary (ngramsPrimary.getD i nullNgram) with
    | none => tryDraftPrimary ncPrimary ngramsPrimary partStatic minSampleSize minPercent i
    | some partPrimary =>
      let m := partPrimary.foldl (PrimaryMax.next partStatic) ⟨llamaTokenNull, 0, 0, 0⟩
      if m.sumCountPrimary < minSampleSize.getD i 0 then
        tryDraftPrimary ncPrimary ngramsPrimary partStatic minSampleSize minPercent i
      else if 100 * m.maxCountPrimary < minPercent.getD i 0 * m.sumCountPrimary then
        tryDraftPrimary ncPrimary ngramsPrimary partStatic minSampleSize minPercent i
      else if m.maxToken = llamaTokenNull then
        tryDraftPrimary ncPrimary ngramsPrimary partStatic minSampleSize minPercent i
      else m.maxToken

/-! ### The draft -/

/-- `ngramSize` tokens of the text from `start` on. -/
def readWindow (inp draft : List Token) (start : ℤ) (ngramSize : ℕ) : Option Ngram := do
  let tokens ← (List.range ngramSize).mapM fun (k : ℕ) => getToken inp draft (toSizeT (start + k))
  return fun i => tokens.getD i llamaTokenNull

/-- The caches. -/
structure Caches where
  context : Rows
  dynamic : Rows
  static : Rows

def draftToken (inp draft : List Token) (ngramMin ngramMax : ℕ) (nc : Caches) : Option Token := do
  let ngramStatic ← readWindow inp draft ((inp.length : ℤ) - llamaNgramStatic + draft.length - 1) llamaNgramStatic
  let partStatic := (nc.static ngramStatic).getD []
  let ngramsCd ← (List.range' ngramMin (ngramMax + 1 - ngramMin)).mapM fun (ngramSizeCd : ℕ) =>
    readWindow inp draft ((inp.length : ℤ) - ngramSizeCd + draft.length - 1) ngramSizeCd
  let fromContext := tryDraftPrimary nc.context ngramsCd partStatic draftMinSampleSizeLax draftMinPercentLax ngramsCd.length
  if fromContext ≠ llamaTokenNull then return fromContext
  let fromDynamic :=
    tryDraftPrimary nc.dynamic ngramsCd partStatic draftMinSampleSizeStrict draftMinPercentStrict ngramsCd.length
  if fromDynamic ≠ llamaTokenNull then return fromDynamic
  return tryDraftStatic nc.static ngramStatic

def draftLoop (inp : List Token) (nDraft : ℤ) (ngramMin ngramMax : ℕ) (nc : Caches) (draft : List Token) :
    Option (List Token) :=
  if (draft.length : ℤ) - 1 < nDraft then
    match draftToken inp draft ngramMin ngramMax nc with
    | none => none
    | some draftedToken =>
      if draftedToken = llamaTokenNull then some draft
      else draftLoop inp nDraft ngramMin ngramMax nc (draft ++ [draftedToken])
  else some draft
termination_by (nDraft + 1 - draft.length).toNat
decreasing_by
  rw [length_append, length_singleton]
  omega

/-- `common_ngram_cache_draft`. -/
def draft (inp draft : List Token) (nDraft : ℤ) (ngramMin ngramMax : ℕ) (nc : Caches) : Option (List Token) :=
  if draft.length ≠ 1 then none
  else if inp.length < llamaNgramStatic then some draft
  else draftLoop inp nDraft ngramMin ngramMax nc draft

/-! ### What one cache gives -/

theorem staticMax_mem (row : Row) (m : StaticMax) :
    (row.foldl StaticMax.next m).maxToken = m.maxToken ∨ (row.foldl StaticMax.next m).maxToken ∈ row.map Prod.fst := by
  induction row generalizing m with
  | nil => exact .inl rfl
  | cons e row ih =>
    rw [foldl_cons, map_cons, mem_cons]
    rcases ih (m.next e) with hsame | hmem
    · rw [hsame, StaticMax.next]
      split
      · exact .inr (.inl rfl)
      · exact .inl rfl
    · exact .inr (.inr hmem)

theorem primaryMax_mem (partStatic row : Row) (m : PrimaryMax) :
    (row.foldl (PrimaryMax.next partStatic) m).maxToken = m.maxToken ∨
      (row.foldl (PrimaryMax.next partStatic) m).maxToken ∈ row.map Prod.fst := by
  induction row generalizing m with
  | nil => exact .inl rfl
  | cons e row ih =>
    rw [foldl_cons, map_cons, mem_cons]
    rcases ih (m.next partStatic e) with hsame | hmem
    · rw [hsame, PrimaryMax.next]
      split
      · exact .inr (.inl rfl)
      · exact .inl rfl
    · exact .inr (.inr hmem)

def Follows (nc : Rows) (g : Ngram) (token : Token) : Prop := ∃ row, nc g = some row ∧ token ∈ row.map Prod.fst

theorem tryDraftStatic_follows {nc : Rows} {g : Ngram} (h : tryDraftStatic nc g ≠ llamaTokenNull) :
    Follows nc g (tryDraftStatic nc g) := by
  rw [tryDraftStatic] at h ⊢
  cases hrow : nc g with
  | none =>
    rw [hrow] at h
    exact absurd rfl h
  | some row =>
    rw [hrow] at h
    dsimp only at h ⊢
    split
    · rename_i hfew
      rw [if_pos hfew] at h
      exact absurd rfl h
    · rename_i hmany
      rw [if_neg hmany] at h
      split
      · rename_i hrare
        rw [if_pos hrare] at h
        exact absurd rfl h
      · rename_i hoften
        rw [if_neg hoften] at h
        rcases staticMax_mem row ⟨llamaTokenNull, 0, 0⟩ with hnull | hmem
        · exact absurd hnull h
        · exact ⟨row, hrow, hmem⟩

theorem tryDraftPrimary_follows {nc : Rows} {ngrams : List Ngram} {partStatic : Row} {minSampleSize minPercent : List ℤ}
    {n : ℕ} (h : tryDraftPrimary nc ngrams partStatic minSampleSize minPercent n ≠ llamaTokenNull) :
    ∃ i < n, Follows nc (ngrams.getD i nullNgram) (tryDraftPrimary nc ngrams partStatic minSampleSize minPercent n) := by
  induction n with
  | zero => exact absurd rfl h
  | succ n ih =>
    -- either the loop goes on, or the best token of the row is taken
    have hcases : tryDraftPrimary nc ngrams partStatic minSampleSize minPercent (n + 1) =
          tryDraftPrimary nc ngrams partStatic minSampleSize minPercent n ∨
        Follows nc (ngrams.getD n nullNgram) (tryDraftPrimary nc ngrams partStatic minSampleSize minPercent (n + 1)) := by
      rw [tryDraftPrimary]
      cases hrow : nc (ngrams.getD n nullNgram) with
      | none => exact .inl rfl
      | some row =>
        dsimp only
        split
        · exact .inl rfl
        · split
          · exact .inl rfl
          · split
            · exact .inl rfl
            · rename_i hnull
              rcases primaryMax_mem partStatic row ⟨llamaTokenNull, 0, 0, 0⟩ with hsame | hmem
              · exact absurd hsame hnull
              · exact .inr ⟨row, hrow, hmem⟩
    rcases hcases with hsame | hfollows
    · rw [hsame] at h ⊢
      obtain ⟨i, hi, hfollows⟩ := ih h
      exact ⟨i, hi.trans (Nat.lt_succ_self n), hfollows⟩
    · exact ⟨n, Nat.lt_succ_self n, hfollows⟩

/-- The last `k` tokens of a text. -/
def lastNgram (text : List Token) (k : ℕ) : Ngram := ngram (text.drop (text.length - k)) k

/-- **A token that one of the caches has behind the end of the text.** -/
def Successor (nc : Caches) (ngramMin ngramMax : ℕ) (text : List Token) (token : Token) : Prop :=
  (∃ k, ngramMin ≤ k ∧ k ≤ ngramMax ∧
    (Follows nc.context (lastNgram text k) token ∨ Follows nc.dynamic (lastNgram text k) token)) ∨
    Follows nc.static (lastNgram text llamaNgramStatic) token

/-! ### The reads -/

theorem mapM_of_some {β γ : Type} {f : β → Option γ} {g : β → γ} {l : List β} (h : ∀ x ∈ l, f x = some (g x)) :
    l.mapM f = some (l.map g) := by
  induction l with
  | nil => rfl
  | cons x l ih =>
    rw [mapM_cons, h x (mem_cons_self ..), ih fun y hy => h y (mem_cons_of_mem _ hy)]
    rfl

theorem mapM_of_none {β γ : Type} {f : β → Option γ} {l : List β} {x : β} (hx : x ∈ l) (h : f x = none) :
    l.mapM f = none := by
  induction l with
  | nil => cases hx
  | cons y l ih =>
    rw [mapM_cons]
    rcases mem_cons.mp hx with rfl | hx
    · rw [h]
      rfl
    · rw [ih hx]
      cases f y <;> rfl

theorem toSizeT_natCast {n : ℕ} (h : n < 2 ^ 64) : toSizeT n = n := by
  rw [toSizeT]
  omega

def draftText (inp draft : List Token) : List Token := inp ++ draft.tail

section Reads

variable {inp draft : List Token}

theorem draftText_length (inp : List Token) (hdraft : draft ≠ []) :
    (draftText inp draft).length + 1 = inp.length + draft.length := by
  have hpos := length_pos_iff.mpr hdraft
  rw [draftText, length_append, length_tail]
  omega

theorem getToken_eq (hfit : inp.length + draft.length < 2 ^ 63) {p : ℕ} (hp : p < (draftText inp draft).length) :
    getToken inp draft p = (draftText inp draft)[p]? := by
  rw [getToken, draftText]
  split
  · rename_i hlt
    rw [getElem?_append_left hlt]
  · rename_i hge
    rw [draftText, length_append, length_tail] at hp
    have hindex : (1 + p - inp.length) % 2 ^ 64 = p - inp.length + 1 := by omega
    rw [hindex, getElem?_append_right (Nat.not_lt.mp hge), getElem?_tail]

theorem readWindow_eq (hfit : inp.length + draft.length < 2 ^ 63) (hdraft : draft ≠ []) {k : ℕ}
    (hk : k ≤ (draftText inp draft).length) :
    readWindow inp draft ((inp.length : ℤ) - k + draft.length - 1) k = some (lastNgram (draftText inp draft) k) := by
  have hlength := draftText_length inp hdraft
  set text := draftText inp draft with htext
  have hread : ∀ j ∈ List.range k, getToken inp draft (toSizeT ((inp.length : ℤ) - k + draft.length - 1 + (j : ℕ))) =
      some (text.getD (text.length - k + j) llamaTokenNull) := by
    intro j hj
    rw [List.mem_range] at hj
    have hposition : (inp.length : ℤ) - k + draft.length - 1 + (j : ℕ) = ((text.length - k + j : ℕ) : ℤ) := by omega
    have hinside : text.length - k + j < text.length := by omega
    rw [hposition, toSizeT_natCast (by omega), getToken_eq hfit hinside, getD_eq_getElem?_getD,
      getElem?_eq_getElem hinside, Option.getD_some]
  rw [readWindow, mapM_of_some hread]
  show some _ = some _
  congr 1
  funext i
  rw [lastNgram, ngram]
  split
  · rename_i hi
    have hi' : (i : ℕ) < k := by exact_mod_cast hi
    rw [getD_eq_getElem?_getD, getElem?_map, getElem?_range hi', Option.map_some, Option.getD_some,
      getD_eq_getElem?_getD, getD_eq_getElem?_getD, getElem?_drop]
  · rename_i hi
    rw [getD_eq_getElem?_getD, getElem?_eq_none (by rw [length_map, length_range]; omega),
      Option.getD_none]

/-- **A window that begins below zero** is read at the far end of the address space. -/
theorem readWindow_below (tok : Token) (hfit : inp.length < 2 ^ 31) (hinp : 0 < inp.length) {k : ℕ} (hk : k < 2 ^ 31)
    (hlong : inp.length < k) : readWindow inp [tok] ((inp.length : ℤ) - k + [tok].length - 1) k = none := by
  rw [readWindow, mapM_of_none (x := 0) (List.mem_range.mpr (by omega))]
  · rfl
  · have hposition : toSizeT ((inp.length : ℤ) - k + [tok].length - 1 + (0 : ℕ)) = 2 ^ 64 + inp.length - k := by
      rw [toSizeT, length_singleton]
      omega
    rw [hposition, getToken, if_neg (by omega), getElem?_eq_none]
    rw [length_singleton]
    omega

theorem draftToken_eq (hfit : inp.length + draft.length < 2 ^ 63) (hdraft : draft ≠ []) (hinp : llamaNgramStatic ≤ inp.length)
    (ngramMin : ℕ) {ngramMax : ℕ} (hmax : ngramMax ≤ inp.length) (nc : Caches) :
    ∃ token, draftToken inp draft ngramMin ngramMax nc = some token ∧
      (token ≠ llamaTokenNull → Successor nc ngramMin ngramMax (draftText inp draft) token) := by
  have hpos := length_pos_iff.mpr hdraft
  have hlength := draftText_length inp hdraft
  set text := draftText inp draft with htext
  set sizesCd := List.range' ngramMin (ngramMax + 1 - ngramMin) with hsizes
  have hstatic := readWindow_eq hfit hdraft (k := llamaNgramStatic) (by rw [← htext]; omega)
  have hcd : sizesCd.mapM (fun (ngramSizeCd : ℕ) =>
      readWindow inp draft ((inp.length : ℤ) - ngramSizeCd + draft.length - 1) ngramSizeCd) =
        some (sizesCd.map (lastNgram text)) := by
    refine mapM_of_some fun k hk => readWindow_eq hfit hdraft ?_
    rw [hsizes, mem_range'_1] at hk
    rw [← htext]
    omega
  -- a token of the context or of the dynamic cache follows one of the n-grams
  have hprimary : ∀ {rows : Rows} {partStatic : Row} {minSampleSize minPercent : List ℤ},
      tryDraftPrimary rows (sizesCd.map (lastNgram text)) partStatic minSampleSize minPercent
        (sizesCd.map (lastNgram text)).length ≠ llamaTokenNull →
      ∃ k, ngramMin ≤ k ∧ k ≤ ngramMax ∧ Follows rows (lastNgram text k)
        (tryDraftPrimary rows (sizesCd.map (lastNgram text)) partStatic minSampleSize minPercent
          (sizesCd.map (lastNgram text)).length) := by
    intro rows partStatic minSampleSize minPercent hne
    obtain ⟨i, hi, hfollows⟩ := tryDraftPrimary_follows hne
    rw [length_map, hsizes, length_range'] at hi
    have hsize : (sizesCd.map (lastNgram text)).getD i nullNgram = lastNgram text (ngramMin + i) := by
      rw [getD_eq_getElem?_getD, getElem?_map, hsizes, getElem?_range' hi, Option.map_some,
        Option.getD_some, Nat.one_mul]
    rw [hsize] at hfollows
    exact ⟨ngramMin + i, Nat.le_add_right .., by omega, hfollows⟩
  rw [draftToken, hstatic, ← hsizes]
  simp only [Option.bind_eq_bind, Option.bind_some, hcd]
  split
  · rename_i hcontext
    refine ⟨_, rfl, fun _ => ?_⟩
    obtain ⟨k, hmin, hk, hfollows⟩ := hprimary hcontext
    exact .inl ⟨k, hmin, hk, .inl hfollows⟩
  · split
    · rename_i hdynamic
      refine ⟨_, rfl, fun _ => ?_⟩
      obtain ⟨k, hmin, hk, hfollows⟩ := hprimary hdynamic
      exact .inl ⟨k, hmin, hk, .inr hfollows⟩
    · exact ⟨_, rfl, fun hne => .inr (tryDraftStatic_follows hne)⟩

end Reads

/-! ### The draft -/

/-- **The loop**: it appends successors, and no more than are asked for. -/
theorem draftLoop_spec {inp : List Token} (nDraft : ℤ) (ngramMin : ℕ) {ngramMax : ℕ} (nc : Caches)
    (hinp : llamaNgramStatic ≤ inp.length) (hmax : ngramMax ≤ inp.length) (hfit : (inp.length : ℤ) + nDraft < 2 ^ 31)
    (draft : List Token) (hdraft : draft ≠ []) (hlength : (draft.length : ℤ) - 1 ≤ max nDraft 0) :
    ∃ new, draftLoop inp nDraft ngramMin ngramMax nc draft = some (draft ++ new) ∧
      (draft.length : ℤ) - 1 + new.length ≤ max nDraft 0 ∧
      ∀ d token, new[d]? = some token → Successor nc ngramMin ngramMax (draftText inp draft ++ new.take d) token := by
  induction hn : (nDraft + 1 - draft.length).toNat using Nat.strong_induction_on generalizing draft with
  | _ n ih =>
    rw [draftLoop]
    have hstop : ∃ new, some draft = some (draft ++ new) ∧ (draft.length : ℤ) - 1 + new.length ≤ max nDraft 0 ∧
        ∀ d token, new[d]? = some token → Successor nc ngramMin ngramMax (draftText inp draft ++ new.take d) token :=
      ⟨[], by rw [append_nil], by simpa using hlength, fun d token h => by simp at h⟩
    split
    · rename_i hmore
      obtain ⟨token, htoken, hsuccessor⟩ := draftToken_eq (by omega) hdraft hinp ngramMin hmax nc
      rw [htoken]
      dsimp only
      split
      · exact hstop
      · rename_i hne
        have hgrown : (draft ++ [token]).length = draft.length + 1 := by simp
        obtain ⟨new, hnew, hcount, hall⟩ := ih _ (by omega) (draft ++ [token]) (by simp) (by omega) rfl
        have htext : draftText inp (draft ++ [token]) = draftText inp draft ++ [token] := by
          rw [draftText, draftText, tail_append_of_ne_nil hdraft, append_assoc]
        refine ⟨token :: new, ?_, ?_, ?_⟩
        · rw [hnew, append_assoc, singleton_append]
        · rw [length_cons]
          omega
        · intro d token' hd
          cases d with
          | zero =>
            obtain rfl := Option.some.inj hd
            rw [take_zero, append_nil]
            exact hsuccessor hne
          | succ d =>
            have hrest := hall d token' hd
            rwa [htext, append_assoc, singleton_append] at hrest
    · exact hstop

/-- **When drafting is right**: the reads stay inside the two vectors, at most `n_draft` tokens are appended, and each of
them is a successor in one of the caches. -/
theorem draft_iff (inp : List Token) (first : Token) (nDraft : ℤ) (ngramMin ngramMax : ℕ) (nc : Caches)
    (hinp : llamaNgramStatic ≤ inp.length) (hminmax : ngramMin ≤ ngramMax)
    (hmax : ngramMax ≤ llamaNgramMax) (hfit : (inp.length : ℤ) + max nDraft 0 < 2 ^ 31) :
    (∃ new, draft inp [first] nDraft ngramMin ngramMax nc = some ([first] ++ new) ∧ (new.length : ℤ) ≤ max nDraft 0 ∧
      ∀ d token, new[d]? = some token → Successor nc ngramMin ngramMax (inp ++ new.take d) token) ↔
      nDraft ≤ 0 ∨ ngramMax ≤ inp.length := by
  have hstart : draft inp [first] nDraft ngramMin ngramMax nc = draftLoop inp nDraft ngramMin ngramMax nc [first] := by
    rw [draft, if_neg (by simp), if_neg (Nat.not_lt.mpr hinp)]
  have hlimit : llamaNgramMax = 4 := rfl
  have htwo : llamaNgramStatic = 2 := rfl
  rw [hstart]
  constructor
  · rintro ⟨new, hnew, -⟩
    by_contra hbad
    rw [not_or, Int.not_le, Nat.not_le] at hbad
    -- the largest n-gram of the first round begins below zero
    have hbelow := readWindow_below first (by omega) (by omega) (by omega) hbad.2
    have hcd : (List.range' ngramMin (ngramMax + 1 - ngramMin)).mapM (fun (ngramSizeCd : ℕ) =>
        readWindow inp [first] ((inp.length : ℤ) - ngramSizeCd + [first].length - 1) ngramSizeCd) = none :=
      mapM_of_none (x := ngramMax) (mem_range'_1.mpr (by omega)) hbelow
    have hnone : draftToken inp [first] ngramMin ngramMax nc = none := by
      rw [draftToken]
      cases readWindow inp [first] ((inp.length : ℤ) - llamaNgramStatic + [first].length - 1) llamaNgramStatic with
      | none => rfl
      | some g =>
        simp only [Option.bind_eq_bind, Option.bind_some, hcd, Option.bind_none]
    rw [draftLoop, if_pos (by simpa using hbad.1), hnone] at hnew
    cases hnew
  · rintro (hnone | hlong)
    · refine ⟨[], ?_, by simp, fun d token h => by simp at h⟩
      rw [draftLoop, if_neg (by simpa using hnone), append_nil]
    · obtain ⟨new, hnew, hcount, hall⟩ := draftLoop_spec nDraft ngramMin nc hinp hlong (by omega) [first]
        (by simp) (by simp)
      refine ⟨new, hnew, by simpa using hcount, ?_⟩
      intro d token hd
      have hsuccessor := hall d token hd
      rwa [draftText, tail_cons, append_nil] at hsuccessor

def noCaches : Caches := ⟨fun _ => none, fun _ => none, fun _ => none⟩

/-- A context cache in which 5 follows 3 and 4. -/
def oneRow : Caches := { noCaches with context := fun g => if g = ngram [3, 4] 2 then some [(6, 1), (5, 2)] else none }

/-- Four tokens are enough for the n-grams of all sizes. -/
theorem draft_row : draftToken [1, 2, 3, 4] [4] 1 4 oneRow = some 5 ∧
    ∃ new, draft [1, 2, 3, 4] [4] 2 1 4 oneRow = some ([4] ++ new) ∧ (new.length : ℤ) ≤ max 2 0 ∧
      ∀ d token, new[d]? = some token → Successor oneRow 1 4 ([1, 2, 3, 4] ++ new.take d) token :=
  ⟨by decide, (draft_iff [1, 2, 3, 4] 4 2 1 4 oneRow (by decide) (by decide) (by decide) (by decide)).mpr (.inr (by decide))⟩

/-- **Two tokens**: the n-grams of three and four tokens begin at the positions -1 and -2, which are read at the end of the
address space. -/
theorem draft_reads_outside : draft [1, 2] [2] 1 1 4 noCaches = none ∧ toSizeT (-1) = 2 ^ 64 - 1 := by
  refine ⟨?_, by decide⟩
  have hnone : draftToken [1, 2] [2] 1 4 noCaches = none := by decide
  rw [draft, if_neg (by decide), if_neg (by decide), draftLoop, if_pos (by decide), hnone]

end NgramCache
