import Mathlib.Data.Finmap
import Mathlib.Data.Finset.Max
import Mathlib.Order.WithBot

/-!
# The tokens of a slot, with their media

`server_tokens` is a flat list of tokens in which an image or a piece of audio takes as many null tokens as it has,
and a map from the index of the first of them to the chunk itself.

* `run_conforms_iff` - **a run does what it should exactly when it avoids these cases**.
-/

namespace Server

open List Finmap

/-- `llama_token`. -/
abbrev Token := Int32

/-- `LLAMA_TOKEN_NULL`. -/
def llamaTokenNull : Token := -1

/-- A chunk of an image or of audio. -/
structure Media where
  id : String
  nTokens : ℕ
deriving DecidableEq, Repr

/-- `mtmd_input_chunk`. -/
inductive Chunk where
  | text (tokens : List Token)
  | media (chunk : Media)

/-- `server_tokens`. -/
structure ServerTokens where
  hasMtmd : Bool
  mapIdxToMedia : Finmap fun _ : ℕ => Media
  tokens : List Token
deriving DecidableEq

/-- How a call ends.  A thrown exception leaves the object in some state; a failed assertion ends the process; a loop
may still be running. -/
inductive Outcome where
  | ok (s : ServerTokens)
  | throw (what : String) (s : ServerTokens)
  | abort (assertion : String)
  | running
deriving DecidableEq

def Outcome.state : Outcome → Option ServerTokens
  | .ok s => some s
  | .throw _ s => some s
  | .abort _ => none
  | .running => none

namespace ServerTokens

def new (hasMtmd : Bool) : ServerTokens where
  hasMtmd := hasMtmd
  mapIdxToMedia := ∅
  tokens := []

def size (s : ServerTokens) : ℕ := s.tokens.length

/-- `push_back` of a token. -/
def pushToken (s : ServerTokens) (tok : Token) : Outcome :=
  if tok = llamaTokenNull then .throw "Invalid token" s else .ok { s with tokens := s.tokens ++ [tok] }

def pushTokens (s : ServerTokens) : List Token → Outcome
  | [] => .ok s
  | tok :: toks =>
    match s.pushToken tok with
    | .ok s => s.pushTokens toks
    | outcome => outcome

/-- `push_back` of a chunk. -/
def pushChunk (s : ServerTokens) : Chunk → Outcome
  | .media chunk =>
    if s.hasMtmd then
      .ok { s with
        tokens := s.tokens ++ List.replicate chunk.nTokens llamaTokenNull
        mapIdxToMedia := s.mapIdxToMedia.insert s.size chunk }
    else .abort "GGML_ASSERT(has_mtmd)"
  | .text tokens => s.pushTokens tokens

/-- `map_idx_to_media.begin()`. -/
def begin (s : ServerTokens) : Option (ℕ × Media) :=
  match s.mapIdxToMedia.keys.min with
  | ⊤ => none
  | (idx : ℕ) => (s.mapIdxToMedia.lookup idx).map fun chunk => (idx, chunk)

/-- The loop of `push_back` over the media of the other list, with the iterator `it`.  The `for` has no third
expression and the body does not move the iterator. -/
def copyMedia (startIdx : ℕ) (it : Option (ℕ × Media)) : ℕ → ServerTokens → Outcome
  | fuel, s =>
    match it with
    | none => .ok s
    | some (idx, chunk) =>
      match fuel with
      | 0 => .running
      | fuel + 1 =>
        copyMedia startIdx it fuel { s with mapIdxToMedia := s.mapIdxToMedia.insert (startIdx + idx) chunk }

/-- `push_back` of another `server_tokens`. -/
def append (fuel : ℕ) (s other : ServerTokens) : Outcome :=
  match s.pushTokens other.tokens with
  | .ok s' =>
    if other.hasMtmd then
      if s'.hasMtmd then copyMedia s.size other.begin fuel s' else .abort "GGML_ASSERT(has_mtmd)"
    else .ok s'
  | outcome => outcome

/-- The loop of `keep_first` that removes the chunks that are not used any more. -/
def eraseFrom (m : Finmap fun _ : ℕ => Media) (n : ℕ) : Finmap fun _ : ℕ => Media :=
  m.foldl (fun m idx _ => if n ≤ idx then m.erase idx else m) (by grind [erase_erase]) m

/-- `keep_first`. -/
def keepFirst (s : ServerTokens) (n : ℕ) : Outcome :=
  if s.tokens.length < n then .abort "GGML_ASSERT(n <= tokens.size())"
  else if s.hasMtmd then
    if n = s.tokens.length then .ok s
    else if 0 < n ∧ s.tokens[n - 1]? = some llamaTokenNull ∧ s.tokens[n]? = some llamaTokenNull ∧
        s.mapIdxToMedia.lookup (n - 1) = none then
      -- `find_chunk(n - 1)`
      .throw "Chunk not found" s
    else .ok { s with mapIdxToMedia := eraseFrom s.mapIdxToMedia n, tokens := s.tokens.take n }
  else .ok { s with tokens := s.tokens.take n }

def clear (s : ServerTokens) : ServerTokens := { s with mapIdxToMedia := ∅, tokens := [] }

/-! ### What the map says about the tokens -/

/-- Token `i` lies in a chunk of the map. -/
def InChunk (s : ServerTokens) (i : ℕ) : Prop :=
  ∃ idx c, s.mapIdxToMedia.lookup idx = some c ∧ idx ≤ i ∧ i < idx + c.nTokens

/-- The map describes the tokens: the null tokens are the disjoint union of the intervals of the chunks, and only an
object for media has any. -/
structure Describes (s : ServerTokens) : Prop where
  null_iff : ∀ i, s.tokens[i]? = some llamaTokenNull ↔ s.InChunk i
  inside : ∀ idx c, s.mapIdxToMedia.lookup idx = some c → idx + c.nTokens ≤ s.tokens.length
  disjoint : ∀ idx c idx' c', s.mapIdxToMedia.lookup idx = some c → s.mapIdxToMedia.lookup idx' = some c' →
    idx ≠ idx' → idx + c.nTokens ≤ idx' ∨ idx' + c'.nTokens ≤ idx
  plain : s.hasMtmd = false → s.mapIdxToMedia = ∅

/-- The cut at `n` falls strictly inside a chunk. -/
def Cuts (s : ServerTokens) (n : ℕ) : Prop :=
  ∃ idx c, s.mapIdxToMedia.lookup idx = some c ∧ idx < n ∧ n < idx + c.nTokens

theorem lookup_of_empty {s : ServerTokens} (h : s.mapIdxToMedia = ∅) {idx : ℕ} {c : Media}
    (hc : s.mapIdxToMedia.lookup idx = some c) : False := by
  rw [h, lookup_empty] at hc
  cases hc

theorem describes_of_text {s : ServerTokens} (hmap : s.mapIdxToMedia = ∅) (hnull : llamaTokenNull ∉ s.tokens) :
    s.Describes := by
  refine ⟨fun i => ?_, fun idx c h => (lookup_of_empty hmap h).elim, fun idx c _ _ h => (lookup_of_empty hmap h).elim,
    fun _ => hmap⟩
  constructor
  · intro h
    exact (hnull (mem_of_getElem? h)).elim
  · rintro ⟨idx, c, h, -⟩
    exact (lookup_of_empty hmap h).elim

theorem new_describes (hasMtmd : Bool) : (new hasMtmd).Describes := describes_of_text rfl not_mem_nil

theorem clear_describes (s : ServerTokens) : s.clear.Describes := describes_of_text rfl not_mem_nil

theorem Describes.notMem_null {s : ServerTokens} (h : s.Describes) (hmap : s.mapIdxToMedia = ∅) :
    llamaTokenNull ∉ s.tokens := by
  intro hmem
  obtain ⟨i, hi⟩ := mem_iff_getElem?.mp hmem
  obtain ⟨idx, c, hc, -⟩ := (h.null_iff i).mp hi
  exact lookup_of_empty hmap hc

theorem Describes.append_text {s : ServerTokens} (h : s.Describes) {l : List Token} (hl : llamaTokenNull ∉ l) :
    Describes { s with tokens := s.tokens ++ l } where
  null_iff := by
    intro i
    refine Iff.trans ?_ (h.null_iff i)
    show (s.tokens ++ l)[i]? = some llamaTokenNull ↔ s.tokens[i]? = some llamaTokenNull
    by_cases hi : i < s.tokens.length
    · rw [getElem?_append_left hi]
    · rw [getElem?_append_right (Nat.le_of_not_lt hi), getElem?_eq_none (Nat.le_of_not_lt hi)]
      exact iff_of_false (fun hmem => hl (mem_of_getElem? hmem)) nofun
  inside := by
    intro idx c hc
    have := h.inside idx c hc
    rw [length_append]
    omega
  disjoint := h.disjoint
  plain := h.plain

theorem Describes.append_media {s : ServerTokens} (h : s.Describes) (hmtmd : s.hasMtmd = true) (chunk : Media) :
    Describes { s with
      tokens := s.tokens ++ List.replicate chunk.nTokens llamaTokenNull
      mapIdxToMedia := s.mapIdxToMedia.insert s.size chunk } where
  null_iff := by
    intro i
    show (s.tokens ++ List.replicate chunk.nTokens llamaTokenNull)[i]? = some llamaTokenNull ↔
      ∃ idx c, (s.mapIdxToMedia.insert s.size chunk).lookup idx = some c ∧ idx ≤ i ∧ i < idx + c.nTokens
    by_cases hi : i < s.tokens.length
    · rw [getElem?_append_left hi, h.null_iff i]
      constructor
      · rintro ⟨idx, c, hc, hle, hlt⟩
        refine ⟨idx, c, ?_, hle, hlt⟩
        rw [lookup_insert_of_ne _ (show idx ≠ s.size from fun heq => by rw [size] at heq; omega), hc]
      · rintro ⟨idx, c, hc, hle, hlt⟩
        refine ⟨idx, c, ?_, hle, hlt⟩
        rwa [lookup_insert_of_ne _ (show idx ≠ s.size from fun heq => by rw [size] at heq; omega)] at hc
    · rw [getElem?_append_right (Nat.le_of_not_lt hi), getElem?_replicate]
      constructor
      · intro hnull
        split at hnull
        · next hlt => exact ⟨s.size, chunk, lookup_insert _, Nat.le_of_not_lt hi, by rw [size]; omega⟩
        · cases hnull
      · rintro ⟨idx, c, hc, hle, hlt⟩
        by_cases hidx : idx = s.size
        · subst hidx
          rw [lookup_insert, Option.some.injEq] at hc
          subst hc
          rw [size] at hlt
          rw [if_pos (by omega)]
        · rw [lookup_insert_of_ne _ hidx] at hc
          have := h.inside idx c hc
          omega
  inside := by
    intro idx c hc
    rw [length_append, length_replicate]
    by_cases hidx : idx = s.size
    · subst hidx
      rw [lookup_insert, Option.some.injEq] at hc
      subst hc
      exact le_rfl
    · rw [lookup_insert_of_ne _ hidx] at hc
      have := h.inside idx c hc
      omega
  disjoint := by
    intro idx c idx' c' hc hc' hne
    by_cases hidx : idx = s.size
    · rw [lookup_insert_of_ne _ (hidx ▸ hne.symm)] at hc'
      exact .inr (hidx ▸ h.inside idx' c' hc')
    · rw [lookup_insert_of_ne _ hidx] at hc
      by_cases hidx' : idx' = s.size
      · exact .inl (hidx' ▸ h.inside idx c hc)
      · rw [lookup_insert_of_ne _ hidx'] at hc'
        exact h.disjoint idx c idx' c' hc hc' hne
  plain := by
    intro hfalse
    rw [hmtmd] at hfalse
    cases hfalse

/-! ### `keep_first` -/

theorem lookup_foldl_erase (n : ℕ) (l : List (Σ _ : ℕ, Media)) (m : Finmap fun _ : ℕ => Media) (idx : ℕ) :
    (l.foldl (fun m e => if n ≤ e.1 then m.erase e.1 else m) m).lookup idx =
      if n ≤ idx ∧ idx ∈ l.keys then none else m.lookup idx := by
  induction l generalizing m with
  | nil => simp
  | cons e l ih =>
    rw [foldl_cons, ih]
    by_cases hl : n ≤ idx ∧ idx ∈ l.keys
    · simp [hl]
    · rw [if_neg hl]
      by_cases hidx : idx = e.1
      · subst hidx
        by_cases hn : n ≤ e.1
        · simp [hn]
        · simp [hn]
      · have hne : (if n ≤ e.1 then m.erase e.1 else m).lookup idx = m.lookup idx := by
          split
          · exact lookup_erase_ne hidx
          · rfl
        rw [hne, if_neg]
        rw [keys_cons, mem_cons]
        rintro ⟨hn, heq | hmem⟩
        · exact hidx heq
        · exact hl ⟨hn, hmem⟩

theorem lookup_eraseFrom (m : Finmap fun _ : ℕ => Media) (n idx : ℕ) :
    (eraseFrom m n).lookup idx = if n ≤ idx then none else m.lookup idx := by
  induction m using induction_on with
  | H a =>
    refine (lookup_foldl_erase n a.entries a.toFinmap idx).trans ?_
    by_cases hn : n ≤ idx
    · by_cases hmem : idx ∈ a.keys
      · rw [if_pos ⟨hn, hmem⟩, if_pos hn]
      · rw [if_neg fun h => hmem h.2, if_pos hn, lookup_toFinmap, AList.lookup_eq_none.mpr hmem]
    · rw [if_neg fun h => hn h.1, if_neg hn]

/-- `keep_first(n)` does what it should: inside a chunk it throws and leaves everything as it is, elsewhere it keeps
the first `n` tokens with their chunks.  More tokens than there are is a failed assertion. -/
def KeepConforms (s : ServerTokens) (n : ℕ) : Prop :=
  n ≤ s.tokens.length →
    (s.Cuts n → ∃ what, s.keepFirst n = .throw what s) ∧
    (¬ s.Cuts n → ∃ s', s.keepFirst n = .ok s' ∧ s'.hasMtmd = s.hasMtmd ∧ s'.tokens = s.tokens.take n ∧
      (∀ idx < n, s'.mapIdxToMedia.lookup idx = s.mapIdxToMedia.lookup idx) ∧
      ∀ idx c, s'.mapIdxToMedia.lookup idx = some c → s.mapIdxToMedia.lookup idx = some c)

/-- The cuts that `keep_first` treats as it should: `n - 1` is not the index of a chunk with more than one token, and
no chunk with more than one token ends at `n` where another one begins. -/
def KeepGood (s : ServerTokens) (n : ℕ) : Prop :=
  n ≤ s.tokens.length →
    (∀ c, 0 < n → s.mapIdxToMedia.lookup (n - 1) = some c → c.nTokens < 2) ∧
    ∀ idx c c', s.mapIdxToMedia.lookup idx = some c → 2 ≤ c.nTokens → idx + c.nTokens = n →
      s.mapIdxToMedia.lookup n = some c' → c'.nTokens = 0

/-- The test of `keep_first`. -/
def Refuses (s : ServerTokens) (n : ℕ) : Prop :=
  0 < n ∧ s.tokens[n - 1]? = some llamaTokenNull ∧ s.tokens[n]? = some llamaTokenNull ∧
    s.mapIdxToMedia.lookup (n - 1) = none

/-- **The test of `keep_first`** is whether the cut falls into a chunk, for the good cuts and for no others. -/
theorem refuses_iff_cuts_iff {s : ServerTokens} (h : s.Describes) {n : ℕ} (hn : n ≤ s.tokens.length) :
    (s.Refuses n ↔ s.Cuts n) ↔ s.KeepGood n := by
  constructor
  · intro hiff _
    refine ⟨fun c hpos hc => ?_, fun idx c c' hc htwo hend hc' => ?_⟩
    · -- a cut behind the first token of a chunk is not refused
      by_contra hlarge
      obtain ⟨-, -, -, hnone⟩ := hiff.mpr ⟨n - 1, c, hc, by omega, by omega⟩
      rw [hnone] at hc
      cases hc
    · -- a cut between two chunks is refused
      by_contra hne
      have hprev : s.mapIdxToMedia.lookup (n - 1) = none := by
        cases hlook : s.mapIdxToMedia.lookup (n - 1) with
        | none => rfl
        | some d =>
          have := h.disjoint idx c (n - 1) d hc hlook (by omega)
          omega
      have hrefuses : s.Refuses n := ⟨by omega, (h.null_iff _).mpr ⟨idx, c, hc, by omega, by omega⟩,
        (h.null_iff _).mpr ⟨n, c', hc', le_rfl, by omega⟩, hprev⟩
      obtain ⟨k, d, hd, hlt, hgt⟩ := hiff.mp hrefuses
      have := h.disjoint k d n c' hd hc' (by omega)
      omega
  · intro hgood
    obtain ⟨hfirst, hboundary⟩ := hgood hn
    constructor
    · rintro ⟨hpos, hlast, hnext, hnone⟩
      obtain ⟨a, c, hc, hale, halt⟩ := (h.null_iff _).mp hlast
      obtain ⟨b, d, hd, hble, hblt⟩ := (h.null_iff _).mp hnext
      by_contra hcut
      have hend : a + c.nTokens = n := by
        by_contra hne
        exact hcut ⟨a, c, hc, by omega, by omega⟩
      have hbegin : b = n := by
        by_contra hne
        exact hcut ⟨b, d, hd, by omega, by omega⟩
      have hane : a ≠ n - 1 := by
        rintro rfl
        rw [hnone] at hc
        cases hc
      have := hboundary a c d hc (by omega) hend (hbegin ▸ hd)
      omega
    · rintro ⟨idx, c, hc, hlt, hgt⟩
      refine ⟨by omega, (h.null_iff _).mpr ⟨idx, c, hc, by omega, by omega⟩,
        (h.null_iff _).mpr ⟨idx, c, hc, by omega, by omega⟩, ?_⟩
      cases hlook : s.mapIdxToMedia.lookup (n - 1) with
      | none => rfl
      | some d =>
        by_cases hidx : idx = n - 1
        · rw [← hidx, hc, Option.some.injEq] at hlook
          have := hfirst c (by omega) (hidx ▸ hc)
          omega
        · have := h.disjoint idx c (n - 1) d hc hlook hidx
          omega

/-- The first `n` tokens with their chunks. -/
def truncated (s : ServerTokens) (n : ℕ) : ServerTokens :=
  { s with mapIdxToMedia := eraseFrom s.mapIdxToMedia n, tokens := s.tokens.take n }

theorem keepFirst_of_lt {s : ServerTokens} (hmtmd : s.hasMtmd = true) {n : ℕ} (hn : n < s.tokens.length) :
    (s.Refuses n → s.keepFirst n = .throw "Chunk not found" s) ∧
      (¬ s.Refuses n → s.keepFirst n = .ok (s.truncated n)) := by
  rw [keepFirst, if_neg (by omega), if_pos hmtmd, if_neg (by omega)]
  exact ⟨fun h => if_pos h, fun h => if_neg h⟩

theorem not_cuts_of_empty {s : ServerTokens} (h : s.mapIdxToMedia = ∅) (n : ℕ) : ¬ s.Cuts n := by
  rintro ⟨idx, c, hc, -⟩
  exact lookup_of_empty h hc

theorem Describes.not_cuts_length {s : ServerTokens} (h : s.Describes) : ¬ s.Cuts s.tokens.length := by
  rintro ⟨idx, c, hc, -, hgt⟩
  have := h.inside idx c hc
  omega

/-- **`keep_first`** does what it should exactly at the good cuts. -/
theorem keepFirst_conforms_iff {s : ServerTokens} (h : s.Describes) (n : ℕ) : s.KeepConforms n ↔ s.KeepGood n := by
  by_cases hle : n ≤ s.tokens.length
  · cases hmtmd : s.hasMtmd with
    | false =>
      have hmap := h.plain hmtmd
      have hcode : s.keepFirst n = .ok { s with tokens := s.tokens.take n } := by
        rw [keepFirst, if_neg (by omega), hmtmd]
        rfl
      refine iff_of_true (fun _ => ⟨fun hcut => (not_cuts_of_empty hmap n hcut).elim, fun _ => ?_⟩) fun _ => ?_
      · exact ⟨_, hcode, rfl, rfl, fun _ _ => rfl, fun _ _ hc => hc⟩
      · exact ⟨fun c _ hc => (lookup_of_empty hmap hc).elim, fun idx c c' hc => (lookup_of_empty hmap hc).elim⟩
    | true =>
      by_cases hend : n = s.tokens.length
      · subst hend
        have hcode : s.keepFirst s.tokens.length = .ok s := by
          rw [keepFirst, if_neg (Nat.lt_irrefl _), if_pos hmtmd, if_pos rfl]
        refine iff_of_true (fun _ => ⟨fun hcut => (h.not_cuts_length hcut).elim, fun _ => ?_⟩) fun _ => ?_
        · exact ⟨s, hcode, rfl, (take_length).symm, fun _ _ => rfl, fun _ _ hc => hc⟩
        · refine ⟨fun c hpos hc => ?_, fun idx c c' _ _ _ hc' => ?_⟩
          · have := h.inside _ c hc
            omega
          · have := h.inside _ c' hc'
            omega
      · obtain ⟨hthrow, hok⟩ := keepFirst_of_lt hmtmd (Nat.lt_of_le_of_ne hle hend)
        rw [← refuses_iff_cuts_iff h hle]
        constructor
        · intro hconf
          obtain ⟨hcut, hkeep⟩ := hconf hle
          constructor
          · intro hrefuses
            by_contra hno
            obtain ⟨s', hs', -⟩ := hkeep hno
            rw [hthrow hrefuses] at hs'
            cases hs'
          · intro hcuts
            by_contra hno
            obtain ⟨what, hs'⟩ := hcut hcuts
            rw [hok hno] at hs'
            cases hs'
        · intro hiff _
          refine ⟨fun hcut => ⟨_, hthrow (hiff.mpr hcut)⟩, fun hcut => ?_⟩
          refine ⟨s.truncated n, hok fun hrefuses => hcut (hiff.mp hrefuses), rfl, rfl, fun idx hidx => ?_,
            fun idx c hc => ?_⟩
          · exact (lookup_eraseFrom _ n idx).trans (if_neg (Nat.not_le.mpr hidx))
          · have hc' := (lookup_eraseFrom s.mapIdxToMedia n idx).symm.trans hc
            split at hc'
            · cases hc'
            · exact hc'
  · exact iff_of_true (fun hle' => absurd hle' hle) fun hle' => absurd hle' hle

theorem lookup_truncated {s : ServerTokens} {n idx : ℕ} {c : Media} :
    (s.truncated n).mapIdxToMedia.lookup idx = some c ↔ idx < n ∧ s.mapIdxToMedia.lookup idx = some c := by
  refine (iff_of_eq (congrArg (· = some c) (lookup_eraseFrom s.mapIdxToMedia n idx))).trans ?_
  split
  · next hle => exact iff_of_false nofun fun h => absurd h.1 (Nat.not_lt.mpr hle)
  · next hlt => exact (and_iff_right (Nat.lt_of_not_le hlt)).symm

theorem Describes.truncated {s : ServerTokens} (h : s.Describes) {n : ℕ} (hcut : ¬ s.Cuts n)
    (hn : n ≤ s.tokens.length) : (s.truncated n).Describes where
  null_iff := by
    intro i
    show (s.tokens.take n)[i]? = some llamaTokenNull ↔ _
    rw [getElem?_take]
    split
    · next hi =>
      rw [h.null_iff i]
      constructor
      · rintro ⟨idx, c, hc, hle, hlt⟩
        exact ⟨idx, c, (lookup_truncated).mpr ⟨by omega, hc⟩, hle, hlt⟩
      · rintro ⟨idx, c, hc, hle, hlt⟩
        exact ⟨idx, c, ((lookup_truncated).mp hc).2, hle, hlt⟩
    · next hi =>
      refine iff_of_false nofun ?_
      rintro ⟨idx, c, hc, hle, hlt⟩
      obtain ⟨hidx, hc'⟩ := (lookup_truncated).mp hc
      exact hcut ⟨idx, c, hc', hidx, by omega⟩
  inside := by
    intro idx c hc
    obtain ⟨hidx, hc'⟩ := (lookup_truncated).mp hc
    show idx + c.nTokens ≤ (s.tokens.take n).length
    rw [length_take_of_le hn]
    by_contra hlong
    exact hcut ⟨idx, c, hc', hidx, by omega⟩
  disjoint := by
    intro idx c idx' c' hc hc' hne
    exact h.disjoint idx c idx' c' ((lookup_truncated).mp hc).2 ((lookup_truncated).mp hc').2 hne
  plain := by
    intro hfalse
    refine ext_lookup fun idx => Option.ext fun c => ?_
    rw [lookup_truncated, h.plain hfalse, lookup_empty]
    exact iff_of_false (fun hc => Option.some_ne_none c hc.2.symm) nofun

theorem keepFirst_describes {s s' : ServerTokens} (h : s.Describes) {n : ℕ} (hgood : s.KeepGood n)
    (hs' : (s.keepFirst n).state = some s') : s'.Describes := by
  by_cases hle : n ≤ s.tokens.length
  · cases hmtmd : s.hasMtmd with
    | false =>
      have hmap := h.plain hmtmd
      rw [keepFirst, if_neg (by omega), hmtmd] at hs'
      rw [← Option.some.inj hs']
      exact describes_of_text hmap fun hmem => h.notMem_null hmap (mem_of_mem_take hmem)
    | true =>
      by_cases hend : n = s.tokens.length
      · rw [keepFirst, if_neg (by omega), if_pos hmtmd, if_pos hend] at hs'
        exact Option.some.inj hs' ▸ h
      · obtain ⟨hthrow, hok⟩ := keepFirst_of_lt hmtmd (Nat.lt_of_le_of_ne hle hend)
        by_cases hrefuses : s.Refuses n
        · rw [hthrow hrefuses] at hs'
          exact Option.some.inj hs' ▸ h
        · rw [hok hrefuses] at hs'
          have hcut : ¬ s.Cuts n := fun hcut => hrefuses (((refuses_iff_cuts_iff h hle).mpr hgood).mpr hcut)
          exact Option.some.inj hs' ▸ h.truncated hcut hle
  · rw [keepFirst, if_pos (Nat.lt_of_not_le hle)] at hs'
    cases hs'

/-! ### Appending -/

theorem pushTokens_state {s s' : ServerTokens} {l : List Token} (h : (s.pushTokens l).state = some s') :
    ∃ l', llamaTokenNull ∉ l' ∧ s' = { s with tokens := s.tokens ++ l' } := by
  induction l generalizing s with
  | nil => exact ⟨[], not_mem_nil, by rw [append_nil]; exact (Option.some.inj h).symm⟩
  | cons tok l ih =>
    by_cases htok : tok = llamaTokenNull
    · rw [pushTokens, pushToken, if_pos htok] at h
      exact ⟨[], not_mem_nil, by rw [append_nil]; exact (Option.some.inj h).symm⟩
    · rw [pushTokens, pushToken, if_neg htok] at h
      obtain ⟨l', hl', rfl⟩ := ih h
      refine ⟨tok :: l', ?_, by simp⟩
      rw [mem_cons, not_or]
      exact ⟨Ne.symm htok, hl'⟩

theorem pushTokens_of_text {s : ServerTokens} {l : List Token} (h : llamaTokenNull ∉ l) :
    s.pushTokens l = .ok { s with tokens := s.tokens ++ l } := by
  induction l generalizing s with
  | nil => rw [append_nil]; rfl
  | cons tok l ih =>
    rw [mem_cons, not_or] at h
    rw [pushTokens, pushToken, if_neg (Ne.symm h.1)]
    simp only [ih h.2, append_assoc, singleton_append]

theorem pushTokens_ok {s s' : ServerTokens} {l : List Token} (h : s.pushTokens l = .ok s') :
    s' = { s with tokens := s.tokens ++ l } := by
  induction l generalizing s with
  | nil => rw [append_nil]; exact (Outcome.ok.inj h).symm
  | cons tok l ih =>
    by_cases htok : tok = llamaTokenNull
    · rw [pushTokens, pushToken, if_pos htok] at h
      cases h
    · rw [pushTokens, pushToken, if_neg htok] at h
      rw [ih h, append_assoc, singleton_append]

theorem copyMedia_some (startIdx : ℕ) (it : ℕ × Media) (fuel : ℕ) (s : ServerTokens) :
    copyMedia startIdx (some it) fuel s = .running := by
  induction fuel generalizing s with
  | zero => rw [copyMedia]
  | succ fuel ih =>
    rw [copyMedia]
    exact ih _

theorem copyMedia_none (startIdx fuel : ℕ) (s : ServerTokens) : copyMedia startIdx none fuel s = .ok s := by
  rw [copyMedia]

theorem begin_eq_none_iff (s : ServerTokens) : s.begin = none ↔ s.mapIdxToMedia = ∅ := by
  constructor
  · intro h
    rw [begin] at h
    split at h
    · next htop =>
      have hkeys := Finset.min_eq_top.mp htop
      refine ext_lookup fun idx => ?_
      rw [Finmap.lookup_empty, Finmap.lookup_eq_none, ← Finmap.mem_keys, hkeys]
      exact Finset.notMem_empty idx
    · next idx hmin =>
      have hmem := mem_keys.mp (Finset.mem_of_min hmin)
      obtain ⟨c, hc⟩ := mem_iff.mp hmem
      rw [hc] at h
      cases h
  · intro h
    rw [begin, h]
    rfl

/-- Appending does what it should: it ends, and the result is the one list behind the other with the media shifted.  An
object without media takes no list for media, which is what the assertion says. -/
def AppendConforms (fuel : ℕ) (s other : ServerTokens) : Prop :=
  (other.hasMtmd = true → s.hasMtmd = true) →
    ∃ s', s.append fuel other = .ok s' ∧ s'.hasMtmd = s.hasMtmd ∧ s'.tokens = s.tokens ++ other.tokens ∧
      (∀ idx < s.size, s'.mapIdxToMedia.lookup idx = s.mapIdxToMedia.lookup idx) ∧
      ∀ idx c, other.mapIdxToMedia.lookup idx = some c → s'.mapIdxToMedia.lookup (s.size + idx) = some c

def AppendGood (s other : ServerTokens) : Prop :=
  (other.hasMtmd = true → s.hasMtmd = true) → other.mapIdxToMedia = ∅

/-- **Appending** does what it should exactly for lists without media. -/
theorem append_conforms_iff (fuel : ℕ) (s : ServerTokens) {other : ServerTokens} (h : other.Describes) :
    s.AppendConforms fuel other ↔ s.AppendGood other := by
  constructor
  · intro hconf hguard
    by_contra hmedia
    obtain ⟨s', hs', -⟩ := hconf hguard
    rw [append] at hs'
    split at hs'
    · next s'' hpush =>
      have hmtmd : other.hasMtmd = true := by
        by_contra hfalse
        exact hmedia (h.plain (Bool.eq_false_iff.mpr hfalse))
      have hbegin : other.begin ≠ none := fun hnone => hmedia ((begin_eq_none_iff other).mp hnone)
      obtain ⟨it, hit⟩ := Option.ne_none_iff_exists'.mp hbegin
      have hmtmd' : s''.hasMtmd = true := by
        rw [pushTokens_ok hpush]
        exact hguard hmtmd
      rw [if_pos hmtmd, if_pos hmtmd', hit, copyMedia_some] at hs'
      cases hs'
    · next hno => exact hno s' hs'
  · intro hgood hguard
    have hmap := hgood hguard
    refine ⟨{ s with tokens := s.tokens ++ other.tokens }, ?_, rfl, rfl, fun _ _ => rfl,
      fun idx c hc => (lookup_of_empty hmap hc).elim⟩
    rw [append, pushTokens_of_text (h.notMem_null hmap)]
    cases hmtmd : other.hasMtmd with
    | false => rfl
    | true =>
      show (if s.hasMtmd = true then _ else _) = _
      rw [if_pos (hguard hmtmd), (begin_eq_none_iff other).mpr hmap, copyMedia_none]

theorem append_describes {fuel : ℕ} {s s' other : ServerTokens} (h : s.Describes)
    (hs' : (s.append fuel other).state = some s') : s'.Describes := by
  have htext : ∀ s'', (s.pushTokens other.tokens).state = some s'' → s''.Describes := by
    intro s'' hs''
    obtain ⟨l', hl', rfl⟩ := pushTokens_state hs''
    exact h.append_text hl'
  rw [append] at hs'
  split at hs'
  · next s'' hpush =>
    have hs'' := htext s'' (by rw [hpush]; rfl)
    split at hs'
    · split at hs'
      · cases hbegin : other.begin with
        | none =>
          rw [hbegin, copyMedia_none] at hs'
          exact Option.some.inj hs' ▸ hs''
        | some it =>
          rw [hbegin, copyMedia_some] at hs'
          cases hs'
      · cases hs'
    · exact Option.some.inj hs' ▸ hs''
  · exact htext s' hs'

theorem pushToken_describes {s s' : ServerTokens} (h : s.Describes) {tok : Token}
    (hs' : (s.pushToken tok).state = some s') : s'.Describes := by
  by_cases htok : tok = llamaTokenNull
  · rw [pushToken, if_pos htok] at hs'
    exact Option.some.inj hs' ▸ h
  · rw [pushToken, if_neg htok] at hs'
    rw [← Option.some.inj hs']
    exact h.append_text fun hmem => htok (mem_singleton.mp hmem).symm

theorem pushChunk_describes {s s' : ServerTokens} (h : s.Describes) {chunk : Chunk}
    (hs' : (s.pushChunk chunk).state = some s') : s'.Describes := by
  cases chunk with
  | text tokens =>
    obtain ⟨l', hl', rfl⟩ := pushTokens_state hs'
    exact h.append_text hl'
  | media chunk =>
    rw [pushChunk] at hs'
    split at hs'
    · next hmtmd => exact Option.some.inj hs' ▸ h.append_media hmtmd chunk
    · cases hs'

end ServerTokens

end Server
