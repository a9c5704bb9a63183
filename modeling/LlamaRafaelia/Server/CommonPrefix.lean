import LlamaRafaelia.Server.Tokens
import Mathlib.Order.Bounds.Basic

/-!
# The common prefix of two token lists

`get_common_prefix` decides how much of the memory of a slot can be reused.  It goes through both lists at once and jumps
over media chunks that are the same in both.

* `mediaPrefixLoop_spec` - **the loop is at a common prefix, and it ends at the largest one**.
-/

namespace Server

namespace ServerTokens

/-- `find_chunk`. -/
def findChunk (s : ServerTokens) (idx : ℕ) : Except String Media :=
  match s.mapIdxToMedia.lookup idx with
  | some chunk => .ok chunk
  | none => .error "Chunk not found"

/-- The loop of `get_common_prefix` for lists of text. -/
def textPrefixLoop (a b : ServerTokens) (maxIdx i : ℕ) : ℕ :=
  if i < maxIdx then
    if a.tokens.getD i 0 = b.tokens.getD i 0 then textPrefixLoop a b maxIdx (i + 1) else i
  else maxIdx
termination_by maxIdx - i

/-- The loop of `get_common_prefix` for lists with media. -/
def mediaPrefixLoop (a b : ServerTokens) (maxIdx i : ℕ) : Except String ℕ :=
  if i < maxIdx then
    if a.tokens.getD i 0 = llamaTokenNull ∧ b.tokens.getD i 0 = llamaTokenNull then
      match a.findChunk i, b.findChunk i with
      | .ok aChunk, .ok bChunk =>
        if aChunk.id = bChunk.id ∧ aChunk.nTokens = bChunk.nTokens then
          if 0 < aChunk.nTokens then mediaPrefixLoop a b maxIdx (i + aChunk.nTokens)
          else .error "GGML_ASSERT(n_tok_a > 0 && \"Invalid media chunk\")"
        else .ok i
      | .error e, _ => .error e
      | .ok _, .error e => .error e
    else if a.tokens.getD i 0 = b.tokens.getD i 0 then mediaPrefixLoop a b maxIdx (i + 1)
    else .ok i
  else .ok maxIdx
termination_by maxIdx - i

/-- `get_common_prefix`. -/
def getCommonPrefix (a b : ServerTokens) : Except String ℕ :=
  let maxIdx := min a.tokens.length b.tokens.length
  if a.hasMtmd then mediaPrefixLoop a b maxIdx 0 else .ok (textPrefixLoop a b maxIdx 0)

/-! ### What the prefix should be -/

/-- Position `i` of both lists holds the same text token, or a part of chunks with equal id and length. -/
def AgreeAt (a b : ServerTokens) (i : ℕ) : Prop :=
  (∃ tok, tok ≠ llamaTokenNull ∧ a.tokens[i]? = some tok ∧ b.tokens[i]? = some tok) ∨
    ∃ ia ca ib cb, (a.mapIdxToMedia.lookup ia = some ca ∧ ia ≤ i ∧ i < ia + ca.nTokens) ∧
      (b.mapIdxToMedia.lookup ib = some cb ∧ ib ≤ i ∧ i < ib + cb.nTokens) ∧ ca.id = cb.id ∧ ca.nTokens = cb.nTokens

/-- **The first `n` positions agree**, and `n` is not strictly inside a chunk. -/
structure CommonPrefix (a b : ServerTokens) (n : ℕ) : Prop where
  agree : ∀ i < n, AgreeAt a b i
  left : ¬ a.Cuts n
  right : ¬ b.Cuts n

variable {a b s : ServerTokens} {i n : ℕ}

theorem AgreeAt.symm (h : AgreeAt a b i) : AgreeAt b a i := by
  rcases h with ⟨tok, htok, hleft, hright⟩ | ⟨ia, ca, ib, cb, hleft, hright, hid, hlength⟩
  · exact .inl ⟨tok, htok, hright, hleft⟩
  · exact .inr ⟨ib, cb, ia, ca, hright, hleft, hid.symm, hlength.symm⟩

theorem CommonPrefix.symm (h : CommonPrefix a b n) : CommonPrefix b a n := ⟨fun i hi => (h.agree i hi).symm, h.right, h.left⟩

theorem CommonPrefix.zero (a b : ServerTokens) : CommonPrefix a b 0 := by
  refine ⟨fun i hi => absurd hi (Nat.not_lt_zero i), ?_, ?_⟩
  · rintro ⟨idx, c, -, hlt, -⟩
    exact absurd hlt (Nat.not_lt_zero idx)
  · rintro ⟨idx, c, -, hlt, -⟩
    exact absurd hlt (Nat.not_lt_zero idx)

namespace Describes

theorem getD_eq (hi : i < s.tokens.length) : s.tokens[i]? = some (s.tokens.getD i 0) := by
  rw [List.getD_eq_getElem?_getD, List.getElem?_eq_getElem hi, Option.getD_some]

theorem findChunk_of_null (h : s.Describes) (hcut : ¬ s.Cuts i) (hnull : s.tokens[i]? = some llamaTokenNull) :
    ∃ c, s.mapIdxToMedia.lookup i = some c ∧ s.findChunk i = .ok c ∧ 0 < c.nTokens := by
  obtain ⟨idx, c, hc, hle, hlt⟩ := (h.null_iff i).mp hnull
  have hidx : idx = i := by
    by_contra hne
    exact hcut ⟨idx, c, hc, by omega, hlt⟩
  subst hidx
  refine ⟨c, hc, ?_, by omega⟩
  rw [findChunk, hc]

theorem chunk_unique (h : s.Describes) {idx idx' : ℕ} {c c' : Media} (hc : s.mapIdxToMedia.lookup idx = some c)
    (hi : idx ≤ i ∧ i < idx + c.nTokens) (hc' : s.mapIdxToMedia.lookup idx' = some c')
    (hi' : idx' ≤ i ∧ i < idx' + c'.nTokens) : c = c' := by
  by_cases hidx : idx = idx'
  · subst hidx
    rw [hc] at hc'
    exact Option.some.inj hc'
  · have := h.disjoint idx c idx' c' hc hc' hidx
    omega

theorem not_cuts_succ (h : s.Describes) (htext : s.tokens[i]? ≠ some llamaTokenNull) : ¬ s.Cuts (i + 1) := by
  rintro ⟨idx, c, hc, hlt, hgt⟩
  exact htext ((h.null_iff i).mpr ⟨idx, c, hc, by omega, by omega⟩)

theorem not_cuts_add (h : s.Describes) {c : Media} (hc : s.mapIdxToMedia.lookup i = some c) (hpos : 0 < c.nTokens) :
    ¬ s.Cuts (i + c.nTokens) := by
  rintro ⟨idx, c', hc', hlt, hgt⟩
  by_cases hidx : idx = i
  · subst hidx
    rw [hc, Option.some.injEq] at hc'
    subst hc'
    exact absurd hgt (Nat.lt_irrefl _)
  · have := h.disjoint idx c' i c hc' hc hidx
    omega

theorem null_of_chunk (h : s.Describes) {idx : ℕ} {c : Media} (hc : s.mapIdxToMedia.lookup idx = some c) (hle : idx ≤ i)
    (hlt : i < idx + c.nTokens) : s.tokens[i]? = some llamaTokenNull :=
  (h.null_iff i).mpr ⟨idx, c, hc, hle, hlt⟩

end Describes

theorem AgreeAt.tokens (ha : a.Describes) (hb : b.Describes) (h : AgreeAt a b i) :
    a.tokens[i]? = b.tokens[i]? ∧ i < a.tokens.length ∧ i < b.tokens.length := by
  have hlength : ∀ {s : ServerTokens} {tok : Token}, s.tokens[i]? = some tok → i < s.tokens.length :=
    fun htok => (List.getElem?_eq_some_iff.mp htok).1
  rcases h with ⟨tok, -, hleft, hright⟩ | ⟨ia, ca, ib, cb, ⟨hca, hale, halt⟩, ⟨hcb, hble, hblt⟩, -⟩
  · exact ⟨hleft.trans hright.symm, hlength hleft, hlength hright⟩
  · have hleft := ha.null_of_chunk hca hale halt
    have hright := hb.null_of_chunk hcb hble hblt
    exact ⟨hleft.trans hright.symm, hlength hleft, hlength hright⟩

theorem CommonPrefix.isGreatest (h : CommonPrefix a b n) (hnext : ¬ AgreeAt a b n) : IsGreatest {n | CommonPrefix a b n} n := by
  refine ⟨h, fun m hm => ?_⟩
  by_contra hlt
  exact hnext (hm.agree n (Nat.not_le.mp hlt))

/-! ### The loop -/

/-- **The loop ends at the largest common prefix** when it is at a common prefix. -/
theorem mediaPrefixLoop_spec (ha : a.Describes) (hb : b.Describes) (i : ℕ)
    (hi : i ≤ min a.tokens.length b.tokens.length) (h : CommonPrefix a b i) :
    ∃ n, mediaPrefixLoop a b (min a.tokens.length b.tokens.length) i = .ok n ∧ IsGreatest {n | CommonPrefix a b n} n := by
  generalize hmax : min a.tokens.length b.tokens.length = maxIdx at hi ⊢
  induction hk : maxIdx - i using Nat.strong_induction_on generalizing i with
  | _ k ih =>
    rw [mediaPrefixLoop]
    by_cases hlt : i < maxIdx
    · have hleft : a.tokens[i]? = some (a.tokens.getD i 0) := Describes.getD_eq (by omega)
      have hright : b.tokens[i]? = some (b.tokens.getD i 0) := Describes.getD_eq (by omega)
      rw [if_pos hlt]
      by_cases hnull : a.tokens.getD i 0 = llamaTokenNull ∧ b.tokens.getD i 0 = llamaTokenNull
      · rw [if_pos hnull]
        rw [hnull.1] at hleft
        rw [hnull.2] at hright
        obtain ⟨ca, hca, hfinda, hposa⟩ := ha.findChunk_of_null h.left hleft
        obtain ⟨cb, hcb, hfindb, hposb⟩ := hb.findChunk_of_null h.right hright
        simp only [hfinda, hfindb]
        by_cases hsame : ca.id = cb.id ∧ ca.nTokens = cb.nTokens
        · -- both lists go on behind the chunk
          rw [if_pos hsame, if_pos hposa]
          have hinside := ha.inside i ca hca
          have hinside' := hb.inside i cb hcb
          refine ih (maxIdx - (i + ca.nTokens)) (by omega) (i + ca.nTokens) ⟨?_, ha.not_cuts_add hca hposa, ?_⟩ (by omega) rfl
          · intro j hj
            by_cases hji : j < i
            · exact h.agree j hji
            · exact .inr ⟨i, ca, i, cb, ⟨hca, by omega, hj⟩, ⟨hcb, by omega, by omega⟩, hsame⟩
          · rw [hsame.2]
            exact hb.not_cuts_add hcb hposb
        · rw [if_neg hsame]
          refine ⟨i, rfl, h.isGreatest ?_⟩
          rintro (⟨tok, htok, htoka, -⟩ | ⟨ia, da, ib, db, ⟨hda, hda'⟩, ⟨hdb, hdb'⟩, heq⟩)
          · rw [hleft] at htoka
            exact htok (Option.some.inj htoka).symm
          · have hea := ha.chunk_unique hda hda' hca ⟨le_rfl, by omega⟩
            have heb := hb.chunk_unique hdb hdb' hcb ⟨le_rfl, by omega⟩
            subst hea heb
            exact hsame heq
      · rw [if_neg hnull]
        by_cases heq : a.tokens.getD i 0 = b.tokens.getD i 0
        · -- the same text token
          rw [if_pos heq]
          have htext : a.tokens.getD i 0 ≠ llamaTokenNull := fun hnulla => hnull ⟨hnulla, heq ▸ hnulla⟩
          have hcuta := ha.not_cuts_succ (i := i) (fun hi => htext (Option.some.inj (hleft.symm.trans hi)))
          have hcutb := hb.not_cuts_succ (i := i) (fun hi => htext (heq.trans (Option.some.inj (hright.symm.trans hi))))
          refine ih (maxIdx - (i + 1)) (by omega) (i + 1) ⟨?_, hcuta, hcutb⟩ hlt rfl
          intro j hj
          by_cases hji : j < i
          · exact h.agree j hji
          · obtain rfl : j = i := by omega
            exact .inl ⟨_, htext, hleft, heq ▸ hright⟩
        · rw [if_neg heq]
          refine ⟨i, rfl, h.isGreatest fun hagree => heq ?_⟩
          have htokens := (hagree.tokens ha hb).1
          rw [hleft, hright] at htokens
          exact Option.some.inj htokens
    · rw [if_neg hlt]
      obtain rfl : i = maxIdx := by omega
      refine ⟨i, rfl, h.isGreatest fun hagree => ?_⟩
      have hlength := (hagree.tokens ha hb).2
      omega

/-- **The common prefix of two lists with media**: no exception, the same in both directions, and the largest one. -/
theorem getCommonPrefix_spec (a b : ServerTokens) (ha : a.Describes) (hb : b.Describes) (hma : a.hasMtmd = true)
    (hmb : b.hasMtmd = true) :
    ∃ n, a.getCommonPrefix b = .ok n ∧ b.getCommonPrefix a = .ok n ∧ IsGreatest {n | CommonPrefix a b n} n := by
  obtain ⟨n, hn, hgreatest⟩ := mediaPrefixLoop_spec ha hb 0 (Nat.zero_le _) (CommonPrefix.zero a b)
  obtain ⟨m, hm, hgreatest'⟩ := mediaPrefixLoop_spec hb ha 0 (Nat.zero_le _) (CommonPrefix.zero b a)
  have hsame : m = n := by
    refine hgreatest'.unique ⟨hgreatest.1.symm, fun k hk => hgreatest.2 hk.symm⟩
  refine ⟨n, ?_, ?_, hgreatest⟩
  · rw [getCommonPrefix, if_pos hma]
    exact hn
  · rw [getCommonPrefix, if_pos hmb, ← hsame]
    exact hm

def imageThen (tok : Token) : ServerTokens where
  hasMtmd := true
  mapIdxToMedia := (∅ : Finmap fun _ : ℕ => Media).insert 0 ⟨"img0", 2⟩
  tokens := [llamaTokenNull, llamaTokenNull] ++ [tok]

theorem imageThen_describes {tok : Token} (h : tok ≠ llamaTokenNull) : (imageThen tok).Describes :=
  ((new_describes true).append_media rfl ⟨"img0", 2⟩).append_text (l := [tok]) (by simpa using h.symm)

/-- The same image with different text behind it. -/
theorem getCommonPrefix_image : ∃ n, (imageThen 7).getCommonPrefix (imageThen 8) = .ok n ∧
    (imageThen 8).getCommonPrefix (imageThen 7) = .ok n ∧ IsGreatest {n | CommonPrefix (imageThen 7) (imageThen 8) n} n :=
  getCommonPrefix_spec _ _ (imageThen_describes (by decide)) (imageThen_describes (by decide)) rfl rfl

end ServerTokens

end Server
