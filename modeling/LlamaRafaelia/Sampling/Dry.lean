import LlamaRafaelia.Lib.ZBox
import LlamaRafaelia.Sampling.Penalties
import Mathlib.Data.Int.Order.Basic

/-!
# The repeats that the DRY sampler counts

The sampler looks for ends of the last tokens that appear before in them, and keeps for each token that followed such
an end the longest repeat.  The lengths are found by the Z-algorithm on the tokens read backwards.

* `zStep_box` - **one place**: inside the box, at its end, or outside;
* `dry_repeats` - **the counts are the limited lengths of the repeats, and each token is mapped to the longest one**.
-/

namespace Sampling

open List RingBuffer

abbrev TokenReader := ℕ → Except String Token

/-! ### The Z-algorithm -/

def naiveLoop (rat : TokenReader) (lastN k n : ℕ) : Except String ℕ :=
  if n + k < lastN then do
    let a ← rat n
    let b ← rat (n + k)
    if a = b then naiveLoop rat lastN k (n + 1) else return n
  else return n
termination_by lastN - n

def extendLoop (rat : TokenReader) (lastN k i : ℕ) : Except String ℕ :=
  if i < lastN then do
    let a ← rat i
    let b ← rat (i - k)
    if a = b then extendLoop rat lastN k (i + 1) else return i
  else return i
termination_by lastN - i

/-- `dry_repeat_count` and the bounds of the box. -/
structure ZState where
  dryRepeatCount : List ℤ
  lt : ℕ
  rt : ℕ

def zStep (rat : TokenReader) (lastN : ℕ) (repLimit : ℤ) (st : ZState) (k : ℕ) : Except String ZState :=
  let last := lastN - 1
  if st.rt < k then do
    let n ← naiveLoop rat lastN k 0
    let counts := st.dryRepeatCount.set (last - k) (min (n : ℤ) repLimit)
    if 0 < n then return ⟨counts, k, k + n - 1⟩ else return { st with dryRepeatCount := counts }
  else
    let p := k - st.lt
    let rightPartLen := st.rt - k + 1
    let count := st.dryRepeatCount.getD (last - p) 0
    if count < rightPartLen then
      return { st with dryRepeatCount := st.dryRepeatCount.set (last - k) (min count repLimit) }
    else do
      let i ← extendLoop rat lastN k (st.rt + 1)
      return ⟨st.dryRepeatCount.set (last - k) (min (i - k : ℕ) repLimit), k, i - 1⟩

def repeatCounts (rat : TokenReader) (lastN : ℕ) (repLimit : ℤ) : Except String (List ℤ) := do
  let st ← (range' 1 (lastN - 1)).foldlM (zStep rat lastN repLimit) ⟨replicate lastN 0, 0, 0⟩
  return st.dryRepeatCount

/-! ### The longest repeat of each token -/

/-- A token with the length of a repeat is noted, unless it has a longer one. -/
def noteRepeat (m : CountMap Token) (token : Token) (repeatLen : ℤ) : CountMap Token :=
  match m.lookup token with
  | none => m.insert token repeatLen
  | some other => if other < repeatLen then m.insert token repeatLen else m

def maxStep (rat : TokenReader) (lastN : ℕ) (allowedLength : ℤ) (counts : List ℤ) (m : CountMap Token) (i : ℕ) :
    Except String (CountMap Token) :=
  let repeatLen := counts.getD i 0
  if allowedLength ≤ repeatLen then do
    let token ← rat (lastN - 2 - i)
    return noteRepeat m token repeatLen
  else return m

def maxTokenRepeat (rat : TokenReader) (lastN : ℕ) (allowedLength : ℤ) (counts : List ℤ) : Except String (CountMap Token) :=
  (range (lastN - 1)).foldlM (maxStep rat lastN allowedLength counts) ∅

/-! ### The counts are right -/

open ZBox

variable {rat : TokenReader} {s : ℕ → Token} {lastN k : ℕ} {repLimit : ℤ} {st : ZState}

theorem naiveLoop_spec (hrat : ∀ i < lastN, rat i = .ok (s i)) (n : ℕ) (h : Repeats s lastN k n) :
    ∃ m, naiveLoop rat lastN k n = .ok m ∧ IsZ s lastN k m := by
  induction hd : lastN - n using Nat.strong_induction_on generalizing n with
  | _ d ih =>
    rw [naiveLoop]
    by_cases hlt : n + k < lastN
    · rw [if_pos hlt, hrat n (by omega), hrat (n + k) hlt]
      show ∃ m, (if s n = s (n + k) then naiveLoop rat lastN k (n + 1) else .ok n) = .ok m ∧ _
      by_cases hsame : s n = s (n + k)
      · rw [if_pos hsame]
        exact ih _ (by omega) (n + 1) (h.succ hlt hsame) rfl
      · rw [if_neg hsame]
        exact ⟨n, rfl, h, fun _ => hsame⟩
    · rw [if_neg hlt]
      exact ⟨n, rfl, h, fun hfits => absurd hfits hlt⟩

theorem extendLoop_spec (hrat : ∀ i < lastN, rat i = .ok (s i)) (i : ℕ) (hk : k ≤ i) (h : Repeats s lastN k (i - k)) :
    ∃ i', extendLoop rat lastN k i = .ok i' ∧ i ≤ i' ∧ IsZ s lastN k (i' - k) := by
  induction hd : lastN - i using Nat.strong_induction_on generalizing i with
  | _ d ih =>
    have hadd : i - k + k = i := Nat.sub_add_cancel hk
    rw [extendLoop]
    by_cases hlt : i < lastN
    · rw [if_pos hlt, hrat i hlt, hrat (i - k) (by omega)]
      show ∃ i', (if s i = s (i - k) then extendLoop rat lastN k (i + 1) else .ok i) = .ok i' ∧ _
      by_cases hsame : s i = s (i - k)
      · rw [if_pos hsame]
        have hnext := h.succ (by omega) (by rw [hadd]; exact hsame.symm)
        rw [← Nat.sub_add_comm hk] at hnext
        obtain ⟨i', hi', hle, hz⟩ := ih _ (by omega) (i + 1) (by omega) hnext rfl
        exact ⟨i', hi', by omega, hz⟩
      · rw [if_neg hsame]
        refine ⟨i, rfl, Nat.le_refl i, h, fun _ heq => hsame ?_⟩
        rw [hadd] at heq
        exact heq.symm
    · rw [if_neg hlt]
      exact ⟨i, rfl, Nat.le_refl i, h, fun hfits => absurd hfits (by omega)⟩

/-- **The invariant of the Z-algorithm** before the place `k`: the counts so far are right up to the limit, and the box
repeats the newest tokens. -/
structure Box (s : ℕ → Token) (lastN : ℕ) (repLimit : ℤ) (k : ℕ) (st : ZState) : Prop where
  length : st.dryRepeatCount.length = lastN
  counted : ∀ j, 1 ≤ j → j < k → ∃ n, IsZ s lastN j n ∧ st.dryRepeatCount[lastN - 1 - j]? = some (min (n : ℤ) repLimit)
  before : st.lt < k
  box : st.lt = 0 ∧ st.rt = 0 ∨ 1 ≤ st.lt ∧ st.lt ≤ st.rt ∧ Repeats s lastN st.lt (st.rt + 1 - st.lt)

theorem Box.count (h : Box s lastN repLimit k st) (hk : k < lastN) {n : ℕ} (hn : IsZ s lastN k n) :
    ∀ j, 1 ≤ j → j < k + 1 → ∃ n', IsZ s lastN j n' ∧
      (st.dryRepeatCount.set (lastN - 1 - k) (min (n : ℤ) repLimit))[lastN - 1 - j]? = some (min (n' : ℤ) repLimit) := by
  intro j hj hjk
  by_cases heq : j = k
  · subst heq
    exact ⟨n, hn, getElem?_set_self (by rw [h.length]; omega)⟩
  · obtain ⟨n', hn', hcount⟩ := h.counted j hj (by omega)
    exact ⟨n', hn', by rw [getElem?_set_ne (by omega), hcount]⟩

theorem zStep_box (hrat : ∀ i < lastN, rat i = .ok (s i)) (h : Box s lastN repLimit k st) (hpos : 1 ≤ k) (hk : k < lastN) :
    ∃ st', zStep rat lastN repLimit st k = .ok st' ∧ Box s lastN repLimit (k + 1) st' := by
  simp only [zStep]
  by_cases hout : st.rt < k
  · -- outside of the box
    rw [if_pos hout]
    obtain ⟨n, hn, hz⟩ := naiveLoop_spec hrat 0 (Repeats.zero s hk.le)
    rw [hn]
    have hcount := h.count hk hz
    by_cases hfound : 0 < n
    · refine ⟨⟨st.dryRepeatCount.set (lastN - 1 - k) (min (n : ℤ) repLimit), k, k + n - 1⟩, ?_, ?_, hcount,
        Nat.lt_succ_self k, .inr ⟨hpos, by dsimp only; omega, ?_⟩⟩
      · show (if 0 < n then _ else _) = _
        rw [if_pos hfound]
        rfl
      · exact length_set.trans h.length
      · dsimp only
        rw [show k + n - 1 + 1 - k = n by omega]
        exact hz.repeats
    · refine ⟨{ st with dryRepeatCount := st.dryRepeatCount.set (lastN - 1 - k) (min (n : ℤ) repLimit) }, ?_, ?_, hcount,
        h.before.trans (Nat.lt_succ_self k), h.box⟩
      · show (if 0 < n then _ else _) = _
        rw [if_neg hfound]
        rfl
      · exact length_set.trans h.length
  · rw [if_neg hout]
    obtain ⟨hlt, hle, hbox⟩ : 1 ≤ st.lt ∧ st.lt ≤ st.rt ∧ Repeats s lastN st.lt (st.rt + 1 - st.lt) := by
      rcases h.box with hzero | hbox
      · omega
      · exact hbox
    have hbefore := h.before
    obtain ⟨n, hz, hn⟩ := h.counted (k - st.lt) (by omega) (by omega)
    have hcount : st.dryRepeatCount.getD (lastN - 1 - (k - st.lt)) 0 = min (n : ℤ) repLimit := by
      rw [getD_eq_getElem?_getD, hn, Option.getD_some]
    have hend : st.lt + (st.rt + 1 - st.lt) - k = st.rt - k + 1 := by omega
    rw [hcount]
    by_cases hshort : min (n : ℤ) repLimit < (st.rt - k + 1 : ℕ)
    · -- strictly inside the box, or limited anyway
      rw [if_pos hshort]
      obtain ⟨n', hz', hsame⟩ : ∃ n', IsZ s lastN k n' ∧ min (min (n : ℤ) repLimit) repLimit = min (n' : ℤ) repLimit := by
        by_cases hinside : n < st.rt - k + 1
        · exact ⟨n, IsZ.inside hbox hbefore.le hz (by omega), by omega⟩
        · obtain ⟨n', -, hz'⟩ := naiveLoop_spec hrat 0 (Repeats.zero s hk.le)
          have hrest := Repeats.inside hbox hbefore.le hz.repeats (by omega) (by omega)
          have hmany := hz'.le hrest
          exact ⟨n', hz', by omega⟩
      refine ⟨{ st with dryRepeatCount :=
        st.dryRepeatCount.set (lastN - 1 - k) (min (min (n : ℤ) repLimit) repLimit) }, rfl, ?_, ?_,
        h.before.trans (Nat.lt_succ_self k), h.box⟩
      · exact length_set.trans h.length
      · rw [hsame]
        exact h.count hk hz'
    · -- the repeat goes on at the end of the box
      rw [if_neg hshort]
      have hrest := Repeats.inside hbox hbefore.le hz.repeats (by omega) (by omega)
      rw [hend, show st.rt - k + 1 = st.rt + 1 - k by omega] at hrest
      obtain ⟨i, hi, hile, hz'⟩ := extendLoop_spec hrat (st.rt + 1) (by omega) hrest
      rw [hi]
      refine ⟨⟨st.dryRepeatCount.set (lastN - 1 - k) (min (i - k : ℕ) repLimit), k, i - 1⟩, rfl, ?_, h.count hk hz',
        Nat.lt_succ_self k, .inr ⟨hpos, by dsimp only; omega, ?_⟩⟩
      · exact length_set.trans h.length
      · dsimp only
        rw [show i - 1 + 1 - k = i - k by omega]
        exact hz'.repeats

theorem zLoop_box (hrat : ∀ i < lastN, rat i = .ok (s i)) (n k : ℕ) (st : ZState) (hn : k + n = lastN) (hpos : 1 ≤ k)
    (h : Box s lastN repLimit k st) :
    ∃ st', (range' k n).foldlM (zStep rat lastN repLimit) st = .ok st' ∧ Box s lastN repLimit lastN st' := by
  induction n generalizing k st with
  | zero =>
    obtain rfl : k = lastN := hn
    exact ⟨st, rfl, h⟩
  | succ n ih =>
    obtain ⟨st₁, hst₁, hbox⟩ := zStep_box hrat h hpos (by omega)
    obtain ⟨st', hst', hbox'⟩ := ih (k + 1) st₁ (by omega) (by omega) hbox
    refine ⟨st', ?_, hbox'⟩
    rw [range'_succ, foldlM_cons, hst₁]
    exact hst'

theorem repeatCounts_spec (hrat : ∀ i < lastN, rat i = .ok (s i)) (repLimit : ℤ) :
    ∃ counts, repeatCounts rat lastN repLimit = .ok counts ∧ counts.length = lastN ∧
      ∀ k, 1 ≤ k → k < lastN → ∃ n, IsZ s lastN k n ∧ counts[lastN - 1 - k]? = some (min (n : ℤ) repLimit) := by
  by_cases hempty : lastN = 0
  · subst hempty
    exact ⟨[], rfl, rfl, fun k _ hk => absurd hk (Nat.not_lt_zero k)⟩
  · have hstart : Box s lastN repLimit 1 ⟨replicate lastN 0, 0, 0⟩ :=
      ⟨length_replicate, fun j hj hj' => by omega, Nat.one_pos, .inl ⟨rfl, rfl⟩⟩
    obtain ⟨st, hst, hbox⟩ := zLoop_box hrat (lastN - 1) 1 _ (by omega) (Nat.le_refl 1) hstart
    refine ⟨st.dryRepeatCount, ?_, hbox.length, hbox.counted⟩
    rw [repeatCounts, hst]
    rfl

/-! ### The limit -/

/-! ### The longest repeats -/

/-- The map has the largest number of each token in the set, and no other tokens. -/
structure Keeps (m : CountMap Token) (E : Set (Token × ℤ)) : Prop where
  noted : ∀ token r, m.lookup token = some r → IsGreatest {x | (token, x) ∈ E} r
  absent : ∀ token, m.lookup token = none → ∀ x, (token, x) ∉ E

theorem Keeps.lookup_iff {m : CountMap Token} {E : Set (Token × ℤ)} (h : Keeps m E) (token : Token) (r : ℤ) :
    m.lookup token = some r ↔ IsGreatest {x | (token, x) ∈ E} r := by
  refine ⟨h.noted token r, fun hr => ?_⟩
  cases hlookup : m.lookup token with
  | none => exact absurd hr.1 (h.absent token hlookup r)
  | some r' => rw [(h.noted token r' hlookup).unique hr]

theorem Keeps.note {m : CountMap Token} {E : Set (Token × ℤ)} (h : Keeps m E) (token : Token) (x : ℤ) :
    Keeps (noteRepeat m token x) (insert (token, x) E) := by
  have hother : ∀ t, t ≠ token → (noteRepeat m token x).lookup t = m.lookup t := by
    intro t ht
    rw [noteRepeat]
    split
    · exact Finmap.lookup_insert_of_ne _ ht
    · split
      · exact Finmap.lookup_insert_of_ne _ ht
      · rfl
  have hset : ∀ t, t ≠ token → {y | (t, y) ∈ insert (token, x) E} = {y | (t, y) ∈ E} := by
    intro t ht
    ext y
    simp [ht]
  -- the entry of the token itself
  have hself : ∃ r, (noteRepeat m token x).lookup token = some r ∧ IsGreatest {y | (token, y) ∈ insert (token, x) E} r := by
    rw [noteRepeat]
    cases hlookup : m.lookup token with
    | none =>
      refine ⟨x, Finmap.lookup_insert _, Set.mem_insert _ _, fun y hy => ?_⟩
      rcases hy with heq | hy
      · exact (Prod.mk.inj heq).2.le
      · exact absurd hy (h.absent token hlookup y)
    | some r =>
      have hr := h.noted token r hlookup
      dsimp only
      split
      · rename_i hlt
        refine ⟨x, Finmap.lookup_insert _, Set.mem_insert _ _, fun y hy => ?_⟩
        rcases hy with heq | hy
        · exact (Prod.mk.inj heq).2.le
        · exact (hr.2 hy).trans hlt.le
      · rename_i hge
        refine ⟨r, hlookup, Set.mem_insert_of_mem _ hr.1, fun y hy => ?_⟩
        rcases hy with heq | hy
        · rw [(Prod.mk.inj heq).2]
          exact Int.not_lt.mp hge
        · exact hr.2 hy
  obtain ⟨r₀, hr₀, hgreatest⟩ := hself
  constructor
  · intro t r hr
    by_cases ht : t = token
    · subst ht
      rw [hr₀] at hr
      exact Option.some.inj hr ▸ hgreatest
    · rw [hother t ht] at hr
      rw [hset t ht]
      exact h.noted t r hr
  · intro t ht y hy
    by_cases htoken : t = token
    · subst htoken
      rw [hr₀] at ht
      cases ht
    · rw [hother t htoken] at ht
      rcases hy with heq | hy
      · exact htoken (Prod.mk.inj heq).1
      · exact h.absent t ht y hy

def Followed (s : ℕ → Token) (lastN : ℕ) (allowedLength : ℤ) (counts : List ℤ) (j : ℕ) : Set (Token × ℤ) :=
  {e | ∃ i < j, e = (s (lastN - 2 - i), counts.getD i 0) ∧ allowedLength ≤ counts.getD i 0}

theorem maxLoop_keeps (hrat : ∀ i < lastN, rat i = .ok (s i)) (allowedLength : ℤ) (counts : List ℤ) (j : ℕ)
    (hj : j ≤ lastN - 1) :
    ∃ m, (range j).foldlM (maxStep rat lastN allowedLength counts) ∅ = .ok m ∧
      Keeps m (Followed s lastN allowedLength counts j) := by
  induction j with
  | zero =>
    refine ⟨∅, rfl, fun token r h => ?_, fun token _ x h => ?_⟩
    · rw [Finmap.lookup_empty] at h
      cases h
    · obtain ⟨i, hi, -⟩ := h
      exact absurd hi (Nat.not_lt_zero i)
  | succ j ih =>
    obtain ⟨m, hm, hkeeps⟩ := ih (by omega)
    have hstep : (range (j + 1)).foldlM (maxStep rat lastN allowedLength counts) ∅ =
        maxStep rat lastN allowedLength counts m j := by
      rw [range_succ, foldlM_append, hm]
      exact bind_pure (maxStep rat lastN allowedLength counts m j)
    rw [hstep, maxStep]
    by_cases hlong : allowedLength ≤ counts.getD j 0
    · rw [if_pos hlong, hrat _ (by omega)]
      refine ⟨noteRepeat m (s (lastN - 2 - j)) (counts.getD j 0), rfl, ?_⟩
      have hset : Followed s lastN allowedLength counts (j + 1) =
          insert (s (lastN - 2 - j), counts.getD j 0) (Followed s lastN allowedLength counts j) := by
        ext e
        constructor
        · rintro ⟨i, hi, rfl, hi'⟩
          by_cases hij : i = j
          · exact .inl (hij ▸ rfl)
          · exact .inr ⟨i, by omega, rfl, hi'⟩
        · rintro (rfl | ⟨i, hi, rfl, hi'⟩)
          · exact ⟨j, Nat.lt_succ_self j, rfl, hlong⟩
          · exact ⟨i, hi.trans (Nat.lt_succ_self j), rfl, hi'⟩
      rw [hset]
      exact hkeeps.note _ _
    · rw [if_neg hlong]
      refine ⟨m, rfl, ?_⟩
      have hset : Followed s lastN allowedLength counts (j + 1) = Followed s lastN allowedLength counts j := by
        ext e
        constructor
        · rintro ⟨i, hi, rfl, hi'⟩
          refine ⟨i, ?_, rfl, hi'⟩
          by_contra hij
          obtain rfl : i = j := by omega
          exact hlong hi'
        · rintro ⟨i, hi, rfl, hi'⟩
          exact ⟨i, hi.trans (Nat.lt_succ_self j), rfl, hi'⟩
      rw [hset]
      exact hkeeps

/-! ### Windows of the history -/

/-- The longest common end of the window and of the window without its last `k` tokens. -/
def IsRepeat (window : List Token) (k n : ℕ) : Prop :=
  IsGreatest {n | ∃ u, u.length = n ∧ u <:+ window ∧ u <:+ window.rdrop k} n

/-- **The ring buffer holds the newest tokens of the history.** -/
theorem pushAll_holds {cap : ℕ} (hcap : 0 < cap) (history : List Token) :
    ∃ rb, history.foldlM push_back (new cap) = .ok rb ∧ rb.capacity = cap ∧
      rb.Holds (history.rtake cap) := by
  induction history using reverseRecOn with
  | nil => exact ⟨new cap, rfl, rfl, by simpa using new_holds cap⟩
  | append_singleton history token ih =>
    obtain ⟨rb, hrb, rfl, hholds⟩ := ih
    obtain ⟨hpush, hnext⟩ := hholds.push hcap token
    refine ⟨rb.pushed token, ?_, rfl, ?_⟩
    · rw [foldlM_append, hrb]
      exact (bind_pure _).trans hpush
    · rwa [Penalties.window_concat] at hnext

theorem rat_window {rb : RingBuffer Token} {history : List Token} {cap : ℕ} (h : rb.Holds (history.rtake cap))
    (hlast : lastN ≤ min history.length cap) {i : ℕ} (hi : i < lastN) :
    rb.rat i = .ok ((history.rtake lastN).reverse.getD i 0) := by
  have hhistory : ∀ n, i < n → (history.rtake n).reverse[i]? = history.reverse[i]? := by
    intro n hn
    rw [rtake_eq_reverse_take_reverse, reverse_reverse, getElem?_take_of_lt hn]
  have hlt : i < history.reverse.length := by
    rw [length_reverse]
    omega
  refine h.rat ?_
  rw [hhistory cap (by omega), getD_eq_getElem?_getD, hhistory lastN hi, getElem?_eq_getElem hlt,
    Option.getD_some]

theorem followed_iff {window : List Token} (hk : 1 ≤ k) (hlt : k < window.length) (token : Token) :
    window.rdrop k ++ [token] <+: window ↔ window.reverse.getD (k - 1) 0 = token := by
  have hplace : window.reverse[k - 1]? = window[window.length - k]? := by
    rw [getElem?_reverse (by omega)]
    congr 1
    omega
  have hat : window[window.length - k]? = some window[window.length - k] := getElem?_eq_getElem (by omega)
  rw [getD_eq_getElem?_getD, hplace, hat, Option.getD_some, rdrop]
  constructor
  · rintro ⟨rest, hrest⟩
    have hget := congrArg (fun l => l[window.length - k]?) hrest
    have hlength : (window.take (window.length - k)).length = window.length - k := by
      rw [length_take]
      omega
    rw [append_assoc, getElem?_append_right hlength.le, hlength, Nat.sub_self, singleton_append,
      getElem?_cons_zero, hat] at hget
    exact (Option.some.inj hget).symm
  · rintro rfl
    rw [take_append_getElem (by omega)]
    exact take_prefix _ _

/-- **The repeats of a window**: the counts are the limited lengths, and each token is mapped to the longest repeat of at
least the allowed length that it would extend. -/
theorem dry_repeats {cap : ℕ} (hcap : 0 < cap) (history : List Token) :
    ∃ rb, history.foldlM push_back (new cap) = .ok rb ∧
      ∀ (lastN : ℕ) (repLimit allowedLength : ℤ), lastN ≤ min history.length cap →
        ∃ counts m, repeatCounts rb.rat lastN repLimit = .ok counts ∧
          maxTokenRepeat rb.rat lastN allowedLength counts = .ok m ∧
          (∀ k, 1 ≤ k → k < lastN → ∃ n, IsRepeat (history.rtake lastN) k n ∧
            counts[lastN - 1 - k]? = some (min (n : ℤ) repLimit)) ∧
          ∀ token r, m.lookup token = some r ↔
            IsGreatest {r | ∃ k n, 1 ≤ k ∧ k < lastN ∧ IsRepeat (history.rtake lastN) k n ∧
              (history.rtake lastN).rdrop k ++ [token] <+: history.rtake lastN ∧ r = min (n : ℤ) repLimit ∧
              allowedLength ≤ r} r := by
  obtain ⟨rb, hrb, -, hholds⟩ := pushAll_holds hcap history
  refine ⟨rb, hrb, ?_⟩
  intro lastN repLimit allowedLength hlast
  set window := history.rtake lastN with hwindow
  set s : ℕ → Token := fun i => window.reverse.getD i 0 with hs
  have hlength : window.length = lastN := by
    rw [hwindow, rtake, length_drop]
    omega
  have hrat : ∀ i < lastN, rb.rat i = .ok (s i) := fun i hi => rat_window hholds hlast hi
  have hread : ∀ i < window.length, window.reverse[i]? = some (s i) := by
    intro i hi
    show window.reverse[i]? = some (window.reverse.getD i 0)
    rw [getD_eq_getElem?_getD, getElem?_eq_getElem (by rwa [length_reverse]), Option.getD_some]
  have hrepeat : ∀ k n, k ≤ lastN → (IsZ s lastN k n ↔ IsRepeat window k n) := by
    intro k n hk
    have hiff := isZ_iff_suffix (n := n) hread (hlength ▸ hk)
    rw [hlength] at hiff
    exact hiff
  obtain ⟨counts, hcounts, -, hcounted⟩ := repeatCounts_spec hrat repLimit
  obtain ⟨m, hm, hkeeps⟩ := maxLoop_keeps hrat allowedLength counts (lastN - 1) (Nat.le_refl _)
  have hall : ∀ k, 1 ≤ k → k < lastN → ∃ n, IsRepeat window k n ∧ counts[lastN - 1 - k]? = some (min (n : ℤ) repLimit) := by
    intro k hk hlt
    obtain ⟨n, hz, hn⟩ := hcounted k hk hlt
    exact ⟨n, (hrepeat k n hlt.le).mp hz, hn⟩
  refine ⟨counts, m, hcounts, hm, hall, ?_⟩
  intro token r
  rw [hkeeps.lookup_iff]
  have hset : {x | (token, x) ∈ Followed s lastN allowedLength counts (lastN - 1)} =
      {r | ∃ k n, 1 ≤ k ∧ k < lastN ∧ IsRepeat window k n ∧ window.rdrop k ++ [token] <+: window ∧
        r = min (n : ℤ) repLimit ∧ allowedLength ≤ r} := by
    ext x
    constructor
    · rintro ⟨i, hi, heq, hlong⟩
      obtain ⟨htoken, rfl⟩ := Prod.mk.inj heq
      obtain ⟨n, hn, hcount⟩ := hall (lastN - 1 - i) (by omega) (by omega)
      rw [show lastN - 1 - (lastN - 1 - i) = i by omega] at hcount
      refine ⟨lastN - 1 - i, n, by omega, by omega, hn, ?_, ?_, hlong⟩
      · rw [followed_iff (by omega) (by omega), htoken]
        show window.reverse.getD (lastN - 1 - i - 1) 0 = window.reverse.getD (lastN - 2 - i) 0
        rw [show lastN - 1 - i - 1 = lastN - 2 - i by omega]
      · rw [getD_eq_getElem?_getD, hcount, Option.getD_some]
    · rintro ⟨k, n, hk, hlt, hn, hfollowed, rfl, hlong⟩
      obtain ⟨n', hn', hcount⟩ := hall k hk hlt
      have hsame : n' = n := IsGreatest.unique hn' hn
      subst hsame
      have hget : counts.getD (lastN - 1 - k) 0 = min (n' : ℤ) repLimit := by
        rw [getD_eq_getElem?_getD, hcount, Option.getD_some]
      rw [followed_iff hk (hlength ▸ hlt)] at hfollowed
      refine ⟨lastN - 1 - k, by omega, ?_, by rwa [hget]⟩
      rw [hget, ← hfollowed]
      show _ = (window.reverse.getD (lastN - 2 - (lastN - 1 - k)) 0, _)
      rw [show lastN - 2 - (lastN - 1 - k) = k - 1 by omega]
  rw [hset]

/-- A buffer for four of five tokens. -/
theorem dry_repeats_four : ∃ rb, [1, 2, 3, 1, 2].foldlM push_back (new 4) = .ok rb ∧
    ∃ counts m, repeatCounts rb.rat 4 4 = .ok counts ∧ maxTokenRepeat rb.rat 4 1 counts = .ok m ∧
      ∀ token r, m.lookup token = some r ↔
        IsGreatest {r | ∃ k n, 1 ≤ k ∧ k < 4 ∧ IsRepeat [2, 3, 1, 2] k n ∧
          ([2, 3, 1, 2] : List Token).rdrop k ++ [token] <+: [2, 3, 1, 2] ∧ r = min (n : ℤ) 4 ∧ 1 ≤ r} r := by
  obtain ⟨rb, hrb, h⟩ := dry_repeats (show 0 < 4 by decide) [1, 2, 3, 1, 2]
  obtain ⟨counts, m, hcounts, hm, -, hmap⟩ := h 4 4 1 (by decide)
  exact ⟨rb, hrb, counts, m, hcounts, hm, hmap⟩

end Sampling
