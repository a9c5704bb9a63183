import LlamaRafaelia.Batch.Partition

/-!
# The order of the tokens of a sequence

Tokens that share a sequence should be handed out in batch order (`KeepsOrder`).  The splitters that group tokens by
their sequence sets keep it for batches whose sets fit together, and the test of `init` for that never fires:
`cur_seq_set[s]` is intersected only with sets that contain `s`.

* `split_equal` selects disjoint sets and takes their tokens in lock-step.  It keeps the order if no token
  can be passed by a later one (`EqualNested`).
-/

namespace BatchAllocr

open List Splitter

variable {a : BatchAllocr}

/-- Whenever a token was handed out, all earlier tokens that share a sequence with it came before it. -/
def KeepsOrder (a : BatchAllocr) (placed : List ℕ) : Prop :=
  ∀ l j r, placed = l ++ j :: r → ∀ i < j, (a.seqSet i ∩ a.seqSet j).Nonempty → i ∈ l

namespace KeepsOrder

theorem nil : KeepsOrder a [] := fun l j r h => absurd h (by simp)

theorem mem {placed : List ℕ} (h : KeepsOrder a placed) {i j : ℕ} (hj : j ∈ placed) (hlt : i < j)
    (hshare : (a.seqSet i ∩ a.seqSet j).Nonempty) : i ∈ placed := by
  obtain ⟨l, r, rfl⟩ := append_of_mem hj
  exact mem_append_left _ (h l j r rfl i hlt hshare)

theorem of_append {placed rest : List ℕ} (h : KeepsOrder a (placed ++ rest)) : KeepsOrder a placed := by
  intro l j r heq i hlt hshare
  exact h l j (r ++ rest) (by rw [heq, append_assoc, cons_append]) i hlt hshare

theorem append {placed idxs : List ℕ} (h : KeepsOrder a placed)
    (hnew : ∀ l j r, idxs = l ++ j :: r → ∀ i < j, (a.seqSet i ∩ a.seqSet j).Nonempty → i ∈ placed ++ l) :
    KeepsOrder a (placed ++ idxs) := by
  intro l j r heq i hlt hshare
  rcases append_eq_append_iff.mp heq with ⟨l', hl, hidxs⟩ | ⟨l', hpl, hrest⟩
  · rw [hl]
    exact hnew l' j r hidxs i hlt hshare
  · cases l' with
    | nil =>
      rw [append_nil] at hpl
      rw [nil_append] at hrest
      have := hnew [] j r hrest.symm i hlt hshare
      rwa [hpl, append_nil] at this
    | cons x l' =>
      rw [cons_append, cons.injEq] at hrest
      exact h l j l' (by rw [hpl, hrest.1]) i hlt hshare

theorem snoc {placed : List ℕ} (h : KeepsOrder a placed) {j : ℕ}
    (hnew : ∀ i < j, (a.seqSet i ∩ a.seqSet j).Nonempty → i ∈ placed) : KeepsOrder a (placed ++ [j]) := by
  refine h.append fun l j' r heq i hlt hshare => ?_
  cases l with
  | nil =>
    rw [nil_append, cons.injEq] at heq
    rw [append_nil]
    exact hnew i (heq.1 ▸ hlt) (heq.1 ▸ hshare)
  | cons x l => exact absurd heq (by simp)

end KeepsOrder

/-- What the calls of a splitter take, from `split_reset` until the empty ubatch. -/
def calls (a : BatchAllocr) (sp : Splitter) (nUbatch : ℕ) : List Pick :=
  pickLoop (sp.pick nUbatch) a (a.nTokens + 1) []

/-- The tokens in the order in which the calls of a splitter hand them out. -/
def placedBy (a : BatchAllocr) (sp : Splitter) (nUbatch : ℕ) : List ℕ :=
  (a.calls sp nUbatch).flatMap Pick.idxs

theorem splitLoop_calls (sp : Splitter) (nUbatch : ℕ) :
    (splitLoop (sp.split nUbatch) (a.nTokens + 1) a.splitReset []).value.1
      = (a.calls sp nUbatch).map a.ubatchOf := by
  rw [splitReset_eq, splitLoop_value]
  rfl

theorem placedBy_rounds (sp : Splitter) (nUbatch : ℕ) :
    Rounds a (sp.pick nUbatch) (a.placedBy sp nUbatch) := by
  have h := Rounds.pickLoop (a.nTokens + 1) (Rounds.nil : Rounds a (sp.pick nUbatch) [])
  rwa [nil_append] at h

/-! ### `split_simple` -/

theorem keepsOrder_range (k : ℕ) : KeepsOrder a (range k) := by
  intro l j r heq i hlt _
  have hsorted : (l ++ j :: r).Pairwise (· < ·) := heq ▸ pairwise_lt_range
  have hj : j < k := mem_range.mp (heq ▸ mem_append_right l mem_cons_self)
  have hi : i ∈ l ++ j :: r := heq ▸ mem_range.mpr (hlt.trans hj)
  rcases mem_append.mp hi with hi | hi
  · exact hi
  · rcases mem_cons.mp hi with rfl | hi
    · exact absurd hlt (lt_irrefl i)
    · have := rel_of_pairwise_cons (pairwise_append.mp hsorted).2.1 hi
      omega

theorem simple_keepsOrder {nUbatch : ℕ} {placed : List ℕ} (h : Rounds a (simple.pick nUbatch) placed) :
    KeepsOrder a placed := by
  obtain ⟨k, -, rfl⟩ : ∃ k ≤ a.nTokens, placed = range k := by
    refine h.invariant (fun placed => ∃ k ≤ a.nTokens, placed = range k) ⟨0, Nat.zero_le _, rfl⟩ ?_
    rintro placed p ⟨k, hk, rfl⟩ hp
    exact (simple_pick hk hp).2
  exact keepsOrder_range k

/-! ### `split_equal` -/

/-- No token lies between two others such that `split_equal` could take the third one and leave it. -/
def EqualNested (a : BatchAllocr) : Prop :=
  ∀ t i j, t < i → i < j → j < a.nTokens → (a.seqSet t ∩ a.seqSet i).Nonempty →
    (a.seqSet i ∩ a.seqSet j).Nonempty →
    (a.seqSet t ∩ a.seqSet j).Nonempty ∧ (a.seqSet t = a.seqSet j → a.seqSet i = a.seqSet j)

/-- The token `t` is unused and every unused token before it shares a sequence with one of the sets `cur`,
which comes from a token that is not behind it. -/
def Passed (a : BatchAllocr) (placed : List ℕ) (cur : List (Finset ℕ)) (t : ℕ) : Prop :=
  ∀ i < t, i ∉ placed → ∃ t' ≤ i, t' ∉ placed ∧ a.seqSet t' ∈ cur ∧ (a.seqSet t' ∩ a.seqSet i).Nonempty

theorem Passed.append {placed : List ℕ} {cur : List (Finset ℕ)} {t : ℕ} (h : Passed a placed cur t)
    (more : List (Finset ℕ)) : Passed a placed (cur ++ more) t := by
  intro i hi hnew
  obtain ⟨t', hle, hnew', hcur, hshare⟩ := h i hi hnew
  exact ⟨t', hle, hnew', mem_append_left _ hcur, hshare⟩

def Origins (a : BatchAllocr) (placed : List ℕ) (cur : List (Finset ℕ)) (p : ℕ) : Prop :=
  ∀ set ∈ cur, ∃ t < p, t ∉ placed ∧ a.seqSet t = set ∧ Passed a placed cur t

theorem Origins.add {placed : List ℕ} {cur : List (Finset ℕ)} {p : ℕ} (h : Origins a placed cur p)
    (hpass : Passed a placed cur p) (hnew : p ∉ placed) :
    Origins a placed (cur ++ [a.seqSet p]) (p + 1) := by
  intro set hset
  rcases mem_append.mp hset with hset | hset
  · obtain ⟨t, hlt, hnew', heq, hp⟩ := h set hset
    exact ⟨t, by omega, hnew', heq, hp.append _⟩
  · exact ⟨p, Nat.lt_succ_self p, hnew, (mem_singleton.mp hset).symm, hpass.append _⟩

theorem equalSets_origins (hne : ∀ i < a.nTokens, (a.seqSet i).Nonempty) {placed : List ℕ} (nUbatch m p : ℕ)
    (hm : p + m ≤ a.nTokens) (cur : List (Finset ℕ)) (last : ℤ) (h : Origins a placed cur p)
    (hpass : Passed a placed cur p) :
    Origins a placed ((a.after placed).equalSets nUbatch false (range' p m) cur last) (p + m) := by
  induction m generalizing p cur last with
  | zero => exact h
  | succ m ih =>
    have hp : p < a.nTokens := by omega
    have hsum : p + 1 + m = p + (m + 1) := by omega
    -- what is passed at `p` is passed at `p + 1` once `p` itself is accounted for
    have hnext : ∀ cur, Passed a placed cur p →
        (p ∉ placed → ∃ t' ≤ p, t' ∉ placed ∧ a.seqSet t' ∈ cur ∧ (a.seqSet t' ∩ a.seqSet p).Nonempty) →
        Passed a placed cur (p + 1) := by
      intro cur hcur hat i hi hnew
      rcases Nat.lt_succ_iff_lt_or_eq.mp hi with hi | rfl
      · exact hcur i hi hnew
      · exact hat hnew
    have hwide : ∀ cur, Origins a placed cur p → Origins a placed cur (p + 1) := by
      intro cur hcur set hset
      obtain ⟨t, hlt, hrest⟩ := hcur set hset
      exact ⟨t, by omega, hrest⟩
    rw [range'_succ]
    simp only [equalSets, after_usedAt a hp, decide_eq_true_eq]
    split
    · next hused =>
      rw [← hsum]
      exact ih (p + 1) (by omega) cur last (hwide cur h) (hnext cur hpass fun hnew => absurd hused hnew)
    next hnew =>
    split
    · have hadd : Origins a placed (cur ++ [a.seqSet p]) (p + 1) := h.add hpass hnew
      have hpass' : Passed a placed (cur ++ [a.seqSet p]) (p + 1) := by
        refine hnext _ (hpass.append _) fun _ => ⟨p, le_refl p, hnew, by simp, ?_⟩
        rw [Finset.inter_self]
        exact hne p hp
      split
      · intro set hset
        obtain ⟨t, hlt, hrest⟩ := hadd set hset
        exact ⟨t, by omega, hrest⟩
      · rw [← hsum]
        exact ih (p + 1) (by omega) _ _ hadd hpass'
    · next hcond =>
      -- a set that was selected overlaps the set of `p`
      have hover : ∃ set ∈ cur, (set ∩ a.seqSet p).Nonempty := by
        by_contra hnone
        simp only [not_exists, not_and, Finset.not_nonempty_iff_eq_empty] at hnone
        exact hcond ⟨hnone, by simp⟩
      obtain ⟨set, hset, hshare⟩ := hover
      obtain ⟨t, hlt, hnew', heq, -⟩ := h set hset
      rw [← hsum]
      refine ih (p + 1) (by omega) cur last (hwide cur h) (hnext cur hpass fun _ => ?_)
      exact ⟨t, by omega, hnew', heq ▸ hset, heq ▸ hshare⟩

theorem Selected.setIdxs_sorted {placed : List ℕ} {cur : List (Finset ℕ)} (h : Selected a placed cur)
    (hne : ∀ i < a.nTokens, (a.seqSet i).Nonempty) (k : ℕ) :
    (a.setIdxs placed cur k).Pairwise fun i j => a.seqSet i = a.seqSet j → i < j := by
  refine pairwise_flatMap.mpr ⟨fun set _ => ?_, h.disjoint.imp fun {set set'} hdisj i hi j hj heq => ?_⟩
  · refine List.Pairwise.imp ?_ ((unusedIn_sorted placed set).sublist (take_sublist k _))
    exact fun hlt _ => hlt
  · obtain ⟨hlt, hset, -⟩ := (mem_unusedIn).mp (mem_of_mem_take hi)
    obtain ⟨-, hset', -⟩ := (mem_unusedIn).mp (mem_of_mem_take hj)
    rw [← hset, ← hset', ← heq, Finset.inter_self] at hdisj
    exact absurd hdisj (hne i hlt).ne_empty

/-- A ubatch of `split_equal` keeps the order if no token that is left shares a sequence with a later token
of the ubatch unless their sets are the same. -/
theorem equal_keepsOrder_step (hne : ∀ i < a.nTokens, (a.seqSet i).Nonempty) {placed : List ℕ}
    (h : KeepsOrder a placed) {cur : List (Finset ℕ)} (hsel : Selected a placed cur) (k : ℕ)
    (hsame : ∀ i j, i < j → j < a.nTokens → i ∉ placed → j ∉ placed → a.seqSet j ∈ cur →
      (a.seqSet i ∩ a.seqSet j).Nonempty → a.seqSet i = a.seqSet j) :
    KeepsOrder a (placed ++ a.setIdxs placed cur k) := by
  refine h.append fun l j r heq i hlt hshare => ?_
  by_cases hold : i ∈ placed
  · exact mem_append_left _ hold
  have hj : j ∈ a.setIdxs placed cur k := heq ▸ mem_append_right l mem_cons_self
  obtain ⟨set, hcur, htake⟩ := (mem_setIdxs).mp hj
  obtain ⟨hjlt, hjset, hjnew⟩ := (mem_unusedIn).mp (mem_of_mem_take htake)
  have hsets : a.seqSet i = a.seqSet j := hsame i j hlt hjlt hold hjnew (hjset ▸ hcur) hshare
  have hi : i ∈ a.setIdxs placed cur k := by
    refine (mem_setIdxs).mpr ⟨set, hcur, mem_take_of_lt (unusedIn_sorted placed set) ?_ htake hlt⟩
    exact (mem_unusedIn).mpr ⟨hlt.trans hjlt, hsets.trans hjset, hold⟩
  have hsorted := hsel.setIdxs_sorted hne k
  rw [heq] at hi hsorted
  rcases mem_append.mp hi with hi | hi
  · exact mem_append_right _ hi
  · rcases mem_cons.mp hi with rfl | hi
    · exact absurd hlt (lt_irrefl i)
    · have := rel_of_pairwise_cons (pairwise_append.mp hsorted).2.1 hi hsets.symm
      omega

theorem Selected.disjoint_of_ne {placed : List ℕ} {cur : List (Finset ℕ)} (h : Selected a placed cur)
    {s t : Finset ℕ} (hs : s ∈ cur) (ht : t ∈ cur) (hne : s ≠ t) : s ∩ t = ∅ := by
  have : Std.Symm fun s t : Finset ℕ => s ∩ t = ∅ := ⟨fun s t hst => by rwa [Finset.inter_comm]⟩
  exact h.disjoint.forall hs ht hne

theorem EqualNested.same (h : EqualNested a) {placed : List ℕ} {cur : List (Finset ℕ)}
    (hsel : Selected a placed cur) (horig : Origins a placed cur a.nTokens) :
    ∀ i j, i < j → j < a.nTokens → i ∉ placed → j ∉ placed → a.seqSet j ∈ cur →
      (a.seqSet i ∩ a.seqSet j).Nonempty → a.seqSet i = a.seqSet j := by
  intro i j hlt hj hi _ hcur hshare
  obtain ⟨t, -, -, heq, hpass⟩ := horig _ hcur
  -- a token of the set of `j` in front of `i` makes the sets equal
  have hfront : ∀ t' < i, a.seqSet t' = a.seqSet j → a.seqSet i = a.seqSet j := by
    intro t' ht' heq'
    have hshare' : (a.seqSet t' ∩ a.seqSet i).Nonempty := by rwa [heq', Finset.inter_comm]
    exact (h t' i j ht' hlt hj hshare' hshare).2 heq'
  rcases lt_trichotomy t i with hti | rfl | hit
  · exact hfront t hti heq
  · exact heq
  · -- `i` was passed because of a set selected before; that set is the set of `j` or disjoint from it
    obtain ⟨t', hle, -, hcur', hshare'⟩ := hpass i hit hi
    by_cases hsame : a.seqSet t' = a.seqSet j
    · rcases Nat.lt_or_eq_of_le hle with hlt' | rfl
      · exact hfront t' hlt' hsame
      · exact hsame
    · have hdisj : a.seqSet t' ∩ a.seqSet j = ∅ :=
        hsel.disjoint_of_ne hcur' hcur hsame
      rcases Nat.lt_or_eq_of_le hle with hlt' | rfl
      · exact absurd hdisj (h t' i j hlt' hlt hj hshare' hshare).1.ne_empty
      · exact absurd hdisj hshare.ne_empty

theorem equal_keepsOrder (hn : 0 < a.nTokens) (hne : ∀ i < a.nTokens, (a.seqSet i).Nonempty)
    (h : EqualNested a) {nUbatch : ℕ} {placed : List ℕ}
    (hr : Rounds a ((equal false).pick nUbatch) placed) : KeepsOrder a placed := by
  suffices hinv : SetOrder a placed ∧ KeepsOrder a placed from hinv.2
  refine hr.invariant (fun placed => SetOrder a placed ∧ KeepsOrder a placed)
    ⟨fun _ _ _ _ _ hmem => absurd hmem (by simp), KeepsOrder.nil⟩ ?_
  rintro placed p ⟨hord, hkeep⟩ hp
  obtain ⟨-, -, k, -, hidxs, -⟩ := equal_pick hn hord hp
  rw [hidxs]
  have hsel := equalSets_selected (a := a) placed nUbatch false
  have horig := equalSets_origins hne nUbatch a.nTokens 0 (by omega) [] (-1)
    (fun set hset => absurd hset (by simp)) (fun i hi => absurd hi (Nat.not_lt_zero i) : Passed a placed [] 0)
  rw [Nat.zero_add, ← range_eq_range'] at horig
  exact ⟨hord.setIdxs _ k, equal_keepsOrder_step hne hkeep hsel k (h.same hsel horig)⟩

theorem sequential_keepsOrder (hn : 0 < a.nTokens) (hne : ∀ i < a.nTokens, (a.seqSet i).Nonempty)
    {nUbatch : ℕ} {placed : List ℕ} (hr : Rounds a ((equal true).pick nUbatch) placed) :
    KeepsOrder a placed := by
  cases hcpl : a.hasCpl with
  | true =>
    refine hr.invariant _ KeepsOrder.nil fun placed p _ hp => ?_
    have hcpl' : (a.after placed).hasCpl = true := hcpl
    simp [pick, hcpl'] at hp
  | false =>
    suffices hinv : SetOrder a placed ∧ KeepsOrder a placed from hinv.2
    refine hr.invariant (fun placed => SetOrder a placed ∧ KeepsOrder a placed)
      ⟨fun _ _ _ _ _ hmem => absurd hmem (by simp), KeepsOrder.nil⟩ ?_
    rintro placed p ⟨hord, hkeep⟩ hp
    obtain ⟨-, -, k, -, hidxs, -⟩ := equal_pick hn hord hp
    rw [hidxs]
    refine ⟨hord.setIdxs _ k, equal_keepsOrder_step hne hkeep (equalSets_selected placed nUbatch true) k ?_⟩
    -- every token has one sequence, so sets that share one are equal
    have hsingle : ∀ i < a.nTokens, ∃ q, a.seqSet i = {q} := by
      intro i hi
      have hall := any_eq_false.mp hcpl i (mem_range.mpr hi)
      rw [decide_eq_true_eq] at hall
      cases hseq : a.seqAt i with
      | nil => exact absurd (hne i hi) (by simp [seqSet, hseq])
      | cons q rest =>
        rw [hseq, length_cons] at hall
        have hnil : rest = [] := eq_nil_of_length_eq_zero (by omega)
        exact ⟨q, by simp [seqSet, hseq, hnil]⟩
    intro i j hlt hj _ _ _ hshare
    obtain ⟨q, hq⟩ := hsingle i (hlt.trans hj)
    obtain ⟨q', hq'⟩ := hsingle j hj
    rw [hq, hq'] at hshare ⊢
    obtain ⟨x, hx⟩ := hshare
    simp only [Finset.mem_inter, Finset.mem_singleton] at hx
    rw [← hx.1, hx.2]

/-! ### `split_seq` -/

/-- No jump of `split_seq` passes a token that shares a sequence with the token it jumps to. -/
def SeqNested (a : BatchAllocr) : Prop :=
  ∀ x i j, x < i → i < j → j < a.nTokens → a.seqSet j ⊆ a.seqSet x →
    (∀ y, x < y → y < j → ¬ a.seqSet y ⊆ a.seqSet x) → a.seqSet i ∩ a.seqSet j = ∅

theorem inter_eq_right_iff {s t : Finset ℕ} : s ∩ t ≠ t ↔ ¬ t ⊆ s := by
  rw [Ne, Finset.inter_eq_right]

theorem KeepsOrder.not_mem_of_subset (hne : ∀ i < a.nTokens, (a.seqSet i).Nonempty) {placed : List ℕ}
    (h : KeepsOrder a placed) {x j : ℕ} (hx : x ∉ placed) (hlt : x < j) (hj : j < a.nTokens)
    (hsub : a.seqSet j ⊆ a.seqSet x) : j ∉ placed := by
  intro hmem
  refine hx (h.mem hmem hlt ?_)
  rw [Finset.inter_eq_right.mpr hsub]
  exact hne j hj

theorem SeqNested.seqLoop (hnest : SeqNested a) (hne : ∀ i < a.nTokens, (a.seqSet i).Nonempty)
    {placed : List ℕ} (hkeep : KeepsOrder a placed) (nUbatch m p : ℕ) (hm : p + m ≤ a.nTokens) {x : ℕ}
    (hx : x ∉ placed) (hxp : x < p) (hjump : ∀ y, x < y → y < p → ¬ a.seqSet y ⊆ a.seqSet x)
    (idxs : List ℕ) (hmem : x ∈ idxs) (h : KeepsOrder a (placed ++ idxs)) :
    KeepsOrder a (placed ++ (a.after placed).seqLoop nUbatch (range' p m) (a.seqSet x) idxs) := by
  induction m generalizing p x idxs with
  | zero => exact h
  | succ m ih =>
    have hp : p < a.nTokens := by omega
    rw [range'_succ]
    simp only [BatchAllocr.seqLoop, after_usedAt a hp, decide_eq_true_eq]
    split
    · exact h
    split
    · next hskip =>
      refine ih (p + 1) (by omega) hx (by omega) (fun y hxy hy => ?_) idxs hmem h
      rcases Nat.lt_succ_iff_lt_or_eq.mp hy with hy | rfl
      · exact hjump y hxy hy
      · intro hsub
        rcases hskip with hused | hnot
        · exact hkeep.not_mem_of_subset hne hx hxp hp hsub hused
        · exact (inter_eq_right_iff).mp hnot hsub
    · next htake =>
      rw [not_or, inter_eq_right_iff, not_not] at htake
      obtain ⟨hnew, hsub⟩ := htake
      refine ih (p + 1) (by omega) hnew (Nat.lt_succ_self p) (fun y hy hy' => by omega) (idxs ++ [p])
        (by simp) ?_
      rw [← append_assoc]
      refine h.snoc fun i hi hshare => ?_
      rcases lt_trichotomy i x with hix | rfl | hxi
      · -- what shares a sequence with `p` shares it with `x`
        refine h.mem (mem_append_right _ hmem) hix ?_
        exact hshare.mono (Finset.inter_subset_inter_left hsub)
      · exact mem_append_right _ hmem
      · exact absurd (hnest x i p hxi hi hp hsub hjump) hshare.ne_empty

theorem seq_pick {placed : List ℕ} {nUbatch : ℕ} {p : Pick}
    (hp : seq.pick nUbatch (a.after placed) = some p) :
    ∃ f < a.nTokens, f ∉ placed ∧ (∀ i < f, i ∈ placed) ∧
      p.idxs = (a.after placed).seqLoop nUbatch (range' (f + 1) (a.nTokens - (f + 1))) (a.seqSet f) [f] := by
  simp only [pick, after_used_length] at hp
  split at hp
  · exact absurd hp (by simp)
  · next hle =>
    rw [Nat.not_le] at hle
    rw [Option.some.injEq] at hp
    refine ⟨(a.after placed).firstUnused, hle, firstUnused_not_mem hle, fun i hi => ?_, ?_⟩
    · by_contra hnew
      have := firstUnused_le (a := a) hnew
      omega
    · rw [← hp]
      rfl

theorem seq_keepsOrder (hne : ∀ i < a.nTokens, (a.seqSet i).Nonempty) (hnest : SeqNested a) {nUbatch : ℕ}
    {placed : List ℕ} (hr : Rounds a (seq.pick nUbatch) placed) : KeepsOrder a placed := by
  refine hr.invariant _ KeepsOrder.nil fun placed p hkeep hp => ?_
  obtain ⟨f, hf, hnew, hfirst, hidxs⟩ := seq_pick hp
  rw [hidxs]
  exact hnest.seqLoop hne hkeep nUbatch _ (f + 1) (by omega) hnew (Nat.lt_succ_self f)
    (fun y hy hy' => by omega) [f] (by simp) (hkeep.snoc fun i hi _ => hfirst i hi)

theorem seqLoop_jump {placed : List ℕ} {x j : ℕ} (hnew : j ∉ placed) (hsub : a.seqSet j ⊆ a.seqSet x)
    (hjump : ∀ y, x < y → y < j → ¬ a.seqSet y ⊆ a.seqSet x) {nUbatch m p : ℕ} (hm : p + m ≤ a.nTokens)
    (hxp : x < p) (hpj : p ≤ j) (hjm : j < p + m) (l : List ℕ) (hroom : (l ++ [x]).length < nUbatch) :
    ∃ r, (a.after placed).seqLoop nUbatch (range' p m) (a.seqSet x) (l ++ [x]) = l ++ x :: j :: r := by
  induction m generalizing p with
  | zero => omega
  | succ m ih =>
    have hp : p < a.nTokens := by omega
    rw [range'_succ]
    simp only [BatchAllocr.seqLoop, after_usedAt a hp, decide_eq_true_eq, if_neg (Nat.not_le.mpr hroom)]
    rcases Nat.lt_or_eq_of_le hpj with hlt | rfl
    · have hskip : p ∈ placed ∨ a.seqSet x ∩ (a.after placed).seqSet p ≠ (a.after placed).seqSet p :=
        Or.inr ((inter_eq_right_iff).mpr (hjump p hxp hlt))
      rw [if_pos hskip]
      exact ih (by omega) (by omega) (by omega) (by omega)
    · have htake : ¬ (p ∈ placed ∨ a.seqSet x ∩ (a.after placed).seqSet p ≠ (a.after placed).seqSet p) := by
        rw [not_or, inter_eq_right_iff, not_not]
        exact ⟨hnew, hsub⟩
      rw [if_neg htake]
      obtain ⟨r, hr, -⟩ := seqLoop_sublist (a := a) placed nUbatch (range' (p + 1) m)
        (fun i hi => by have := mem_range'_1.mp hi; omega) ((a.after placed).seqSet p) (l ++ [x] ++ [p])
      exact ⟨r, by rw [hr]; simp⟩

theorem seqLoop_follow {placed : List ℕ} {x j : ℕ} (hnew : j ∉ placed) (hsub : a.seqSet j ⊆ a.seqSet x)
    (hlt : x < j) (hjump : ∀ y, x < y → y < j → ¬ a.seqSet y ⊆ a.seqSet x) {nUbatch m p : ℕ}
    (hm : p + m ≤ a.nTokens) (hjm : j < p + m) (cur : Finset ℕ) (idxs : List ℕ) (hx : x ∉ idxs)
    (hroom : idxs.length + m < nUbatch)
    (hmem : x ∈ (a.after placed).seqLoop nUbatch (range' p m) cur idxs) :
    ∃ l r, (a.after placed).seqLoop nUbatch (range' p m) cur idxs = l ++ x :: j :: r := by
  induction m generalizing p cur idxs with
  | zero => exact absurd hmem (by simpa [BatchAllocr.seqLoop] using hx)
  | succ m ih =>
    have hp : p < a.nTokens := by omega
    rw [range'_succ] at hmem ⊢
    have hlen : ¬ nUbatch ≤ idxs.length := by omega
    simp only [BatchAllocr.seqLoop, after_usedAt a hp, decide_eq_true_eq, if_neg hlen] at hmem ⊢
    split
    · next hskip =>
      rw [if_pos hskip] at hmem
      exact ih (by omega) (by omega) cur idxs hx (by omega) hmem
    · next htake =>
      rw [if_neg htake] at hmem
      have hroom' : (idxs ++ [p]).length + m < nUbatch := by
        rw [length_append, length_singleton]
        omega
      by_cases heq : x = p
      · subst heq
        obtain ⟨r, hr⟩ := seqLoop_jump hnew hsub hjump (p := x + 1) (m := m) (by omega) (Nat.lt_succ_self x)
          hlt (by omega) idxs (Nat.lt_of_le_of_lt (Nat.le_add_right _ _) hroom')
        exact ⟨idxs, r, hr⟩
      · exact ih (by omega) (by omega) _ (idxs ++ [p]) (by simp [hx, heq]) hroom' hmem

theorem Rounds.find {pick : BatchAllocr → Option Pick} {placed : List ℕ} (h : Rounds a pick placed) {x : ℕ}
    (hx : x ∈ placed) :
    ∃ before p rest, placed = before ++ p.idxs ++ rest ∧ pick (a.after before) = some p ∧ x ∉ before ∧
      x ∈ p.idxs := by
  induction h with
  | nil => exact absurd hx (by simp)
  | @round placed p _ hp ih =>
    by_cases hold : x ∈ placed
    · obtain ⟨before, q, rest, rfl, hq⟩ := ih hold
      exact ⟨before, q, rest ++ p.idxs, by simp, hq⟩
    · exact ⟨placed, p, [], by simp, hp, hold, (mem_append.mp hx).resolve_left hold⟩

theorem seqNested_of_keepsOrder (hne : ∀ i < a.nTokens, (a.seqSet i).Nonempty) {nUbatch : ℕ}
    (hroom : a.nTokens < nUbatch) {placed : List ℕ} (hr : Rounds a (seq.pick nUbatch) placed)
    (hall : ∀ i < a.nTokens, i ∈ placed) (hkeep : KeepsOrder a placed) : SeqNested a := by
  intro x i j hxi hij hj hsub hjump
  by_contra hshare
  rw [← Ne, ← Finset.nonempty_iff_ne_empty] at hshare
  obtain ⟨before, p, rest, rfl, hp, hx, hmem⟩ := hr.find (hall x (by omega))
  have hkeep' : KeepsOrder a (before ++ p.idxs) := hkeep.of_append
  have hnew : j ∉ before := hkeep'.of_append.not_mem_of_subset hne hx (hxi.trans hij) hj hsub
  have hnodup : (before ++ p.idxs).Nodup := by
    have := (seq_progress nUbatch).nodup hr
    exact (nodup_append.mp this).1
  -- the round goes on from `x` to `j`
  obtain ⟨l, r, hidxs⟩ : ∃ l r, p.idxs = l ++ x :: j :: r := by
    obtain ⟨f, hf, -, -, hloop⟩ := seq_pick hp
    rw [hloop] at hmem ⊢
    by_cases heq : x = f
    · subst heq
      have hone : ([] ++ [x] : List ℕ).length < nUbatch := by
        rw [nil_append, length_singleton]
        omega
      exact ⟨[], seqLoop_jump hnew hsub hjump (by omega) (Nat.lt_succ_self x) (hxi.trans hij) (by omega) []
        hone⟩
    · have hfx : f + 1 ≤ x := by
        obtain ⟨l, hl, hsubl, -⟩ := seqLoop_sublist (a := a) before nUbatch
          (range' (f + 1) (a.nTokens - (f + 1)))
          (fun i hi => by have := mem_range'_1.mp hi; omega) (a.seqSet f) [f]
        rw [hl] at hmem
        have hxl := (mem_append.mp hmem).resolve_left (by simpa using heq)
        exact (mem_range'_1.mp (hsubl.subset hxl)).1
      exact seqLoop_follow hnew hsub (hxi.trans hij) hjump (by omega) (by omega) _ [f] (by simpa using heq)
        (by rw [length_singleton]; omega) hmem
  -- so `i` was handed out before `j`, hence before `x`, although `x` comes first
  have hi : i ∈ before ++ l ++ [x] :=
    hkeep' (before ++ l ++ [x]) j r (by rw [hidxs]; simp) i hij hshare
  have hi' : i ∈ before ++ l := by
    rcases mem_append.mp hi with hi | hi
    · exact hi
    · have := mem_singleton.mp hi
      omega
  have hshare' : (a.seqSet x ∩ a.seqSet i).Nonempty := by
    rw [Finset.inter_comm]
    exact hshare.mono (Finset.inter_subset_inter_left hsub)
  have hkeepl : KeepsOrder a (before ++ l) := by
    rw [hidxs, ← append_assoc] at hkeep'
    exact hkeep'.of_append
  have hxl : x ∈ before ++ l := hkeepl.mem hi' hxi hshare'
  rw [hidxs, ← append_assoc] at hnodup
  exact (nodup_append.mp hnodup).2.2 x hxl x (by simp) rfl

theorem seq_keepsOrder_iff (hne : ∀ i < a.nTokens, (a.seqSet i).Nonempty) :
    (∀ nUbatch, 1 ≤ nUbatch → KeepsOrder a (a.placedBy .seq nUbatch)) ↔ SeqNested a := by
  constructor
  · intro h
    have hprog : Progress a (seq.pick (a.nTokens + 1)) := seq_progress (a.nTokens + 1)
    have hlast := (hprog.pickLoop_ends (a.nTokens + 1) Rounds.nil (by simp)).2
    refine seqNested_of_keepsOrder hne (Nat.lt_succ_self _) (placedBy_rounds .seq (a.nTokens + 1)) ?_
      (h (a.nTokens + 1) (by omega))
    exact hprog.ended _ (placedBy_rounds .seq (a.nTokens + 1)) hlast
  · intro h nUbatch _
    exact seq_keepsOrder hne h (placedBy_rounds .seq nUbatch)

/-- **The order of the tokens of a sequence.**  The ubatches of a splitter are those of its calls.
`split_simple` hands out tokens that share a sequence in batch order.  Where every token lists a sequence, the
sequential `split_equal` does so too; `split_seq` does so, for every `n_ubatch`, exactly if no jump passes a token; the
other `split_equal` does so if no token can be passed by a later one. -/
theorem split_keepsOrder {nPosPerEmbd nVocab : ℕ} {b : Batch} {memory : Option Memory} {nSeqMax : ℕ}
    {outputAll : Bool} (hc : (init nPosPerEmbd nVocab b memory nSeqMax outputAll).checks = true)
    (hinit : (init nPosPerEmbd nVocab b memory nSeqMax outputAll).value = .ok a) :
    (∀ sp nUbatch, (splitLoop (sp.split nUbatch) (a.nTokens + 1) a.splitReset []).value.1
      = (a.calls sp nUbatch).map a.ubatchOf) ∧
    (∀ nUbatch, 1 ≤ nUbatch → KeepsOrder a (a.placedBy .simple nUbatch)) ∧
    (b.Listed →
      (∀ nUbatch, 1 ≤ nUbatch → KeepsOrder a (a.placedBy (.equal true) nUbatch)) ∧
      ((∀ nUbatch, 1 ≤ nUbatch → KeepsOrder a (a.placedBy .seq nUbatch)) ↔ SeqNested a) ∧
      (EqualNested a → ∀ nUbatch, 1 ≤ nUbatch → KeepsOrder a (a.placedBy (.equal false) nUbatch))) := by
  have hn := init_nTokens_pos hc hinit
  refine ⟨splitLoop_calls, fun nUbatch _ => simple_keepsOrder (placedBy_rounds .simple nUbatch), fun hlist => ?_⟩
  have hne := init_seqSet_nonempty hlist hinit
  refine ⟨fun nUbatch _ => ?_, seq_keepsOrder_iff hne, fun hnest nUbatch _ => ?_⟩
  · exact sequential_keepsOrder hn hne (placedBy_rounds (.equal true) nUbatch)
  · exact equal_keepsOrder hn hne hnest (placedBy_rounds (.equal false) nUbatch)

def forked : Batch := .text [0, 1, 1] [[0, 1], [0], [1]] rfl

/-- `forked` as `init` accepts it. -/
def forkedAccepted : BatchAllocr := (sanitize 1 forked none 2 false).splitReset

example : forkedAccepted.placedBy (.equal false) 2 = [0, 1, 2] := by decide +kernel

theorem forked_init : (init 1 1 forked none 2 false).value = .ok forkedAccepted := init_eq (by decide +kernel)

theorem forked_nested : EqualNested forkedAccepted := by
  intro t i j hti hij hj _ hshare
  have hj3 : j < 3 := hj
  obtain rfl : j = 2 := by omega
  obtain rfl : i = 1 := by omega
  exact absurd hshare (by decide +kernel)

theorem split_keepsOrder_forked : KeepsOrder forkedAccepted (forkedAccepted.placedBy (.equal false) 2) :=
  ((split_keepsOrder (by decide +kernel) forked_init).2.2 (by decide)).2.2 forked_nested 2 (by decide)

/-- `split_equal` takes the two tokens of the sequences 0 and 1 together and the token of sequence 0 between
them afterwards. -/
theorem overlapping_reordered :
    (init 1 1 overlapping none 2 false).value = .ok overlappingAccepted ∧
      ¬ KeepsOrder overlappingAccepted (overlappingAccepted.placedBy (.equal false) 2) := by
  have hplaced : overlappingAccepted.placedBy (.equal false) 2 = [0] ++ 2 :: [1] := by decide +kernel
  have hshare : (overlappingAccepted.seqSet 1 ∩ overlappingAccepted.seqSet 2).Nonempty := by decide +kernel
  refine ⟨overlapping_init, fun h => ?_⟩
  have := h [0] 2 [1] hplaced 1 (by decide) hshare
  exact absurd this (by decide)

end BatchAllocr
