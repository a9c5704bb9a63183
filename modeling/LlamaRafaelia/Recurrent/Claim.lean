import LlamaRafaelia.Recurrent.Tails
import Mathlib.Logic.Equiv.Basic
import Mathlib.Data.Nat.ModEq

/-!
# `find_slot`, first half: a cell for every sequence of the ubatch

The first loop of `find_slot` takes the sequences that become shared out of their cells; the second gives the first
sequence of every set a cell of its own.  In between the tail table is not exact (`Claimed`): a sequence without a
state gets the tail `e` while cell `e` stays empty.  The search for the next empty cell does not come back to one that
was given away as long as a free one is left.
-/

namespace Recurrent

open List Checked Nat

variable {st st₁ : Recurrent}

/-! ### Ubatches -/

/-- The sequences of set `s` of a ubatch. -/
def setOf (u : Ubatch) (s : ℕ) : List ℕ := u.seqAt (s * u.nSeqTokens)

/-- The sequences that a ubatch lists behind the first one of their set. -/
def shared (u : Ubatch) : Finset ℕ := ((List.range u.nSeqs).flatMap fun s => (setOf u s).tail).toFinset

/-- What `find_slot` relies on: disjoint sets of sequences below `size`, with equally many tokens. -/
structure SlotUbatch (size : ℕ) (u : Ubatch) : Prop where
  equal : u.bEqualSeqs = true
  nSeqs_pos : 0 < u.nSeqs
  ne : ∀ s < u.nSeqs, setOf u s ≠ []
  lt : ∀ s < u.nSeqs, ∀ q ∈ setOf u s, q < size
  disjoint : ∀ s < u.nSeqs, ∀ s' < u.nSeqs, s ≠ s' → ∀ q ∈ setOf u s, q ∉ setOf u s'

namespace SlotUbatch

variable {size : ℕ} {u : Ubatch} (hu : SlotUbatch size u)
include hu

theorem setOf_eq {s : ℕ} (hs : s < u.nSeqs) : setOf u s = firstOf u s :: (setOf u s).tail := by
  have hne := hu.ne s hs
  unfold firstOf
  cases hset : setOf u s with
  | nil => exact absurd hset hne
  | cons q l =>
    unfold setOf at hset
    rw [hset]
    rfl

theorem firstOf_mem {s : ℕ} (hs : s < u.nSeqs) : firstOf u s ∈ setOf u s := by
  rw [hu.setOf_eq hs]
  exact mem_cons_self

theorem firstOf_lt {s : ℕ} (hs : s < u.nSeqs) : firstOf u s < size := hu.lt s hs _ (hu.firstOf_mem hs)

theorem firstOf_inj {s s' : ℕ} (hs : s < u.nSeqs) (hs' : s' < u.nSeqs) (h : firstOf u s = firstOf u s') :
    s = s' := by
  by_contra hne
  exact hu.disjoint s hs s' hs' hne _ (hu.firstOf_mem hs) (h ▸ hu.firstOf_mem hs')

theorem mem_cases {s q : ℕ} (hs : s < u.nSeqs) (hq : q ∈ setOf u s) : q = firstOf u s ∨ q ∈ shared u := by
  rw [hu.setOf_eq hs] at hq
  rcases mem_cons.mp hq with rfl | hq
  · exact Or.inl rfl
  · exact Or.inr (mem_toFinset.mpr (mem_flatMap.mpr ⟨s, List.mem_range.mpr hs, hq⟩))

end SlotUbatch

/-! ### The first loop -/

theorem Detached.refl (st : Recurrent) : Detached st ∅ st :=
  ⟨rfl, fun s => by simp, fun t _ => by simp, fun t _ _ => rfl, fun t _ h => Or.inl ⟨h, rfl⟩⟩

theorem Detached.trans {st₂ : Recurrent} {g g' : Finset ℕ} (h : Detached st g st₁) (h' : Detached st₁ g' st₂) :
    Detached st (g ∪ g') st₂ := by
  have hlt : ∀ t, t < st.size → t < st₁.size := fun t ht => h.size.symm ▸ ht
  have hsub : ∀ t < st.size, st₂.seqId t ⊆ st₁.seqId t := fun t ht => by
    rw [h'.seqId t (hlt t ht)]
    exact Finset.sdiff_subset
  refine ⟨h'.size.trans h.size, fun s => ?_, fun t ht => ?_, fun t ht hne => ?_, fun t ht hnil => ?_⟩
  · rw [h'.tail, h.tail]
    by_cases hs' : s ∈ g'
    · simp [hs']
    · simp [hs']
  · rw [h'.seqId t (hlt t ht), h.seqId t ht, sdiff_sdiff_left]
    rfl
  · have hne₁ : st₁.seqId t ≠ ∅ := fun hnil => hne (Finset.subset_empty.mp (hnil ▸ hsub t ht))
    rw [h'.src t (hlt t ht) hne, h.src t ht hne₁]
  · rcases h'.src_empty t (hlt t ht) hnil with ⟨hnil₁, hsrc⟩ | hnone
    · rcases h.src_empty t ht hnil₁ with ⟨hnil₀, hsrc₀⟩ | hnone
      · exact Or.inl ⟨hnil₀, hsrc.trans hsrc₀⟩
      · exact Or.inr (hsrc.trans hnone)
    · exact Or.inr hnone

theorem detach_head (s : ℕ) : (st.detach s).head = st.head := by
  unfold detach
  split
  · rfl
  · dsimp only
    split
    · rfl
    · rfl

theorem detachShared_spec (h : Exact st) (l : List (ℕ × ℕ)) (hlt : ∀ x ∈ l, x.2 < st.size) :
    (detachShared st l).1 = true ∧ Exact (detachShared st l).2 ∧
      Detached st ((l.filter fun x => 0 < x.1).map Prod.snd).toFinset (detachShared st l).2 ∧
      (detachShared st l).2.head = st.head := by
  induction l generalizing st with
  | nil => exact ⟨rfl, h, Detached.refl st, rfl⟩
  | cons x l ih =>
    obtain ⟨j, s⟩ := x
    have hs : s < st.size := hlt (j, s) mem_cons_self
    have hl : ∀ x ∈ l, x.2 < st.size := fun x hx => hlt x (mem_cons_of_mem _ hx)
    rw [detachShared, if_neg (not_le.mpr hs)]
    by_cases hj : 0 < j
    · obtain ⟨hok, hexact, hdet, hhead⟩ := ih (detach_exact h hs) (by simpa using hl)
      rw [if_pos hj, filter_cons_of_pos (by simpa using hj), map_cons, toFinset_cons,
        ← Finset.singleton_union]
      exact ⟨hok, hexact, (detach_detached h hs).trans hdet, hhead.trans (detach_head s)⟩
    · rw [if_neg hj, filter_cons_of_neg (by simpa using hj)]
      exact ih h hl

theorem members_shared (u : Ubatch) :
    (((members u).filter fun x => 0 < x.1).map Prod.snd).toFinset = shared u := by
  have hset : ∀ l : List ℕ, ((l.zipIdx.map Prod.swap).filter fun x => 0 < x.1).map Prod.snd = l.tail := by
    intro l
    cases l with
    | nil => rfl
    | cons q l =>
      have htail : ∀ (l : List ℕ) (k : ℕ),
          (((l.zipIdx (k + 1)).map Prod.swap).filter fun x => 0 < x.1).map Prod.snd = l := by
        intro l
        induction l with
        | nil => exact fun _ => rfl
        | cons q l ih =>
          intro k
          simpa using ih (k + 1)
      simpa using htail l 0
  rw [members, shared, filter_flatMap, map_flatMap]
  congr 2
  funext s
  exact hset _

/-! ### Claiming a cell -/

/-- The sequences in `done` have a cell of their own, which may still look empty; for the others the table is
exact.  `st₁` is the state before the second loop. -/
structure Claimed (st₁ : Recurrent) (done : Finset ℕ) (st : Recurrent) : Prop where
  size : st.size = st₁.size
  seq_tail : ∀ t < st.size, ∀ s ∈ st.seqId t, s < st.size ∧ st.tail s = some t
  tail_cases : ∀ s < st.size, ∀ t, st.tail s = some t →
    t < st.size ∧ (s ∈ st.seqId t ∨ s ∈ done ∧ st.seqId t = ∅)
  own : ∀ q ∈ done, ∃ t < st.size, st.tail q = some t ∧ ∀ s < st.size, st.tail s = some t → s = q
  pos_iff : ∀ t < st.size, (∀ q ∈ done, st.tail q ≠ some t) → (0 ≤ st.pos t ↔ st.seqId t ≠ ∅)
  /-- the other sequences stay where they are -/
  tail_other : ∀ s, s ∉ done → st.tail s = st₁.tail s
  /-- a state takes its source along -/
  src_tail : ∀ s < st.size, ∀ t₁, st₁.tail s = some t₁ → ∃ t, st.tail s = some t ∧ st.src t = st₁.src t₁
  /-- a sequence without a state gets a cell that was empty -/
  src_new : ∀ q ∈ done, st₁.tail q = none → ∃ t, st.tail q = some t ∧ st₁.seqId t = ∅ ∧ st.src t = st₁.src t
  src_other : ∀ t < st.size, (∀ q ∈ done, st.tail q ≠ some t) →
    st.src t = st₁.src t ∧ (st.seqId t = ∅ → st₁.seqId t = ∅)

theorem Exact.claimed (h : Exact st) : Claimed st ∅ st where
  size := rfl
  seq_tail t ht s hs := ⟨h.seq_lt t ht s hs, (h.tail_iff s (h.seq_lt t ht s hs) t).mpr ⟨ht, hs⟩⟩
  tail_cases s hs t htail := by
    obtain ⟨ht, hmem⟩ := (h.tail_iff s hs t).mp htail
    exact ⟨ht, Or.inl hmem⟩
  own q hq := absurd hq (Finset.notMem_empty q)
  pos_iff t ht _ := h.pos_iff t ht
  tail_other s _ := rfl
  src_tail s _ t₁ ht₁ := ⟨t₁, ht₁, rfl⟩
  src_new q hq := absurd hq (Finset.notMem_empty q)
  src_other t _ _ := ⟨rfl, id⟩

namespace Claimed

variable {done : Finset ℕ} {q : ℕ}

theorem keep (h : Claimed st₁ done st) (hq : q < st.size) (hnot : q ∉ done) {t : ℕ}
    (htail : st.tail q = some t) (hcard : (st.seqId t).card = 1) : Claimed st₁ (insert q done) st := by
  obtain ⟨ht, hcase⟩ := h.tail_cases q hq t htail
  have hmem : q ∈ st.seqId t := hcase.resolve_right fun hdone => hnot hdone.1
  have hsingle : st.seqId t = {q} := by
    obtain ⟨x, hx⟩ := Finset.card_eq_one.mp hcard
    rw [hx, Finset.mem_singleton] at hmem
    rw [hx, hmem]
  have hdone : ∀ t' < st.size, (∀ p ∈ insert q done, st.tail p ≠ some t') → ∀ p ∈ done, st.tail p ≠ some t' :=
    fun t' _ hall p hp => hall p (Finset.mem_insert_of_mem hp)
  refine { h with tail_cases := ?_, own := ?_, pos_iff := ?_, tail_other := ?_, src_new := ?_, src_other := ?_ }
  · intro s hs t' ht'
    obtain ⟨hlt, hcase⟩ := h.tail_cases s hs t' ht'
    exact ⟨hlt, hcase.imp_right fun hd => ⟨Finset.mem_insert_of_mem hd.1, hd.2⟩⟩
  · intro p hp
    rcases Finset.mem_insert.mp hp with rfl | hp
    · refine ⟨t, ht, htail, fun s hs hst => ?_⟩
      obtain ⟨-, hcase⟩ := h.tail_cases s hs t hst
      rw [hsingle] at hcase
      simpa using hcase
    · exact h.own p hp
  · exact fun t' ht' hall => h.pos_iff t' ht' (hdone t' ht' hall)
  · exact fun s hs => h.tail_other s fun hd => hs (Finset.mem_insert_of_mem hd)
  · intro p hp hnone
    rcases Finset.mem_insert.mp hp with rfl | hp
    · rw [← h.tail_other p hnot, htail] at hnone
      exact absurd hnone (by simp)
    · exact h.src_new p hp hnone
  · exact fun t' ht' hall => h.src_other t' ht' (hdone t' ht' hall)

/-- A cell that holds nothing and belongs to nobody. -/
structure Free (st : Recurrent) (e : ℕ) : Prop where
  lt : e < st.size
  empty : st.seqId e = ∅
  unclaimed : ∀ s < st.size, st.tail s ≠ some e

theorem takeNew (h : Claimed st₁ done st) (hdone : ∀ p ∈ done, p < st.size) (hq : q < st.size)
    (hnot : q ∉ done) (hnone : st.tail q = none) {e : ℕ} (he : Free st e) :
    Claimed st₁ (insert q done) (st.setTail q (some e)) := by
  -- the tails of the others are not `e`
  have hother : ∀ s, s ≠ q → (st.setTail q (some e)).tail s = st.tail s := fun s hs => by simp [hs]
  have hself : (st.setTail q (some e)).tail q = some e := by simp
  have hnoq : ∀ t < st.size, q ∉ st.seqId t := by
    intro t ht hmem
    rw [(h.seq_tail t ht q hmem).2] at hnone
    exact absurd hnone (by simp)
  have hne : ∀ p ∈ done, p ≠ q := fun p hp heq => hnot (heq ▸ hp)
  have hdone' : ∀ t, (∀ p ∈ insert q done, (st.setTail q (some e)).tail p ≠ some t) →
      t ≠ e ∧ ∀ p ∈ done, st.tail p ≠ some t := by
    intro t hall
    refine ⟨fun heq => hall q (Finset.mem_insert_self _ _) (by rw [hself, heq]), fun p hp hpt => ?_⟩
    exact hall p (Finset.mem_insert_of_mem hp) (by rw [hother p (hne p hp), hpt])
  refine ⟨h.size, fun t ht s hs => ?_, fun s hs t hst => ?_, fun p hp => ?_, fun t ht hall => ?_, fun s hs => ?_,
    fun s hs t₁ ht₁ => ?_, fun p hp hp₁ => ?_, fun t ht hall => ?_⟩
  · rw [setTail_seqId] at hs
    have hsq : s ≠ q := fun heq => hnoq t ht (heq ▸ hs)
    rw [hother s hsq]
    exact h.seq_tail t ht s hs
  · rw [setTail_seqId]
    by_cases hsq : s = q
    · rw [hsq, hself, Option.some.injEq] at hst
      subst hst
      exact ⟨he.lt, Or.inr ⟨hsq ▸ Finset.mem_insert_self _ _, he.empty⟩⟩
    · rw [hother s hsq] at hst
      obtain ⟨hlt, hcase⟩ := h.tail_cases s hs t hst
      exact ⟨hlt, hcase.imp_right fun hd => ⟨Finset.mem_insert_of_mem hd.1, hd.2⟩⟩
  · rcases Finset.mem_insert.mp hp with rfl | hp
    · refine ⟨e, he.lt, hself, fun s hs hst => ?_⟩
      by_contra hsq
      rw [hother s hsq] at hst
      exact he.unclaimed s hs hst
    · obtain ⟨t, ht, htail, halone⟩ := h.own p hp
      refine ⟨t, ht, by rw [hother p (hne p hp), htail], fun s hs hst => ?_⟩
      by_cases hsq : s = q
      · rw [hsq, hself, Option.some.injEq] at hst
        exact absurd (hst ▸ htail) (he.unclaimed p (hdone p hp))
      · rw [hother s hsq] at hst
        exact halone s hs hst
  · rw [setTail_pos, setTail_seqId]
    exact h.pos_iff t ht (hdone' t hall).2
  · rw [Finset.mem_insert, not_or] at hs
    rw [hother s hs.1]
    exact h.tail_other s hs.2
  · have hsq : s ≠ q := by
      rintro rfl
      rw [← h.tail_other s hnot, hnone] at ht₁
      exact absurd ht₁ (by simp)
    rw [hother s hsq]
    simpa using h.src_tail s hs t₁ ht₁
  · rcases Finset.mem_insert.mp hp with rfl | hp
    · obtain ⟨hsrc, hnil⟩ := h.src_other e he.lt fun p' hp' => he.unclaimed p' (hdone p' hp')
      exact ⟨e, hself, hnil he.empty, by simpa using hsrc⟩
    · rw [hother p (hne p hp)]
      simpa using h.src_new p hp hp₁
  · rw [setTail_src, setTail_seqId]
    exact h.src_other t ht (hdone' t hall).2

/-- The state after a sequence that shares its cell `t` moved to the free cell `e`. -/
def moved (st : Recurrent) (q t e : ℕ) : Recurrent :=
  let st₁ := ((st.setPos e (st.pos t)).setSrc e (st.src t)).setSeqId t ((st.seqId t).erase q)
  (st₁.setSeqId e (insert q (st₁.seqId e))).setTail q (some e)

theorem moved_seqId {t e : ℕ} (hne : e ≠ t) (x : ℕ) : (moved st q t e).seqId x
    = if x = e then insert q (st.seqId e) else if x = t then (st.seqId t).erase q else st.seqId x := by
  simp [moved, hne]

theorem moved_tail {t e : ℕ} (s : ℕ) : (moved st q t e).tail s = if s = q then some e else st.tail s := by
  simp [moved]

theorem moved_pos {t e : ℕ} (x : ℕ) : (moved st q t e).pos x = if x = e then st.pos t else st.pos x := by
  simp [moved]

theorem moved_src {t e : ℕ} (x : ℕ) : (moved st q t e).src x = if x = e then st.src t else st.src x := by
  simp [moved]

theorem takeShared (h : Claimed st₁ done st) (hdone : ∀ p ∈ done, p < st.size) (hq : q < st.size)
    (hnot : q ∉ done) {t : ℕ} (htail : st.tail q = some t) (hcard : (st.seqId t).card ≠ 1) {e : ℕ}
    (he : Free st e) :
    (st.seqId t).erase q ≠ ∅ ∧ Claimed st₁ (insert q done) (moved st q t e) := by
  obtain ⟨ht, hcase⟩ := h.tail_cases q hq t htail
  have hmem : q ∈ st.seqId t := hcase.resolve_right fun hd => hnot hd.1
  have het : e ≠ t := by
    rintro rfl
    exact he.unclaimed q hq htail
  have hrest : (st.seqId t).erase q ≠ ∅ := by
    intro hnil
    rw [Finset.erase_eq_empty_iff] at hnil
    rcases hnil with hnil | hsingle
    · exact absurd hmem (by simp [hnil])
    · exact hcard (by rw [hsingle, Finset.card_singleton])
  refine ⟨hrest, ?_⟩
  have hne : ∀ p ∈ done, p ≠ q := fun p hp heq => hnot (heq ▸ hp)
  have hother : ∀ s, s ≠ q → (moved st q t e).tail s = st.tail s := fun s hs => by rw [moved_tail, if_neg hs]
  have hself : (moved st q t e).tail q = some e := by rw [moved_tail, if_pos rfl]
  have hseqe : (moved st q t e).seqId e = {q} := by rw [moved_seqId het, if_pos rfl, he.empty, insert_empty_eq]
  have hseqt : (moved st q t e).seqId t = (st.seqId t).erase q := by
    rw [moved_seqId het, if_neg het.symm, if_pos rfl]
  have hseq : ∀ x, x ≠ e → x ≠ t → (moved st q t e).seqId x = st.seqId x := fun x hx hx' => by
    rw [moved_seqId het, if_neg hx, if_neg hx']
  have hnil : ∀ x, x ≠ e → ((moved st q t e).seqId x = ∅ ↔ st.seqId x = ∅) := by
    intro x hx
    by_cases hxt : x = t
    · rw [hxt, hseqt]
      exact ⟨fun h => absurd h hrest, fun h => absurd hmem (by simp [h])⟩
    · rw [hseq x hx hxt]
  have hdone' : ∀ x, (∀ p ∈ insert q done, (moved st q t e).tail p ≠ some x) →
      x ≠ e ∧ ∀ p ∈ done, st.tail p ≠ some x := by
    intro x hall
    refine ⟨fun heq => hall q (Finset.mem_insert_self _ _) (by rw [hself, heq]), fun p hp hpx => ?_⟩
    exact hall p (Finset.mem_insert_of_mem hp) (by rw [hother p (hne p hp), hpx])
  refine ⟨h.size, fun x hx s hs => ?_, fun s hs x hsx => ?_, fun p hp => ?_, fun x hx hall => ?_, fun s hs => ?_,
    fun s hs t₁ ht₁ => ?_, fun p hp hp₁ => ?_, fun x hx hall => ?_⟩
  · by_cases hxe : x = e
    · rw [hxe, hseqe, Finset.mem_singleton] at hs
      rw [hs, hxe]
      exact ⟨hq, hself⟩
    · have hs' : s ≠ q ∧ s ∈ st.seqId x := by
        by_cases hxt : x = t
        · rw [hxt, hseqt] at hs
          rw [hxt]
          exact Finset.mem_erase.mp hs
        · rw [hseq x hxe hxt] at hs
          refine ⟨fun heq => hxt ?_, hs⟩
          have := (h.seq_tail x hx s hs).2
          rw [heq, htail] at this
          exact (Option.some.inj this).symm
      rw [hother s hs'.1]
      exact h.seq_tail x hx s hs'.2
  · by_cases hsq : s = q
    · rw [hsq, hself, Option.some.injEq] at hsx
      subst hsx
      exact ⟨he.lt, Or.inl (by rw [hseqe, hsq]; exact Finset.mem_singleton_self q)⟩
    · rw [hother s hsq] at hsx
      have hxe : x ≠ e := fun heq => he.unclaimed s hs (heq ▸ hsx)
      obtain ⟨hlt, hcase⟩ := h.tail_cases s hs x hsx
      refine ⟨hlt, hcase.imp (fun hin => ?_) fun hd => ⟨Finset.mem_insert_of_mem hd.1, (hnil x hxe).mpr hd.2⟩⟩
      by_cases hxt : x = t
      · rw [hxt, hseqt]
        exact Finset.mem_erase.mpr ⟨hsq, hxt ▸ hin⟩
      · rwa [hseq x hxe hxt]
  · rcases Finset.mem_insert.mp hp with rfl | hp
    · refine ⟨e, he.lt, hself, fun s hs hse => ?_⟩
      by_contra hsq
      rw [hother s hsq] at hse
      exact he.unclaimed s hs hse
    · obtain ⟨x, hx, hpx, halone⟩ := h.own p hp
      refine ⟨x, hx, by rw [hother p (hne p hp), hpx], fun s hs hsx => ?_⟩
      by_cases hsq : s = q
      · rw [hsq, hself, Option.some.injEq] at hsx
        exact absurd (hsx ▸ hpx) (he.unclaimed p (hdone p hp))
      · rw [hother s hsq] at hsx
        exact halone s hs hsx
  · obtain ⟨hxe, hall'⟩ := hdone' x hall
    rw [moved_pos, if_neg hxe, Ne, hnil x hxe]
    exact h.pos_iff x hx hall'
  · rw [Finset.mem_insert, not_or] at hs
    rw [hother s hs.1]
    exact h.tail_other s hs.2
  · by_cases hsq : s = q
    · obtain ⟨x, hx, hsrc⟩ := h.src_tail s hs t₁ ht₁
      rw [hsq, htail, Option.some.injEq] at hx
      refine ⟨e, by rw [hsq, hself], ?_⟩
      rw [moved_src, if_pos rfl, hx, hsrc]
    · obtain ⟨x, hx, hsrc⟩ := h.src_tail s hs t₁ ht₁
      have hxe : x ≠ e := fun heq => he.unclaimed s hs (heq ▸ hx)
      refine ⟨x, by rw [hother s hsq, hx], ?_⟩
      rw [moved_src, if_neg hxe, hsrc]
  · rcases Finset.mem_insert.mp hp with rfl | hp
    · rw [← h.tail_other p hnot, htail] at hp₁
      exact absurd hp₁ (by simp)
    · obtain ⟨x, hx, hnil₁, hsrc⟩ := h.src_new p hp hp₁
      have hxe : x ≠ e := fun heq => he.unclaimed p (hdone p hp) (heq ▸ hx)
      refine ⟨x, by rw [hother p (hne p hp), hx], hnil₁, ?_⟩
      rw [moved_src, if_neg hxe, hsrc]
  · obtain ⟨hxe, hall'⟩ := hdone' x hall
    rw [moved_src, if_neg hxe, hnil x hxe]
    exact h.src_other x hx hall'

/-- **A free cell is left.**  Each cell that is not free has a sequence, and `q` is none of them. -/
theorem exists_free (h : Claimed st₁ done st) (hq : q < st.size) (hnot : q ∉ done) (hneed : ∀ t, st.tail q = some t → (st.seqId t).card ≠ 1) : ∃ e, Free st e := by
  by_contra hnone
  -- a sequence other than `q` for every cell
  have howner : ∀ t ∈ Finset.range st.size, ∃ s ∈ (Finset.range st.size).erase q, st.tail s = some t := by
    intro t ht
    have ht' := Finset.mem_range.mp ht
    by_cases hnil : st.seqId t = ∅
    · have hclaim : ∃ s < st.size, st.tail s = some t := by
        by_contra hall
        refine hnone ⟨t, ht', hnil, fun s hs hst => hall ⟨s, hs, hst⟩⟩
      obtain ⟨s, hs, hst⟩ := hclaim
      obtain ⟨-, hcase⟩ := h.tail_cases s hs t hst
      have hd : s ∈ done := (hcase.resolve_left fun hin => absurd hin (by simp [hnil])).1
      exact ⟨s, Finset.mem_erase.mpr ⟨fun heq => hnot (heq ▸ hd), Finset.mem_range.mpr hs⟩, hst⟩
    · obtain ⟨s, hs, hsq⟩ : ∃ s ∈ st.seqId t, s ≠ q := by
        by_contra hall
        have hsub : st.seqId t ⊆ {q} := by
          intro s hs
          rw [Finset.mem_singleton]
          by_contra hsq
          exact hall ⟨s, hs, hsq⟩
        have hsingle : st.seqId t = {q} := (Finset.subset_singleton_iff.mp hsub).resolve_left hnil
        have hmem : q ∈ st.seqId t := by rw [hsingle]; exact Finset.mem_singleton_self q
        exact hneed t (h.seq_tail t ht' q hmem).2 (by rw [hsingle, Finset.card_singleton])
      obtain ⟨hlt, hst⟩ := h.seq_tail t ht' s hs
      exact ⟨s, Finset.mem_erase.mpr ⟨hsq, Finset.mem_range.mpr hlt⟩, hst⟩
  choose! f hf using howner
  have hcard := Finset.card_le_card_of_injOn f (fun t ht => (hf t ht).1) (by
    intro t ht t' ht' heq
    have h1 := (hf t ht).2
    have h2 := (hf t' ht').2
    rw [heq, h2] at h1
    exact (Option.some.inj h1).symm)
  rw [Finset.card_erase_of_mem (Finset.mem_range.mpr hq), Finset.card_range] at hcard
  omega

end Claimed

/-! ### The search for empty cells -/

theorem wrap_eq {n k : ℕ} (h : k ≤ n) (hn : 0 < n) : (if n ≤ k then k - n else k) = k % n := by
  split
  · next hle =>
    obtain rfl : k = n := by omega
    rw [Nat.sub_self, Nat.mod_self]
  · next hlt => exact (mod_eq_of_lt (by omega)).symm

theorem nextEmpty_eq (fuel : ℕ) {k d : ℕ} (hk : k < st.size) (hd : 0 < d) (hfuel : d ≤ fuel)
    (hempty : st.seqId ((k + d) % st.size) = ∅)
    (hbefore : ∀ d', 0 < d' → d' < d → st.seqId ((k + d') % st.size) ≠ ∅) :
    st.nextEmpty fuel k = (k + d) % st.size := by
  induction fuel generalizing k d with
  | zero => omega
  | succ fuel ih =>
    have hsize : 0 < st.size := by omega
    simp only [nextEmpty, wrap_eq (show k + 1 ≤ st.size by omega) hsize]
    have hmod : ∀ c, ((k + 1) % st.size + c) % st.size = (k + (c + 1)) % st.size := by
      intro c
      rw [mod_add_mod]
      congr 1
      omega
    rcases eq_or_lt_of_le (show 1 ≤ d by omega) with rfl | hlt
    · rw [if_pos hempty]
    · rw [if_neg (hbefore 1 one_pos hlt)]
      obtain ⟨c, rfl⟩ : ∃ c, d = c + 1 := ⟨d - 1, by omega⟩
      rw [ih (mod_lt _ hsize) (d := c) (by omega) (by omega) (by rwa [hmod]) fun d' hd' hlt' => ?_, hmod]
      rw [hmod]
      exact hbefore (d' + 1) (by omega) (by omega)

theorem firstEmpty_eq (fuel : ℕ) {k d : ℕ} (hk : k ≤ st.size) (hsize : 0 < st.size) (hfuel : d < fuel)
    (hempty : st.seqId ((k + d) % st.size) = ∅)
    (hbefore : ∀ d' < d, st.seqId ((k + d') % st.size) ≠ ∅) :
    st.firstEmpty fuel k = (k + d) % st.size := by
  induction fuel generalizing k d with
  | zero => omega
  | succ fuel ih =>
    simp only [firstEmpty, wrap_eq hk hsize]
    have hlt := Nat.mod_lt k hsize
    rcases Nat.eq_zero_or_pos d with rfl | hpos
    · rw [Nat.add_zero] at hempty
      rw [if_pos hempty, Nat.add_zero]
    · have hzero := hbefore 0 hpos
      rw [add_zero] at hzero
      rw [if_neg hzero]
      obtain ⟨c, rfl⟩ : ∃ c, d = c + 1 := ⟨d - 1, by omega⟩
      have hmod : ∀ c, (k % st.size + 1 + c) % st.size = (k + (c + 1)) % st.size := by
        intro c
        rw [add_assoc, mod_add_mod]
        congr 1
        omega
      rw [ih (show k % st.size + 1 ≤ st.size by omega) (d := c) (by omega) (by rwa [hmod]) fun d' hd' => ?_,
        hmod]
      rw [hmod]
      exact hbefore (d' + 1) (by omega)

theorem exists_rank {n b y : ℕ} (hb : b ≤ n) (hy : y < n) : ∃ d < n, (b + d) % n = y := by
  by_cases h : b ≤ y
  · exact ⟨y - b, by omega, by rw [Nat.add_sub_cancel' h]; exact Nat.mod_eq_of_lt hy⟩
  · refine ⟨y + n - b, by omega, ?_⟩
    have heq : b + (y + n - b) = y + n := by omega
    rw [heq, Nat.add_mod_right]
    exact Nat.mod_eq_of_lt hy

theorem rank_inj {n b d d' : ℕ} (hd : d < n) (hd' : d' < n) (h : (b + d) % n = (b + d') % n) : d = d' :=
  Nat.ModEq.eq_of_lt_of_lt (Nat.ModEq.add_left_cancel' b h) hd hd'

open Claimed (Free)

/-- The state of the search, which started at `b`: in the order from `b`, all cells that were given away come
before `next` and all free ones from it on. -/
structure Search (st : Recurrent) (b next : ℕ) : Prop where
  free : Free st next
  rank : ∃ d < st.size, next = (b + d) % st.size ∧
    (∀ d' < st.size, Free st ((b + d') % st.size) → d ≤ d') ∧
    (∀ d' < st.size, st.seqId ((b + d') % st.size) = ∅ → ¬ Free st ((b + d') % st.size) → d' < d)

theorem Exact.search (h : Exact st) (hhead : st.head ≤ st.size) (hfree : ∃ e, Free st e) :
    Search st st.head (st.firstEmpty st.size st.head) := by
  have hsize : 0 < st.size := by
    obtain ⟨e, he⟩ := hfree
    exact lt_of_le_of_lt (zero_le e) he.lt
  -- an empty cell is free
  have hiff : ∀ t < st.size, st.seqId t = ∅ → Free st t := by
    intro t ht hnil
    refine ⟨ht, hnil, fun s hs hst => ?_⟩
    have := ((h.tail_iff s hs t).mp hst).2
    simp [hnil] at this
  have hex : ∃ d, d < st.size ∧ st.seqId ((st.head + d) % st.size) = ∅ := by
    obtain ⟨e, he⟩ := hfree
    obtain ⟨d, hd, rfl⟩ := exists_rank hhead he.lt
    exact ⟨d, hd, he.empty⟩
  classical
  obtain ⟨hd, hnil⟩ := Nat.find_spec hex
  have hmin : ∀ d' < Nat.find hex, st.seqId ((st.head + d') % st.size) ≠ ∅ := fun d' hlt hnil' =>
    Nat.find_min hex hlt ⟨by omega, hnil'⟩
  have heq := firstEmpty_eq st.size hhead hsize hd hnil hmin
  refine ⟨?_, Nat.find hex, hd, heq, fun d' hd' hfree' => ?_, fun d' hd' hnil' hnot => ?_⟩
  · rw [heq]
    exact hiff _ (mod_lt _ hsize) hnil
  · by_contra hlt
    exact hmin d' (not_le.mp hlt) hfree'.empty
  · exact absurd (hiff _ (mod_lt _ hsize) hnil') hnot

/-- **The next search.**  Once the cell was given away, the search goes on to the next free cell. -/
theorem Search.next {st' : Recurrent} {b e : ℕ} (h : Search st b e) (hb : b ≤ st.size)
    (hsize : st'.size = st.size) (hnot : ¬ Free st' e) (hsame : ∀ x, x ≠ e → (Free st' x ↔ Free st x))
    (hempty : ∀ x < st.size, st'.seqId x = ∅ → st.seqId x = ∅) (hfree : ∃ x, Free st' x) :
    Search st' b (st'.nextEmpty st'.size e) := by
  obtain ⟨d, hd, hed, hmin, hold⟩ := h.rank
  have hpos : 0 < st.size := by omega
  -- the free cells lie behind `e`
  have hbehind : ∀ d' < st.size, Free st' ((b + d') % st.size) → d < d' := by
    intro d' hd' hfree'
    have hne : (b + d') % st.size ≠ e := fun heq => hnot (heq ▸ hfree')
    have hle := hmin d' hd' ((hsame _ hne).mp hfree')
    rcases lt_or_eq_of_le hle with hlt | heq
    · exact hlt
    · exact absurd (heq ▸ hed.symm) hne
  -- empty cells behind `e` are free
  have hgiven : ∀ d', d < d' → d' < st.size → st'.seqId ((b + d') % st.size) = ∅ →
      Free st' ((b + d') % st.size) := by
    intro d' hlt hd' hnil
    have hne : (b + d') % st.size ≠ e := by
      intro heq
      rw [hed] at heq
      exact absurd (rank_inj hd' hd heq) (by omega)
    rw [hsame _ hne]
    by_contra hnf
    have := hold d' hd' (hempty _ (mod_lt _ hpos) hnil) hnf
    omega
  have hex : ∃ d', d' < st.size ∧ Free st' ((b + d') % st.size) := by
    obtain ⟨x, hx⟩ := hfree
    obtain ⟨d', hd', rfl⟩ := exists_rank hb (hsize ▸ hx.lt : x < st.size)
    exact ⟨d', hd', hx⟩
  classical
  obtain ⟨hd', hfree'⟩ := Nat.find_spec hex
  set m := Nat.find hex with hm
  have hlt : d < m := hbehind m hd' hfree'
  have hmod : ∀ c, (e + c) % st.size = (b + (d + c)) % st.size := by
    intro c
    rw [hed, Nat.mod_add_mod, Nat.add_assoc]
  have heq : st'.nextEmpty st'.size e = (b + m) % st.size := by
    have hempty : st'.seqId ((e + (m - d)) % st'.size) = ∅ := by
      rw [hsize, hmod, Nat.add_sub_cancel' hlt.le]
      exact hfree'.empty
    have hbefore : ∀ c, 0 < c → c < m - d → st'.seqId ((e + c) % st'.size) ≠ ∅ := by
      intro c hc hcm
      rw [hsize, hmod]
      intro hnil
      exact Nat.find_min hex (show d + c < m by omega)
        ⟨by omega, hgiven (d + c) (by omega) (by omega) hnil⟩
    rw [nextEmpty_eq st'.size (hsize.symm ▸ h.free.lt) (by omega) (by omega) hempty hbefore, hsize, hmod,
      Nat.add_sub_cancel' hlt.le]
  refine ⟨heq ▸ hfree', m, hsize.symm ▸ hd', by rw [heq, hsize], ?_, ?_⟩
  · rw [hsize]
    intro d'' hd'' hfree''
    exact Nat.find_min' hex ⟨hd'', hfree''⟩
  · rw [hsize]
    intro d'' hd'' hnil hnf
    rcases lt_or_ge d d'' with hgt | hle
    · exact absurd (hgiven d'' hgt hd'' hnil) hnf
    · omega

/-! ### The second loop -/

/-- The first sequences of the first `k` sets. -/
def firsts (u : Ubatch) (k : ℕ) : Finset ℕ := (Finset.range k).image (firstOf u)

theorem mem_firsts {u : Ubatch} {k q : ℕ} : q ∈ firsts u k ↔ ∃ s < k, firstOf u s = q := by
  simp [firsts]

theorem firsts_succ (u : Ubatch) (k : ℕ) : firsts u (k + 1) = insert (firstOf u k) (firsts u k) := by
  rw [firsts, Finset.range_add_one, Finset.image_insert]
  rfl

/-- The range of cells grows to include cell `t`. -/
def Claim.widen (x : Claim) (t : ℕ) : Claim :=
  { x with min := if t < x.min then t else x.min, max := if x.max < t then t else x.max }

section ClaimStep

variable {x : Claim} {q : ℕ} (last : Bool)

theorem claim_own {t : ℕ} (htail : x.st.tail q = some t) (hmem : q ∈ x.st.seqId t)
    (hcard : (x.st.seqId t).card = 1) : claim last x q = ⟨x.widen t, true, true⟩ := by
  simp only [claim, htail, hcard]
  simp [bind, pure, Checked.check, hmem, htail, Claim.widen]

theorem claim_new (htail : x.st.tail q = none) (hempty : x.st.seqId x.next = ∅) :
    claim last x q = ⟨Claim.widen { x with
      st := x.st.setTail q (some x.next)
      next := if last then x.next else (x.st.setTail q (some x.next)).nextEmpty x.st.size x.next } x.next,
      true, true⟩ := by
  simp only [claim, htail, claimEmpty]
  simp [bind, pure, Checked.check, hempty, Claim.widen]
  rfl

theorem claim_shared {t : ℕ} (htail : x.st.tail q = some t) (hmem : q ∈ x.st.seqId t)
    (hcard : (x.st.seqId t).card ≠ 1) (hempty : x.st.seqId x.next = ∅) (hne : x.next ≠ t)
    (hrest : (x.st.seqId t).erase q ≠ ∅) :
    claim last x q = ⟨Claim.widen { x with
      st := Claimed.moved x.st q t x.next
      next := if last then x.next else (Claimed.moved x.st q t x.next).nextEmpty x.st.size x.next } x.next,
      true, true⟩ := by
  have htail' : (Claimed.moved x.st q t x.next).tail q = some x.next := by rw [Claimed.moved_tail, if_pos rfl]
  have hclaim : x.st.claimEmpty x.next q = ⟨Claimed.moved x.st q t x.next, true, true⟩ := by
    simp only [claimEmpty, htail]
    simp [bind, pure, Checked.check, hempty, Claimed.moved, hne, Ne.symm hne, hrest]
  simp only [claim, htail, hclaim]
  simp [bind, pure, Checked.check, hmem, hcard, htail', Claim.widen]
  rfl

end ClaimStep

theorem Claimed.free_setTail {q e : ℕ} (hq : q < st.size) (hnone : st.tail q = none) :
    ¬ Free (st.setTail q (some e)) e ∧ ∀ y, y ≠ e → (Free (st.setTail q (some e)) y ↔ Free st y) := by
  refine ⟨fun hfree => hfree.unclaimed q hq (by simp), fun y hy => ⟨fun hf => ?_, fun hf => ?_⟩⟩
  · refine ⟨hf.lt, by simpa using hf.empty, fun s hs hsy => ?_⟩
    have hsq : s ≠ q := fun heq => by rw [heq, hnone] at hsy; simp at hsy
    exact hf.unclaimed s hs (by simpa [hsq] using hsy)
  · refine ⟨hf.lt, by simpa using hf.empty, fun s hs hsy => ?_⟩
    by_cases hsq : s = q
    · rw [hsq, setTail_tail, if_pos rfl, Option.some.injEq] at hsy
      exact hy hsy.symm
    · exact hf.unclaimed s hs (by simpa [hsq] using hsy)

theorem Claimed.moved_empty_iff {q t e : ℕ} (hne : e ≠ t) (hmem : q ∈ st.seqId t)
    (hrest : (st.seqId t).erase q ≠ ∅) {y : ℕ} (hy : y ≠ e) :
    (moved st q t e).seqId y = ∅ ↔ st.seqId y = ∅ := by
  rw [moved_seqId hne, if_neg hy]
  split
  · next heq =>
    rw [heq]
    exact ⟨fun hnil => absurd hnil hrest, fun hnil => absurd hmem (by simp [hnil])⟩
  · exact Iff.rfl

theorem Claimed.free_moved {q t e : ℕ} (hq : q < st.size) (htail : st.tail q = some t) (hne : e ≠ t)
    (hmem : q ∈ st.seqId t) (hrest : (st.seqId t).erase q ≠ ∅) :
    ¬ Free (moved st q t e) e ∧ ∀ y, y ≠ e → (Free (moved st q t e) y ↔ Free st y) := by
  refine ⟨fun hfree => hfree.unclaimed q hq (by rw [moved_tail, if_pos rfl]), fun y hy => ⟨fun hf => ?_, fun hf => ?_⟩⟩
  · have hnil := (moved_empty_iff hne hmem hrest hy).mp hf.empty
    refine ⟨hf.lt, hnil, fun s hs hsy => ?_⟩
    by_cases hsq : s = q
    · rw [hsq, htail, Option.some.injEq] at hsy
      rw [← hsy] at hnil
      exact absurd hmem (by simp [hnil])
    · exact hf.unclaimed s hs (by rw [moved_tail, if_neg hsq]; exact hsy)
  · refine ⟨hf.lt, (moved_empty_iff hne hmem hrest hy).mpr hf.empty, fun s hs hsy => ?_⟩
    by_cases hsq : s = q
    · rw [hsq, moved_tail, if_pos rfl, Option.some.injEq] at hsy
      exact hy hsy.symm
    · rw [moved_tail, if_neg hsq] at hsy
      exact hf.unclaimed s hs hsy

/-- What holds before set `k` of the second loop. -/
structure ClaimLoop (st₁ : Recurrent) (u : Ubatch) (k : ℕ) (x : Claim) : Prop where
  claimed : Claimed st₁ (firsts u k) x.st
  search : k < u.nSeqs → (∃ e, Free x.st e) → Search x.st st₁.head x.next
  bounds : ∀ s < k, ∃ t, x.st.tail (firstOf u s) = some t ∧ x.min ≤ t ∧ t ≤ x.max
  max_lt : x.max < x.st.size

theorem Claim.widen_bounds {x : Claim} {s t : ℕ} (h : x.min ≤ s ∧ s ≤ x.max) :
    (x.widen t).min ≤ s ∧ s ≤ (x.widen t).max := by
  simp only [Claim.widen]
  split <;> split <;> omega

theorem Claim.widen_self (x : Claim) (t : ℕ) : (x.widen t).min ≤ t ∧ t ≤ (x.widen t).max := by
  simp only [Claim.widen]
  split <;> split <;> omega

theorem ClaimLoop.bounds_widen {u : Ubatch} {k : ℕ} {x : Claim} (h : ClaimLoop st₁ u k x) {y : Claim} {t : ℕ}
    (hmin : y.min = x.min) (hmax : y.max = x.max) (hsize : y.st.size = x.st.size) (ht : t < x.st.size)
    (hself : y.st.tail (firstOf u k) = some t) (hother : ∀ s < k, y.st.tail (firstOf u s) = x.st.tail (firstOf u s)) :
    (∀ s < k + 1, ∃ t', y.st.tail (firstOf u s) = some t' ∧ (y.widen t).min ≤ t' ∧ t' ≤ (y.widen t).max) ∧
      (y.widen t).max < y.st.size := by
  refine ⟨fun s hs => ?_, ?_⟩
  · rcases Nat.lt_succ_iff_lt_or_eq.mp hs with hs | rfl
    · obtain ⟨t', htail, hb⟩ := h.bounds s hs
      exact ⟨t', by rw [hother s hs, htail], Claim.widen_bounds (by rw [hmin, hmax]; exact hb)⟩
    · exact ⟨t, hself, y.widen_self t⟩
  · have := h.max_lt
    simp only [Claim.widen]
    split <;> omega

theorem ClaimLoop.step {u : Ubatch} (hu : SlotUbatch st₁.size u) (hhead : st₁.head ≤ st₁.size) {k : ℕ}
    (hk : k < u.nSeqs) {x : Claim} (h : ClaimLoop st₁ u k x) :
    (claim (k + 1 = u.nSeqs) x (firstOf u k)).checks = true ∧
      ClaimLoop st₁ u (k + 1) (claim (k + 1 = u.nSeqs) x (firstOf u k)).value := by
  have hsize := h.claimed.size
  have hq : firstOf u k < x.st.size := hsize.symm ▸ hu.firstOf_lt hk
  have hnot : firstOf u k ∉ firsts u k := by
    rw [mem_firsts]
    rintro ⟨s, hs, heq⟩
    exact absurd (hu.firstOf_inj (by omega) hk heq) (by omega)
  have hdone : ∀ p ∈ firsts u k, p < x.st.size := by
    intro p hp
    obtain ⟨s, hs, rfl⟩ := (mem_firsts).mp hp
    exact hsize.symm ▸ hu.firstOf_lt (by omega)
  have hne : ∀ s < k, firstOf u s ≠ firstOf u k := fun s hs heq =>
    hnot ((mem_firsts).mpr ⟨s, hs, heq⟩)
  -- the next search, in a state where `x.next` was given away
  have hnext : ∀ st' : Recurrent, st'.size = x.st.size → Search x.st st₁.head x.next → ¬ Free st' x.next →
      (∀ y, y ≠ x.next → (Free st' y ↔ Free x.st y)) →
      (∀ y < x.st.size, st'.seqId y = ∅ → x.st.seqId y = ∅) → k + 1 < u.nSeqs → (∃ e, Free st' e) →
      Search st' st₁.head (if decide (k + 1 = u.nSeqs) = true then x.next else st'.nextEmpty x.st.size x.next) := by
    intro st' hsize' hsearch hnf hsame hempty hlast hfree
    rw [if_neg (by simp; omega), ← hsize']
    exact hsearch.next (hsize.symm ▸ hhead) hsize' hnf hsame hempty hfree
  cases htail : x.st.tail (firstOf u k) with
  | none =>
    have hsearch := h.search hk (h.claimed.exists_free hq hnot fun t ht => by rw [htail] at ht; simp at ht)
    have he := hsearch.free
    rw [claim_new _ htail he.empty]
    have hclaimed := h.claimed.takeNew hdone hq hnot htail he
    obtain ⟨hbounds, hmax⟩ := h.bounds_widen (y := { x with
      st := x.st.setTail (firstOf u k) (some x.next)
      next := if decide (k + 1 = u.nSeqs) = true then x.next
        else (x.st.setTail (firstOf u k) (some x.next)).nextEmpty x.st.size x.next })
      rfl rfl rfl he.lt (by simp) fun s hs => by simp [hne s hs]
    refine ⟨rfl, by rw [firsts_succ]; exact hclaimed, fun hlast hfree => ?_, hbounds, hmax⟩
    obtain ⟨hnf, hsame⟩ := Claimed.free_setTail (e := x.next) hq htail
    exact hnext (x.st.setTail (firstOf u k) (some x.next)) rfl hsearch hnf hsame
      (fun y _ hy => by simpa using hy) hlast hfree
  | some t =>
    obtain ⟨ht, hcase⟩ := h.claimed.tail_cases _ hq t htail
    have hmem : firstOf u k ∈ x.st.seqId t := hcase.resolve_right fun hd => hnot hd.1
    by_cases hcard : (x.st.seqId t).card = 1
    · rw [claim_own _ htail hmem hcard]
      obtain ⟨hbounds, hmax⟩ := h.bounds_widen (y := x) rfl rfl rfl ht htail fun _ _ => rfl
      refine ⟨rfl, ?_, fun hlast hfree => h.search hk hfree, hbounds, hmax⟩
      rw [firsts_succ]
      exact h.claimed.keep hq hnot htail hcard
    · have hsearch := h.search hk (h.claimed.exists_free hq hnot fun t' ht' => by
        rw [htail, Option.some.injEq] at ht'
        exact ht' ▸ hcard)
      have he := hsearch.free
      obtain ⟨hrest, hclaimed⟩ := h.claimed.takeShared hdone hq hnot htail hcard he
      have het : x.next ≠ t := by
        intro heq
        exact he.unclaimed _ hq (heq ▸ htail)
      rw [claim_shared _ htail hmem hcard he.empty het hrest]
      obtain ⟨hbounds, hmax⟩ := h.bounds_widen (y := { x with
        st := Claimed.moved x.st (firstOf u k) t x.next
        next := if decide (k + 1 = u.nSeqs) = true then x.next
          else (Claimed.moved x.st (firstOf u k) t x.next).nextEmpty x.st.size x.next })
        rfl rfl rfl he.lt (by rw [Claimed.moved_tail, if_pos rfl]) fun s hs => by
          rw [Claimed.moved_tail, if_neg (hne s hs)]
      refine ⟨rfl, by rw [firsts_succ]; exact hclaimed, fun hlast hfree => ?_, hbounds, hmax⟩
      obtain ⟨hnf, hsame⟩ := Claimed.free_moved hq htail het hmem hrest
      refine hnext (Claimed.moved x.st (firstOf u k) t x.next) rfl hsearch hnf hsame (fun y _ hy => ?_) hlast hfree
      by_cases hy' : y = x.next
      · rw [hy']
        exact he.empty
      · exact (Claimed.moved_empty_iff het hmem hrest hy').mp hy

/-- **The second loop of `find_slot`** meets its checks and gives every set a cell. -/
theorem claimAll_spec (h : Exact st) (hhead : st.head ≤ st.size) {u : Ubatch} (hu : SlotUbatch st.size u) :
    (st.claimAll u).checks = true ∧ ClaimLoop st u u.nSeqs (st.claimAll u).value := by
  have hsize : 0 < st.size := lt_of_le_of_lt (zero_le _) (hu.firstOf_lt hu.nSeqs_pos)
  refine loopRange_checks_rule (ClaimLoop st u) u.nSeqs ?_ fun k x hk hx => hx.step hu hhead hk
  exact ⟨h.claimed, fun _ hfree => h.search hhead hfree, fun s hs => absurd hs (not_lt_zero s), hsize⟩

end Recurrent
