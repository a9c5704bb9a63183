import Mathlib.Data.Nat.Notation
import Mathlib.Data.List.Perm.Basic
import Mathlib.Data.List.Chain
import Mathlib.Algebra.BigOperators.Group.List.Basic
import Mathlib.Algebra.GroupWithZero.Nat

/-!
# Arenas cut into spans

An arena is a stretch of bytes cut into consecutive spans, each of them free or taken.  First-fit allocation cuts
a free span, release marks one free again, and coalescing joins neighbours that are both free.

The main facts are that the operations keep the tiling and change `taken` by exactly the span they are about, and
that in a coalesced arena the free spans are the gaps (`exists_fit_iff_gap`).

* `Gap b live a len` - `[a, a + len)` is a maximal run of bytes below `b` that no span of `live` covers.
-/

namespace Arena

open List

/-- A span of bytes, free or taken. -/
structure Span where
  data : ℕ
  size : ℕ
  isFree : Bool
  deriving DecidableEq, Repr

/-- Non-empty spans that cover `[a, b)` without gap or overlap. -/
def Tiles : ℕ → List Span → ℕ → Prop
  | a, [], b => a = b
  | a, s :: l, b => s.data = a ∧ 0 < s.size ∧ Tiles (a + s.size) l b

def taken : List Span → List (ℕ × ℕ)
  | [] => []
  | s :: l => if s.isFree then taken l else (s.data, s.size) :: taken l

/-- The span can serve a request of `k` bytes. -/
def Span.fits (k : ℕ) (s : Span) : Bool := s.isFree && decide (k ≤ s.size)

/-- The first `k` bytes of a span are taken, what is left of it stays free. -/
def carve (k : ℕ) (s : Span) : List Span :=
  if k < s.size then
    [{ s with size := k, isFree := false }, { data := s.data + k, size := s.size - k, isFree := true }]
  else [{ s with isFree := false }]

/-- First fit: the arena and the address after a request, `none` when no span fits. -/
def take (k : ℕ) : List Span → Option (List Span × ℕ)
  | [] => none
  | s :: l => if s.fits k then some (carve k s ++ l, s.data) else (take k l).map fun r => (s :: r.1, r.2)

def release (ptr : ℕ) : List Span → List Span
  | [] => []
  | s :: l => if s.data = ptr then { s with isFree := true } :: l else s :: release ptr l

def Span.join (s t : Span) : Span := { s with size := s.size + t.size }

def coalesceFrom : Span → List Span → List Span
  | s, [] => [s]
  | s, t :: l => if s.isFree && t.isFree then coalesceFrom (s.join t) l else s :: coalesceFrom t l

def coalesce : List Span → List Span
  | [] => []
  | s :: l => coalesceFrom s l

/-- A span that is taken and released is one with the rest again. -/
example : (take 4 [⟨0, 8, true⟩]).map (fun r => coalesce (release r.2 r.1)) = some [⟨0, 8, true⟩] := by
  simp [take, Span.fits, carve, release, coalesce, coalesceFrom, Span.join]

/-! ### Tiling -/

section Tiling

variable {a b k ptr : ℕ} {s : Span} {l xs ys : List Span}

theorem tiles_append : Tiles a (xs ++ ys) b ↔ ∃ c, Tiles a xs c ∧ Tiles c ys b := by
  induction xs generalizing a with
  | nil => simp [Tiles]
  | cons x xs ih =>
    simp only [cons_append, Tiles, ih]
    constructor
    · rintro ⟨hd, hs, c, h₁, h₂⟩
      exact ⟨c, ⟨hd, hs, h₁⟩, h₂⟩
    · rintro ⟨c, ⟨hd, hs, h₁⟩, h₂⟩
      exact ⟨hd, hs, c, h₁, h₂⟩

theorem Tiles.le (h : Tiles a l b) : a ≤ b := by
  induction l generalizing a with
  | nil => exact Nat.le_of_eq h
  | cons s l ih =>
    have hrest := ih h.2.2
    omega

theorem Tiles.mem_bounds (h : Tiles a l b) (hs : s ∈ l) : a ≤ s.data ∧ 0 < s.size ∧ s.data + s.size ≤ b := by
  induction l generalizing a with
  | nil => cases hs
  | cons t l ih =>
    obtain ⟨hd, hp, hrest⟩ := h
    rcases mem_cons.1 hs with rfl | hs
    · exact ⟨hd.ge, hp, hd ▸ hrest.le⟩
    · obtain ⟨h₁, h₂, h₃⟩ := ih hrest hs
      exact ⟨by omega, h₂, h₃⟩

theorem Tiles.covers (h : Tiles a l b) {x : ℕ} (ha : a ≤ x) (hb : x < b) :
    ∃ s ∈ l, s.data ≤ x ∧ x < s.data + s.size := by
  induction l generalizing a with
  | nil =>
    have hab : a = b := h
    omega
  | cons t l ih =>
    obtain ⟨hd, hp, hrest⟩ := h
    by_cases hx : x < t.data + t.size
    · exact ⟨t, mem_cons_self, by omega, hx⟩
    · obtain ⟨s, hs, hin⟩ := ih hrest (by omega)
      exact ⟨s, mem_cons_of_mem t hs, hin⟩

theorem Tiles.eq_of_shared {t : Span} {x : ℕ} (h : Tiles a l b) (hs : s ∈ l) (ht : t ∈ l)
    (hxs : s.data ≤ x ∧ x < s.data + s.size) (hxt : t.data ≤ x ∧ x < t.data + t.size) : s = t := by
  induction l generalizing a with
  | nil => cases hs
  | cons u l ih =>
    obtain ⟨hd, -, hrest⟩ := h
    rcases mem_cons.1 hs with rfl | hs'
    · rcases mem_cons.1 ht with rfl | ht'
      · rfl
      · have hbounds := hrest.mem_bounds ht'
        omega
    · rcases mem_cons.1 ht with rfl | ht'
      · have hbounds := hrest.mem_bounds hs'
        omega
      · exact ih hrest hs' ht'

theorem mem_taken {x : ℕ × ℕ} : x ∈ taken l ↔ ∃ s ∈ l, s.isFree = false ∧ x = (s.data, s.size) := by
  induction l with
  | nil => simp [taken]
  | cons s l ih =>
    cases hfree : s.isFree <;> simp [taken, hfree, ih]

theorem Tiles.taken_pairwise (h : Tiles a l b) : (taken l).Pairwise fun x y => x.1 + x.2 ≤ y.1 := by
  induction l generalizing a with
  | nil => exact List.Pairwise.nil
  | cons s l ih =>
    obtain ⟨hd, -, hrest⟩ := h
    rw [taken]
    cases hfree : s.isFree with
    | true => exact ih hrest
    | false =>
      apply List.Pairwise.cons _ (ih hrest)
      intro x hx
      obtain ⟨t, ht, -, rfl⟩ := (mem_taken).1 hx
      rw [hd]
      exact (hrest.mem_bounds ht).1

theorem Tiles.sum_taken_le (h : Tiles a l b) : a + ((taken l).map Prod.snd).sum ≤ b := by
  induction l generalizing a with
  | nil => exact Nat.le_of_eq h
  | cons s l ih =>
    have hrest := ih h.2.2
    rw [taken]
    split
    · omega
    · rw [map_cons, sum_cons]
      omega

end Tiling

/-! ### Taking -/

section Taking

variable {a b k ptr : ℕ} {s : Span} {l l' xs ys : List Span}

theorem carve_tiles (hk : 0 < k) (hfit : k ≤ s.size) (hd : s.data = a) : Tiles a (carve k s) (a + s.size) := by
  rw [carve]
  split
  · refine ⟨hd, hk, ?_, ?_, ?_⟩
    · show s.data + k = a + k
      rw [hd]
    · show 0 < s.size - k
      omega
    · show a + k + (s.size - k) = a + s.size
      omega
  · exact ⟨hd, by show 0 < s.size; omega, rfl⟩

theorem taken_carve (hfit : k ≤ s.size) : taken (carve k s ++ l) = (s.data, k) :: taken l := by
  rw [carve]
  split
  · rfl
  · have hk : s.size = k := by omega
    show (s.data, s.size) :: taken l = _
    rw [hk]

theorem take_append (hxs : ∀ x ∈ xs, x.fits k = false) (hs : s.fits k = true) :
    take k (xs ++ s :: ys) = some (xs ++ (carve k s ++ ys), s.data) := by
  induction xs with
  | nil => simp [take, hs]
  | cons x xs ih =>
    have hx : x.fits k = false := hxs x mem_cons_self
    have ih' := ih fun y hy => hxs y (mem_cons_of_mem x hy)
    simp [take, hx, ih']

theorem take_eq_none (hl : ∀ x ∈ l, x.fits k = false) : take k l = none := by
  induction l with
  | nil => rfl
  | cons x l ih =>
    have hx : x.fits k = false := hl x mem_cons_self
    have ih' := ih fun y hy => hl y (mem_cons_of_mem x hy)
    simp [take, hx, ih']

theorem take_isSome_iff : (take k l).isSome ↔ ∃ s ∈ l, s.fits k := by
  induction l with
  | nil => simp [take]
  | cons s l ih =>
    rw [take]
    cases hfit : s.fits k <;> simp [hfit, ih]

theorem take_tiles (hk : 0 < k) (ht : take k l = some (l', ptr)) (h : Tiles a l b) : Tiles a l' b := by
  induction l generalizing a l' with
  | nil => cases ht
  | cons s l ih =>
    obtain ⟨hd, hp, hrest⟩ := h
    rw [take] at ht
    split at ht
    · rename_i hfit
      rw [Span.fits, Bool.and_eq_true, decide_eq_true_iff] at hfit
      simp only [Option.some.injEq, Prod.mk.injEq] at ht
      obtain ⟨rfl, rfl⟩ := ht
      exact (tiles_append).2 ⟨a + s.size, carve_tiles hk hfit.2 hd, hrest⟩
    · simp only [Option.map_eq_some_iff, Prod.mk.injEq, Prod.exists] at ht
      obtain ⟨l₁, p, ht, rfl, rfl⟩ := ht
      exact ⟨hd, hp, ih ht hrest⟩

theorem take_taken (ht : take k l = some (l', ptr)) : (taken l').Perm ((ptr, k) :: taken l) := by
  induction l generalizing l' with
  | nil => cases ht
  | cons s l ih =>
    rw [take] at ht
    split at ht
    · rename_i hfit
      rw [Span.fits, Bool.and_eq_true, decide_eq_true_iff] at hfit
      simp only [Option.some.injEq, Prod.mk.injEq] at ht
      obtain ⟨rfl, rfl⟩ := ht
      rw [taken_carve hfit.2, taken, if_pos hfit.1]
    · simp only [Option.map_eq_some_iff, Prod.mk.injEq, Prod.exists] at ht
      obtain ⟨l₁, p, ht, rfl, rfl⟩ := ht
      have ih' := ih ht
      rw [taken, taken]
      cases s.isFree with
      | true => exact ih'
      | false => exact (ih'.cons _).trans (List.Perm.swap _ _ _)

end Taking

/-! ### Releasing -/

section Releasing

variable {a b k ptr : ℕ} {s : Span} {l xs ys : List Span}

theorem release_append (hxs : ∀ x ∈ xs, x.data ≠ ptr) (hs : s.data = ptr) :
    release ptr (xs ++ s :: ys) = xs ++ { s with isFree := true } :: ys := by
  induction xs with
  | nil => simp [release, hs]
  | cons x xs ih =>
    have hx : x.data ≠ ptr := hxs x mem_cons_self
    have ih' := ih fun y hy => hxs y (mem_cons_of_mem x hy)
    simp [release, hx, ih']

theorem release_tiles (h : Tiles a l b) : Tiles a (release ptr l) b := by
  induction l generalizing a with
  | nil => exact h
  | cons s l ih =>
    obtain ⟨hd, hp, hrest⟩ := h
    rw [release]
    split
    · exact ⟨hd, hp, hrest⟩
    · exact ⟨hd, hp, ih hrest⟩

theorem release_taken (h : Tiles a l b) (hmem : (ptr, k) ∈ taken l) :
    (taken l).Perm ((ptr, k) :: taken (release ptr l)) := by
  induction l generalizing a with
  | nil => cases hmem
  | cons s l ih =>
    obtain ⟨hd, hp, hrest⟩ := h
    obtain ⟨t, ht, hfree, heq⟩ := (mem_taken).1 hmem
    rw [Prod.mk.injEq] at heq
    obtain ⟨rfl, rfl⟩ := heq
    rcases mem_cons.1 ht with rfl | ht
    · simp [taken, release, hfree]
    · have hne : s.data ≠ t.data := by
        have hbounds := hrest.mem_bounds ht
        omega
      have ih' := ih hrest ((mem_taken).2 ⟨t, ht, hfree, rfl⟩)
      rw [release, if_neg hne, taken, taken]
      cases s.isFree with
      | true => exact ih'
      | false => exact (ih'.cons _).trans (List.Perm.swap _ _ _)

end Releasing

/-! ### Coalescing -/

section Coalescing

variable {a b : ℕ} {s : Span} {l : List Span}

def Coalesced (l : List Span) : Prop := l.IsChain fun s t => ¬(s.isFree = true ∧ t.isFree = true)

theorem coalesceFrom_tiles (h : Tiles a (s :: l) b) : Tiles a (coalesceFrom s l) b := by
  induction l generalizing a s with
  | nil => exact h
  | cons t l ih =>
    obtain ⟨hd, hp, hd', hp', hrest⟩ := h
    rw [coalesceFrom]
    split
    · apply ih
      refine ⟨hd, by show 0 < s.size + t.size; omega, ?_⟩
      show Tiles (a + (s.size + t.size)) l b
      rw [← Nat.add_assoc]
      exact hrest
    · exact ⟨hd, hp, ih ⟨hd', hp', hrest⟩⟩

theorem coalesce_tiles (h : Tiles a l b) : Tiles a (coalesce l) b := by
  cases l with
  | nil => exact h
  | cons s l => exact coalesceFrom_tiles h

theorem coalesceFrom_taken : taken (coalesceFrom s l) = taken (s :: l) := by
  induction l generalizing s with
  | nil => rfl
  | cons t l ih =>
    rw [coalesceFrom]
    split
    · rename_i hboth
      rw [Bool.and_eq_true] at hboth
      rw [ih]
      simp [taken, Span.join, hboth.1, hboth.2]
    · rw [taken, ih]
      rfl

theorem coalesce_taken : taken (coalesce l) = taken l := by
  cases l with
  | nil => rfl
  | cons s l => exact coalesceFrom_taken

theorem coalesceFrom_head : ∃ t rest, coalesceFrom s l = t :: rest ∧ t.isFree = s.isFree := by
  induction l generalizing s with
  | nil => exact ⟨s, [], rfl, rfl⟩
  | cons t l ih =>
    rw [coalesceFrom]
    split
    · exact ih
    · exact ⟨s, _, rfl, rfl⟩

theorem coalesceFrom_coalesced : Coalesced (coalesceFrom s l) := by
  induction l generalizing s with
  | nil => exact isChain_singleton s
  | cons t l ih =>
    rw [coalesceFrom]
    split
    · exact ih
    · rename_i hboth
      obtain ⟨u, rest, heq, hfree⟩ := coalesceFrom_head (s := t) (l := l)
      have hrest : Coalesced (coalesceFrom t l) := ih
      rw [heq] at hrest ⊢
      apply List.IsChain.cons_cons _ hrest
      rwa [hfree, ← Bool.and_eq_true]

theorem coalesce_coalesced : Coalesced (coalesce l) := by
  cases l with
  | nil => exact isChain_nil
  | cons s l => exact coalesceFrom_coalesced

end Coalescing

/-! ### Gaps -/

/-- The byte `x` is in one of the stretches of `live`. -/
def Covered (live : List (ℕ × ℕ)) (x : ℕ) : Prop := ∃ r ∈ live, r.1 ≤ x ∧ x < r.1 + r.2

/-- The stretch `[a, a + len)` is a maximal run of uncovered bytes below `b`. -/
structure Gap (b : ℕ) (live : List (ℕ × ℕ)) (a len : ℕ) : Prop where
  pos : 0 < len
  inside : a + len ≤ b
  uncovered : ∀ x, a ≤ x → x < a + len → ¬Covered live x
  left : a = 0 ∨ Covered live (a - 1)
  right : a + len = b ∨ Covered live (a + len)

section Gaps

variable {a b k x : ℕ} {s : Span} {l : List Span}

theorem Tiles.covered_iff (h : Tiles a l b) (hs : s ∈ l) (hlo : s.data ≤ x) (hhi : x < s.data + s.size) :
    Covered (taken l) x ↔ s.isFree = false := by
  constructor
  · rintro ⟨r, hr, h₁, h₂⟩
    obtain ⟨t, ht, hfree, rfl⟩ := (mem_taken).1 hr
    have hst : s = t := h.eq_of_shared hs ht ⟨hlo, hhi⟩ ⟨h₁, h₂⟩
    rw [hst]
    exact hfree
  · intro hfree
    exact ⟨(s.data, s.size), (mem_taken).2 ⟨s, hs, hfree, rfl⟩, hlo, hhi⟩

theorem Tiles.gap_of_free (h : Tiles 0 l b) (hc : Coalesced l) (hs : s ∈ l) (hfree : s.isFree = true) :
    Gap b (taken l) s.data s.size := by
  obtain ⟨xs, ys, rfl⟩ := append_of_mem hs
  have hbounds := h.mem_bounds hs
  obtain ⟨c, hxs, hd, hp, hys⟩ := (tiles_append).1 h
  rw [Coalesced, isChain_append] at hc
  obtain ⟨-, hcs, hcx⟩ := hc
  refine ⟨hp, hbounds.2.2, ?_, ?_, ?_⟩
  · intro x hlo hhi hcov
    rw [h.covered_iff hs hlo hhi, hfree] at hcov
    cases hcov
  · -- the span before
    rcases eq_nil_or_concat xs with rfl | ⟨xs, t, rfl⟩
    · left
      have h0 : 0 = c := hxs
      omega
    · right
      rw [concat_eq_append] at hxs hcx h hs
      obtain ⟨c', -, htd, htp, htc⟩ := (tiles_append).1 hxs
      have hc' : c' + t.size = c := htc
      have ht : t ∈ xs ++ [t] ++ s :: ys := by simp
      have htaken : t.isFree = false := by
        have hnot := hcx t (by simp) s (by simp)
        simpa [hfree] using hnot
      rw [concat_eq_append]
      exact (h.covered_iff ht (by omega) (by omega)).2 htaken
  · -- the span behind
    cases ys with
    | nil =>
      left
      have hb : c + s.size = b := hys
      omega
    | cons t ys =>
      right
      obtain ⟨htd, htp, -⟩ := hys
      have ht : t ∈ xs ++ s :: t :: ys := by simp
      have htaken : t.isFree = false := by
        have hnot := (isChain_cons_cons.1 hcs).1
        simpa [hfree] using hnot
      exact (h.covered_iff ht (by omega) (by omega)).2 htaken

/-- **In a coalesced arena a request fits some span exactly when it fits a gap.** -/
theorem Tiles.exists_fit_iff_gap (h : Tiles 0 l b) (hc : Coalesced l) :
    (∃ s ∈ l, s.fits k) ↔ ∃ a len, Gap b (taken l) a len ∧ k ≤ len := by
  constructor
  · rintro ⟨s, hs, hfit⟩
    rw [Span.fits, Bool.and_eq_true, decide_eq_true_iff] at hfit
    exact ⟨s.data, s.size, h.gap_of_free hc hs hfit.1, hfit.2⟩
  · rintro ⟨a, len, hgap, hk⟩
    have hpos := hgap.pos
    have hin := hgap.inside
    obtain ⟨s, hs, hlo, hhi⟩ := h.covers (Nat.zero_le a) (by omega : a < b)
    have hfree : s.isFree = true := by
      have hun := hgap.uncovered a le_rfl (by omega)
      rw [h.covered_iff hs hlo hhi] at hun
      simpa using hun
    -- the gap cannot be longer than the free span it starts in: that span is a gap itself
    have hown := h.gap_of_free hc hs hfree
    have hlen : len ≤ s.size := by
      by_contra hlt
      rcases hown.right with hend | hcov
      · omega
      · exact hgap.uncovered (s.data + s.size) (by omega) (by omega) hcov
    exact ⟨s, hs, by simp [Span.fits, hfree, hk.trans hlen]⟩

end Gaps

end Arena
