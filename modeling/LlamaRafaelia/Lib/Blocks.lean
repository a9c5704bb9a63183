import Mathlib.Data.Set.Lattice
import Mathlib.Order.Interval.Set.Basic
import Mathlib.Data.List.Basic
import Mathlib.Order.CompletePartialOrder

/-!
# Lists of free blocks

A block is a range of addresses.  A list of blocks holds a set of addresses (`Holds`) when the blocks have no address in
common and their union is the set; the order of the blocks does not matter.

* `Holds.append_iff` - two lists hold what each of them holds.
-/

/-- A range of addresses. -/
structure Block where
  offset : ℕ
  size : ℕ
deriving DecidableEq, Repr

namespace Block

def bytes (b : Block) : Set ℕ := Set.Ico b.offset (b.offset + b.size)

theorem mem_bytes {b : Block} {x : ℕ} : x ∈ b.bytes ↔ b.offset ≤ x ∧ x < b.offset + b.size := Iff.rfl

theorem bytes_join (offset size size' : ℕ) :
    bytes ⟨offset, size + size'⟩ = bytes ⟨offset, size⟩ ∪ bytes ⟨offset + size, size'⟩ := by
  ext x
  simp only [Set.mem_union, mem_bytes]
  omega

theorem bytes_empty (offset : ℕ) : bytes ⟨offset, 0⟩ = ∅ := by
  ext x
  simp only [mem_bytes, Set.mem_empty_iff_false, iff_false]
  omega

theorem disjoint_next (offset size size' : ℕ) : Disjoint (bytes ⟨offset, size⟩) (bytes ⟨offset + size, size'⟩) := by
  rw [Set.disjoint_left]
  intro x hx hx'
  rw [mem_bytes] at hx hx'
  dsimp only at hx hx'
  omega

end Block

/-- **The blocks hold the set of addresses**: they have no address in common, and every address of the set is in one. -/
structure Holds (l : List Block) (S : Set ℕ) : Prop where
  apart : l.Pairwise fun a b => Disjoint a.bytes b.bytes
  union : ∀ x, x ∈ S ↔ ∃ b ∈ l, x ∈ b.bytes

namespace Holds

open List

variable {pre post : List Block} {a b c : Block} {S R : Set ℕ}

theorem nil : Holds [] ∅ := ⟨List.Pairwise.nil, by simp⟩

theorem single (b : Block) : Holds [b] b.bytes := ⟨pairwise_singleton _ _, by simp⟩

theorem congr {l : List Block} {S' : Set ℕ} (h : Holds l S) (hS : S = S') : Holds l S' := hS ▸ h

theorem middle_iff : Holds (pre ++ b :: post) S ↔
    ∃ T, Holds (pre ++ post) T ∧ Disjoint b.bytes T ∧ S = T ∪ b.bytes := by
  constructor
  · rintro ⟨hapart, hunion⟩
    rw [pairwise_append, pairwise_cons] at hapart
    obtain ⟨hpre, ⟨hb, hpost⟩, hcross⟩ := hapart
    refine ⟨{x | ∃ d ∈ pre ++ post, x ∈ d.bytes}, ⟨?_, fun x => Iff.rfl⟩, ?_, ?_⟩
    · rw [pairwise_append]
      exact ⟨hpre, hpost, fun d hd e he => hcross d hd e (mem_cons_of_mem _ he)⟩
    · rw [Set.disjoint_left]
      rintro x hx ⟨d, hd, hxd⟩
      rcases mem_append.mp hd with hd | hd
      · exact Set.disjoint_left.mp (hcross d hd b (mem_cons_self ..)) hxd hx
      · exact Set.disjoint_left.mp (hb d hd) hx hxd
    · ext x
      rw [hunion, Set.mem_union, Set.mem_ofPred_eq]
      constructor
      · rintro ⟨d, hd, hxd⟩
        rw [mem_append, mem_cons] at hd
        rcases hd with hd | rfl | hd
        · exact .inl ⟨d, mem_append_left _ hd, hxd⟩
        · exact .inr hxd
        · exact .inl ⟨d, mem_append_right _ hd, hxd⟩
      · rintro (⟨d, hd, hxd⟩ | hx)
        · rcases mem_append.mp hd with hd | hd
          · exact ⟨d, mem_append_left _ hd, hxd⟩
          · exact ⟨d, mem_append_right _ (mem_cons_of_mem _ hd), hxd⟩
        · exact ⟨b, mem_append_right _ (mem_cons_self ..), hx⟩
  · rintro ⟨T, ⟨hapart, hunion⟩, hdisj, rfl⟩
    have hother : ∀ d ∈ pre ++ post, Disjoint b.bytes d.bytes := by
      intro d hd
      rw [Set.disjoint_left] at hdisj ⊢
      exact fun x hx hxd => hdisj hx ((hunion x).mpr ⟨d, hd, hxd⟩)
    rw [pairwise_append] at hapart
    obtain ⟨hpre, hpost, hcross⟩ := hapart
    refine ⟨?_, fun x => ?_⟩
    · rw [pairwise_append, pairwise_cons]
      refine ⟨hpre, ⟨fun d hd => hother d (mem_append_right _ hd), hpost⟩, fun d hd e he => ?_⟩
      rcases mem_cons.mp he with rfl | he
      · exact (hother d (mem_append_left _ hd)).symm
      · exact hcross d hd e he
    · rw [Set.mem_union, hunion]
      constructor
      · rintro (⟨d, hd, hxd⟩ | hx)
        · rcases mem_append.mp hd with hd | hd
          · exact ⟨d, mem_append_left _ hd, hxd⟩
          · exact ⟨d, mem_append_right _ (mem_cons_of_mem _ hd), hxd⟩
        · exact ⟨b, mem_append_right _ (mem_cons_self ..), hx⟩
      · rintro ⟨d, hd, hxd⟩
        rw [mem_append, mem_cons] at hd
        rcases hd with hd | rfl | hd
        · exact .inl ⟨d, mem_append_left _ hd, hxd⟩
        · exact .inr hxd
        · exact .inl ⟨d, mem_append_right _ hd, hxd⟩

theorem carve (h : Holds (pre ++ b :: post) S) (hb : b.bytes = R ∪ c.bytes) (hdisj : Disjoint R c.bytes) :
    R ⊆ S ∧ Holds (pre ++ c :: post) (S \ R) := by
  obtain ⟨T, hT, hbT, rfl⟩ := (middle_iff).mp h
  rw [hb, Set.disjoint_union_left] at hbT
  refine ⟨fun x hx => .inr (hb ▸ .inl hx), (middle_iff).mpr ⟨T, hT, hbT.2, ?_⟩⟩
  rw [hb, Set.union_sdiff_distrib, hbT.1.symm.sdiff_eq_left, Set.union_sdiff_left, hdisj.symm.sdiff_eq_left]

theorem drop (h : Holds (pre ++ b :: post) S) (hb : b.bytes = ∅) : Holds (pre ++ post) S := by
  obtain ⟨T, hT, -, rfl⟩ := (middle_iff).mp h
  rwa [hb, Set.union_empty]

theorem grow (h : Holds (pre ++ b :: post) S) (hc : c.bytes = b.bytes ∪ R) (hdisj : Disjoint R S) :
    Holds (pre ++ c :: post) (S ∪ R) := by
  obtain ⟨T, hT, hbT, rfl⟩ := (middle_iff).mp h
  rw [Set.disjoint_union_right] at hdisj
  refine (middle_iff).mpr ⟨T, hT, ?_, by rw [hc, Set.union_assoc]⟩
  rw [hc, Set.disjoint_union_left]
  exact ⟨hbT, hdisj.1⟩

theorem merge (h : Holds (pre ++ a :: b :: post) S) (hc : c.bytes = a.bytes ∪ b.bytes) :
    Holds (pre ++ c :: post) S := by
  obtain ⟨T, hT, haT, rfl⟩ := (middle_iff).mp h
  obtain ⟨T', hT', hbT', rfl⟩ := (middle_iff).mp hT
  rw [Set.disjoint_union_right] at haT
  refine (middle_iff).mpr ⟨T', hT', ?_, ?_⟩
  · rw [hc, Set.disjoint_union_left]
    exact ⟨haT.1, hbT'⟩
  · rw [hc, Set.union_assoc, Set.union_comm b.bytes]

theorem insert (h : Holds (pre ++ post) S) (hdisj : Disjoint b.bytes S) : Holds (pre ++ b :: post) (S ∪ b.bytes) :=
  (middle_iff).mpr ⟨S, h, hdisj, rfl⟩

theorem append_iff : Holds (pre ++ post) S ↔ ∃ A B, Holds pre A ∧ Holds post B ∧ Disjoint A B ∧ S = A ∪ B := by
  constructor
  · rintro ⟨hapart, hunion⟩
    obtain ⟨hpre, hpost, hcross⟩ := pairwise_append.mp hapart
    refine ⟨{x | ∃ d ∈ pre, x ∈ d.bytes}, {x | ∃ d ∈ post, x ∈ d.bytes}, ⟨hpre, fun x => Iff.rfl⟩,
      ⟨hpost, fun x => Iff.rfl⟩, ?_, ?_⟩
    · rw [Set.disjoint_left]
      rintro x ⟨d, hd, hx⟩ ⟨e, he, hx'⟩
      exact Set.disjoint_left.mp (hcross d hd e he) hx hx'
    · ext x
      simp only [hunion, mem_append, Set.mem_union, Set.mem_ofPred_eq, or_and_right, exists_or]
  · rintro ⟨A, B, hA, hB, hdisj, rfl⟩
    refine ⟨pairwise_append.mpr ⟨hA.apart, hB.apart, fun d hd e he => ?_⟩, fun x => ?_⟩
    · rw [Set.disjoint_left] at hdisj ⊢
      exact fun x hx hx' => hdisj ((hA.union x).mpr ⟨d, hd, hx⟩) ((hB.union x).mpr ⟨e, he, hx'⟩)
    · simp only [Set.mem_union, hA.union, hB.union, mem_append, or_and_right, exists_or]

theorem subset {l : List Block} (h : Holds l S) (hb : b ∈ l) : b.bytes ⊆ S :=
  fun x hx => (h.union x).mpr ⟨b, hb, hx⟩

end Holds
