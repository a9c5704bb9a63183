import LlamaRafaelia.Alloc.Tallocr
import Mathlib.Data.List.TakeWhile

/-!
# Allocator: the free blocks of one chunk

A chunk has a range of addresses, and its free blocks and the live allocations in it tile the range.  The free blocks lie
one behind the other with something live between any two of them.

* `Tiled.last` - **a range that is longer than all that was allocated ends with a free block**, the last one of its list.
-/

namespace Alloc

open List Block

/-! ### Orderly lists -/

/-- **The free blocks of a chunk**: one behind the other, with room in between, none empty, and each at an address at which
a block may start. -/
structure Orderly (start : ℕ → Prop) (blocks : List Block) : Prop where
  spaced : blocks.Pairwise fun a b => a.offset + a.size < b.offset
  solid : ∀ b ∈ blocks, 0 < b.size
  starts : ∀ b ∈ blocks, start b.offset

namespace Orderly

variable {start : ℕ → Prop} {pre post blocks : List Block} {b c r : Block}

theorem middle_iff : Orderly start (pre ++ b :: post) ↔
    Orderly start (pre ++ post) ∧ (∀ a ∈ pre, a.offset + a.size < b.offset) ∧
      (∀ d ∈ post, b.offset + b.size < d.offset) ∧ 0 < b.size ∧ start b.offset := by
  constructor
  · rintro ⟨hspaced, hsolid, hstarts⟩
    obtain ⟨hpre, hpost, hcross⟩ := pairwise_append.mp hspaced
    obtain ⟨hb, hpost⟩ := pairwise_cons.mp hpost
    have hsub : ∀ d ∈ pre ++ post, d ∈ pre ++ b :: post := by
      intro d hd
      rcases mem_append.mp hd with hd | hd
      · exact mem_append_left _ hd
      · exact mem_append_right _ (mem_cons_of_mem _ hd)
    have hmem : b ∈ pre ++ b :: post := mem_append_right _ (mem_cons_self ..)
    refine ⟨⟨pairwise_append.mpr ⟨hpre, hpost, ?_⟩, fun d hd => hsolid d (hsub d hd),
      fun d hd => hstarts d (hsub d hd)⟩, ?_, hb, hsolid b hmem, hstarts b hmem⟩
    · exact fun a ha d hd => hcross a ha d (mem_cons_of_mem _ hd)
    · exact fun a ha => hcross a ha b (mem_cons_self ..)
  · rintro ⟨⟨hspaced, hsolid, hstarts⟩, hbefore, hafter, hsize, hstart⟩
    obtain ⟨hpre, hpost, hcross⟩ := pairwise_append.mp hspaced
    have hcases : ∀ d ∈ pre ++ b :: post, d = b ∨ d ∈ pre ++ post := by
      intro d hd
      rcases mem_append.mp hd with hd | hd
      · exact .inr (mem_append_left _ hd)
      · rcases mem_cons.mp hd with rfl | hd
        · exact .inl rfl
        · exact .inr (mem_append_right _ hd)
    refine ⟨pairwise_append.mpr ⟨hpre, pairwise_cons.mpr ⟨hafter, hpost⟩, ?_⟩, ?_, ?_⟩
    · intro a ha d hd
      rcases mem_cons.mp hd with rfl | hd
      · exact hbefore a ha
      · exact hcross a ha d hd
    · intro d hd
      rcases hcases d hd with rfl | hd
      · exact hsize
      · exact hsolid d hd
    · intro d hd
      rcases hcases d hd with rfl | hd
      · exact hstart
      · exact hstarts d hd

theorem replace (h : Orderly start (pre ++ b :: post)) (hbefore : ∀ a ∈ pre, a.offset + a.size < c.offset)
    (hafter : ∀ d ∈ post, c.offset + c.size < d.offset) (hsize : 0 < c.size) (hstart : start c.offset) :
    Orderly start (pre ++ c :: post) :=
  (middle_iff).mpr ⟨((middle_iff).mp h).1, hbefore, hafter, hsize, hstart⟩

theorem carve {size : ℕ} (h : Orderly start (pre ++ b :: post)) (hsize : size < b.size) (hstart : start (b.offset + size)) :
    Orderly start (pre ++ ⟨b.offset + size, b.size - size⟩ :: post) := by
  obtain ⟨-, hbefore, hafter, -, -⟩ := (middle_iff).mp h
  refine h.replace ?_ ?_ ?_ hstart
  · intro a ha
    have := hbefore a ha
    dsimp only
    omega
  · intro d hd
    have := hafter d hd
    dsimp only
    omega
  · dsimp only
    omega

theorem drop (h : Orderly start (pre ++ b :: post)) : Orderly start (pre ++ post) := ((middle_iff).mp h).1

theorem mono {start' : ℕ → Prop} (h : Orderly start blocks) (hsub : ∀ o, start o → start' o) : Orderly start' blocks :=
  ⟨h.spaced, h.solid, fun b hb => hsub _ (h.starts b hb)⟩

end Orderly

theorem apart_of_disjoint {a b : Block} (ha : 0 < a.size) (hb : 0 < b.size) (h : Disjoint a.bytes b.bytes) :
    a.offset + a.size ≤ b.offset ∨ b.offset + b.size ≤ a.offset := by
  by_contra hover
  rw [not_or, Nat.not_le, Nat.not_le] at hover
  -- the higher one of the two starts lies in both
  have hfirst : max a.offset b.offset ∈ a.bytes := by
    rw [mem_bytes]
    omega
  have hsecond : max a.offset b.offset ∈ b.bytes := by
    rw [mem_bytes]
    omega
  exact Set.disjoint_left.mp h hfirst hsecond

/-! ### Merging -/

/-- What a merge makes of the list `blocks`: the block before `r` grows, the one behind it grows, or both become one. -/
inductive Merge (r : Block) (blocks : List Block) : List Block → Prop
  | left (pre post : List Block) (b : Block) (hblocks : blocks = pre ++ b :: post) (hend : b.offset + b.size = r.offset)
      (hfar : ∀ next, post.head? = some next → r.offset + r.size ≠ next.offset) :
      Merge r blocks (pre ++ ⟨b.offset, b.size + r.size⟩ :: post)
  | right (pre post : List Block) (b : Block) (hblocks : blocks = pre ++ b :: post) (hstart : r.offset + r.size = b.offset)
      (hfar : ∀ prev, pre.getLast? = some prev → prev.offset + prev.size ≠ r.offset) :
      Merge r blocks (pre ++ ⟨r.offset, r.size + b.size⟩ :: post)
  | both (pre post : List Block) (a b : Block) (hblocks : blocks = pre ++ a :: b :: post)
      (hend : a.offset + a.size = r.offset) (hstart : r.offset + r.size = b.offset) :
      Merge r blocks (pre ++ ⟨a.offset, a.size + (r.size + b.size)⟩ :: post)

theorem mergeLoop_cases {r : Block} (before after : List Block) {l : List Block} (h : mergeLoop r before after = some l) :
    Merge r (before ++ after) l := by
  induction after generalizing before with
  | nil => simp [mergeLoop] at h
  | cons block after ih =>
    rw [mergeLoop.eq_def] at h
    dsimp only at h
    by_cases hend : block.offset + block.size = r.offset
    · rw [if_pos hend] at h
      cases after with
      | nil =>
        cases h
        exact .left before [] block rfl hend (fun next hnext => by cases hnext)
      | cons next rest =>
        dsimp only at h
        by_cases hnext : block.offset + (block.size + r.size) = next.offset
        · rw [if_pos hnext] at h
          cases h
          rw [Nat.add_assoc block.size]
          exact .both before rest block next rfl hend (by omega)
        · rw [if_neg hnext] at h
          cases h
          refine .left before (next :: rest) block rfl hend fun next' hnext' => ?_
          cases hnext'
          omega
    · rw [if_neg hend] at h
      by_cases hstart : r.offset + r.size = block.offset
      · rw [if_pos hstart] at h
        cases hlast : before.getLast? with
        | none =>
          rw [hlast] at h
          cases h
          exact .right before after block rfl hstart (fun prev hprev => by rw [hlast] at hprev; cases hprev)
        | some prev =>
          rw [hlast] at h
          dsimp only at h
          by_cases hprev : prev.offset + prev.size = r.offset
          · rw [if_pos hprev] at h
            cases h
            refine .both before.dropLast after prev block ?_ hprev hstart
            rw [append_cons before.dropLast, dropLast_append_getLast? prev hlast]
          · rw [if_neg hprev] at h
            cases h
            refine .right before after block rfl hstart fun prev' hprev' => ?_
            rw [hlast] at hprev'
            cases hprev'
            exact hprev
      · rw [if_neg hstart] at h
        have hrest := ih (before ++ [block]) h
        rwa [append_assoc, singleton_append] at hrest

theorem mergeLoop_none {r : Block} (before after : List Block) (h : mergeLoop r before after = none) :
    ∀ b ∈ after, b.offset + b.size ≠ r.offset ∧ r.offset + r.size ≠ b.offset := by
  induction after generalizing before with
  | nil =>
    intro b hb
    cases hb
  | cons block after ih =>
    rw [mergeLoop.eq_def] at h
    dsimp only at h
    by_cases hend : block.offset + block.size = r.offset
    · rw [if_pos hend] at h
      cases after with
      | nil => cases h
      | cons next rest =>
        dsimp only at h
        split at h <;> cases h
    · rw [if_neg hend] at h
      by_cases hstart : r.offset + r.size = block.offset
      · rw [if_pos hstart] at h
        cases hlast : before.getLast? with
        | none =>
          rw [hlast] at h
          cases h
        | some prev =>
          rw [hlast] at h
          dsimp only at h
          split at h <;> cases h
      · rw [if_neg hstart] at h
        intro b hb
        rcases mem_cons.mp hb with rfl | hb
        · exact ⟨hend, hstart⟩
        · exact ih (before ++ [block]) h b hb

namespace Orderly

variable {start : ℕ → Prop} {blocks l : List Block} {r : Block}

theorem merge (h : Orderly start blocks) (hsize : 0 < r.size) (hstart : start r.offset)
    (hdisj : ∀ b ∈ blocks, Disjoint r.bytes b.bytes) (hl : Merge r blocks l) : Orderly start l := by
  have hapart : ∀ b ∈ blocks, r.offset + r.size ≤ b.offset ∨ b.offset + b.size ≤ r.offset :=
    fun b hb => apart_of_disjoint hsize (h.solid b hb) (hdisj b hb)
  cases hl with
  | left pre post b hblocks hend hfar =>
    subst hblocks
    obtain ⟨hothers, hbefore, hafter, hb, hbstart⟩ := (middle_iff).mp h
    refine h.replace hbefore ?_ (Nat.add_pos_left hb _) hbstart
    cases post with
    | nil =>
      intro d hd
      cases hd
    | cons next rest =>
      have hnext : b.offset + (b.size + r.size) < next.offset := by
        have hne := hfar next rfl
        have hlt := hafter next (mem_cons_self ..)
        have hsolid := h.solid next (by simp)
        rcases hapart next (by simp) with hle | hle
        · omega
        · omega
      have hrest := ((middle_iff).mp hothers).2.2.1
      intro d hd
      rcases mem_cons.mp hd with rfl | hd
      · exact hnext
      · have := hrest d hd
        dsimp only
        omega
  | right pre post b hblocks hbegin hfar =>
    subst hblocks
    obtain ⟨hothers, hbefore, hafter, hb, -⟩ := (middle_iff).mp h
    refine h.replace ?_ ?_ (Nat.add_pos_left hsize _) hstart
    · rcases eq_nil_or_concat pre with rfl | ⟨rest, prev, rfl⟩
      · intro a ha
        cases ha
      · have hprev : prev.offset + prev.size < r.offset := by
          have hne := hfar prev (by simp)
          have hlt := hbefore prev (by simp)
          rcases hapart prev (by simp) with hle | hle
          · omega
          · omega
        rw [concat_eq_append, append_assoc, singleton_append] at hothers
        have hrest := ((middle_iff).mp hothers).2.1
        rw [concat_eq_append]
        intro a ha
        rcases mem_append.mp ha with ha | ha
        · have := hrest a ha
          dsimp only
          omega
        · rw [mem_singleton.mp ha]
          exact hprev
    · intro d hd
      have := hafter d hd
      dsimp only
      omega
  | both pre post a b hblocks hend hbegin =>
    subst hblocks
    obtain ⟨hothers, hbefore, -, ha, hastart⟩ := (middle_iff).mp h
    obtain ⟨hrest, -, hafter, -, -⟩ := (middle_iff).mp hothers
    refine (middle_iff).mpr ⟨hrest, hbefore, ?_, Nat.add_pos_left ha _, hastart⟩
    intro d hd
    have := hafter d hd
    dsimp only
    omega

theorem insert (h : Orderly start blocks) (hsize : 0 < r.size) (hstart : start r.offset)
    (hdisj : ∀ b ∈ blocks, Disjoint r.bytes b.bytes)
    (hfar : ∀ b ∈ blocks, b.offset + b.size ≠ r.offset ∧ r.offset + r.size ≠ b.offset) :
    Orderly start (blocks.takeWhile (fun b => decide (b.offset < r.offset)) ++
      r :: blocks.dropWhile (fun b => decide (b.offset < r.offset))) := by
  set p : Block → Bool := fun b => decide (b.offset < r.offset) with hp
  have hsplit : blocks.takeWhile p ++ blocks.dropWhile p = blocks := takeWhile_append_dropWhile
  have hapart : ∀ b ∈ blocks, r.offset + r.size < b.offset ∨ b.offset + b.size < r.offset := by
    intro b hb
    have hne := hfar b hb
    rcases apart_of_disjoint hsize (h.solid b hb) (hdisj b hb) with hle | hle
    · exact .inl (by omega)
    · exact .inr (by omega)
  refine (middle_iff).mpr ⟨hsplit.symm ▸ h, ?_, ?_, hsize, hstart⟩
  · intro a ha
    have hlow : a.offset < r.offset := by simpa [hp] using mem_takeWhile_imp ha
    rcases hapart a (takeWhile_subset p ha) with hlt | hlt
    · omega
    · exact hlt
  · -- the first block that is not passed lies behind `r`, and so do the others
    cases hdrop : blocks.dropWhile p with
    | nil =>
      intro d hd
      cases hd
    | cons first rest =>
      have hmem : ∀ d ∈ first :: rest, d ∈ blocks := fun d hd => dropWhile_subset p (hdrop ▸ hd)
      have hhigh : ¬ first.offset < r.offset := by
        have := head?_dropWhile_not p blocks
        rw [hdrop] at this
        simpa [hp] using this
      have hfirst : r.offset + r.size < first.offset := by
        have hsolid := h.solid first (hmem first (mem_cons_self ..))
        rcases hapart first (hmem first (mem_cons_self ..)) with hlt | hlt
        · exact hlt
        · omega
      rw [← hsplit, hdrop] at h
      have hrest := ((middle_iff).mp h).2.2.1
      intro d hd
      rcases mem_cons.mp hd with rfl | hd
      · exact hfirst
      · have := hrest d hd
        omega

theorem free (h : Orderly start blocks) (hsize : 0 < r.size) (hstart : start r.offset)
    (hdisj : ∀ b ∈ blocks, Disjoint r.bytes b.bytes) (hl : freeBlock blocks r = .ok l) : Orderly start l := by
  rw [freeBlock] at hl
  cases hmerge : mergeLoop r [] blocks with
  | some merged =>
    rw [hmerge] at hl
    cases hl
    exact h.merge hsize hstart hdisj (mergeLoop_cases [] blocks hmerge)
  | none =>
    rw [hmerge] at hl
    dsimp only [insertBlock] at hl
    split at hl
    · cases hl
      exact h.insert hsize hstart hdisj (mergeLoop_none [] blocks hmerge)
    · cases hl

end Orderly

/-! ### The range of a chunk -/

/-- Where a block may start: at an aligned address not beyond the total that was allocated. -/
def Reached (alignment total : ℕ) (o : ℕ) : Prop := alignment ∣ o ∧ o ≤ total

theorem Reached.mono {alignment total total' o : ℕ} (htotal : total ≤ total') (h : Reached alignment total o) :
    Reached alignment total' o :=
  ⟨h.1, h.2.trans htotal⟩

/-- **The free blocks and the live ones tile the range of a chunk**, when `total` bytes were allocated so far. -/
structure Tiled (alignment total : ℕ) (blocks live : List Block) (range : ℕ) : Prop where
  orderly : Orderly (Reached alignment total) blocks
  held : ∀ b ∈ live, 0 < b.size ∧ alignment ∣ b.offset ∧ b.offset + b.size ≤ total
  tiles : Holds (blocks ++ live) (bytes ⟨0, range⟩)

namespace Tiled

variable {alignment total total' range size i : ℕ} {blocks live pre post l : List Block} {b r : Block}

theorem mono (h : Tiled alignment total blocks live range) (htotal : total ≤ total') :
    Tiled alignment total' blocks live range := by
  refine ⟨h.orderly.mono fun o ho => ho.mono htotal, fun b hb => ?_, h.tiles⟩
  obtain ⟨hsize, halign, hend⟩ := h.held b hb
  exact ⟨hsize, halign, hend.trans htotal⟩

theorem fresh (alignment total : ℕ) (hrange : 0 < range) : Tiled alignment total [⟨0, range⟩] [] range := by
  refine ⟨⟨pairwise_singleton _ _, ?_, ?_⟩, ?_, ?_⟩
  · intro b hb
    rwa [mem_singleton.mp hb]
  · intro b hb
    rw [mem_singleton.mp hb]
    exact ⟨dvd_zero _, Nat.zero_le _⟩
  · intro b hb
    cases hb
  · rw [append_nil]
    exact Holds.single _

/-- **An allocation**: the front of a block goes to the live ones. -/
theorem carve (h : Tiled alignment total blocks live range) (hb : blocks[i]? = some b) (hpos : 0 < size)
    (hsize : size ≤ b.size) (halign : alignment ∣ size) :
    Tiled alignment (total + size)
      (if b.size - size = 0 then blocks.eraseIdx i else blocks.set i ⟨b.offset + size, b.size - size⟩)
      (live ++ [⟨b.offset, size⟩]) range := by
  obtain ⟨hi, heq⟩ := List.getElem?_eq_some_iff.mp hb
  obtain ⟨pre, post, hpre, hpost, hsplit⟩ : ∃ pre post, pre = blocks.take i ∧ post = blocks.drop (i + 1) ∧
      blocks = pre ++ b :: post := by
    refine ⟨_, _, rfl, rfl, ?_⟩
    rw [← heq, getElem_cons_drop, take_append_drop]
  have herase : blocks.eraseIdx i = pre ++ post := by rw [eraseIdx_eq_take_drop_succ, hpre, hpost]
  have hset : ∀ c, blocks.set i c = pre ++ c :: post := by
    intro c
    rw [set_eq_take_append_cons_drop, if_pos hi, hpre, hpost]
  rw [herase, hset]
  obtain ⟨horderly, hheld, htiles⟩ := h
  rw [hsplit] at horderly htiles
  have hstart : Reached alignment total b.offset := horderly.starts b (by simp)
  have hnext : Reached alignment (total + size) (b.offset + size) :=
    ⟨Nat.dvd_add hstart.1 halign, Nat.add_le_add_right hstart.2 size⟩
  have horderly := horderly.mono fun o ho => ho.mono (Nat.le_add_right total size)
  have hlive : ∀ d ∈ live ++ [⟨b.offset, size⟩], 0 < d.size ∧ alignment ∣ d.offset ∧ d.offset + d.size ≤ total + size := by
    intro d hd
    rcases mem_append.mp hd with hd | hd
    · obtain ⟨hdsize, hdalign, hdend⟩ := hheld d hd
      exact ⟨hdsize, hdalign, hdend.trans (Nat.le_add_right ..)⟩
    · rw [mem_singleton.mp hd]
      exact ⟨hpos, hstart.1, hnext.2⟩
  -- the front leaves the free blocks and comes back as a live one
  have hbytes : b.bytes = bytes ⟨b.offset, size⟩ ∪ bytes ⟨b.offset + size, b.size - size⟩ := by
    rw [← bytes_join, Nat.add_sub_cancel' hsize]
  rw [append_assoc, cons_append] at htiles
  obtain ⟨hsub, hcarved⟩ := htiles.carve hbytes (disjoint_next _ _ _)
  have hback : ∀ m, Holds m (bytes ⟨0, range⟩ \ bytes ⟨b.offset, size⟩) →
      Holds (m ++ [⟨b.offset, size⟩]) (bytes ⟨0, range⟩) := by
    intro m hm
    refine (Holds.append_iff).mpr ⟨_, _, hm, Holds.single _, Set.disjoint_sdiff_left, ?_⟩
    rw [Set.sdiff_union_self, Set.union_eq_self_of_subset_right hsub]
  split
  · rename_i hempty
    refine ⟨horderly.drop, hlive, ?_⟩
    rw [← append_assoc]
    refine hback _ ?_
    rw [append_assoc]
    exact hcarved.drop (by rw [hempty, bytes_empty])
  · rename_i hrest
    refine ⟨horderly.carve (by omega) hnext, hlive, ?_⟩
    rw [← append_assoc]
    refine hback _ ?_
    rwa [append_assoc, cons_append]

theorem free (h : Tiled alignment total blocks (pre ++ r :: post) range) (hl : freeBlock blocks r = .ok l) :
    Tiled alignment total l (pre ++ post) range := by
  obtain ⟨hsize, halign, hend⟩ := h.held r (by simp)
  have htiles := h.tiles
  rw [← append_assoc] at htiles
  obtain ⟨T, hT, hrT, hrange⟩ := (Holds.middle_iff).mp htiles
  rw [append_assoc] at hT
  obtain ⟨A, B, hA, hB, hAB, rfl⟩ := (Holds.append_iff).mp hT
  rw [Set.disjoint_union_right] at hrT
  have hdisj : ∀ b ∈ blocks, Disjoint r.bytes b.bytes := fun b hb => hrT.1.mono_right (hA.subset hb)
  refine ⟨h.orderly.free hsize ⟨halign, by omega⟩ hdisj hl, ?_, ?_⟩
  · intro d hd
    refine h.held d ?_
    rcases mem_append.mp hd with hd | hd
    · exact mem_append_left _ hd
    · exact mem_append_right _ (mem_cons_of_mem _ hd)
  · refine (Holds.append_iff).mpr ⟨_, _, freeBlock_spec hA hrT.1 hl, hB, ?_, ?_⟩
    · rw [Set.disjoint_union_left]
      exact ⟨hAB, hrT.2⟩
    · rw [hrange, Set.union_right_comm]

/-- **The end of the range is free** when the range is longer than all that was allocated, and the last free block holds
it. -/
theorem last (h : Tiled alignment total blocks live range) (hrange : total < range) :
    ∃ b, blocks.getLast? = some b ∧ b.offset ≤ total ∧ range ≤ b.offset + b.size := by
  have hpoint : range - 1 ∈ bytes ⟨0, range⟩ := by
    rw [mem_bytes]
    dsimp only
    omega
  obtain ⟨b, hb, hbpoint⟩ := (h.tiles.union _).mp hpoint
  rw [mem_bytes] at hbpoint
  rcases mem_append.mp hb with hb | hb
  · cases hlast : blocks.getLast? with
    | none =>
      rw [getLast?_eq_none_iff.mp hlast] at hb
      cases hb
    | some last =>
      have hsplit := dropLast_append_getLast? last hlast
      have hmem : last ∈ blocks := mem_of_getLast? hlast
      refine ⟨last, rfl, (h.orderly.starts last hmem).2, ?_⟩
      rw [← hsplit] at hb
      rcases mem_append.mp hb with hbefore | hbefore
      · -- a block in front of the last one ends before it, and so within the range
        have horderly := h.orderly
        rw [← hsplit] at horderly
        have hlt := ((Orderly.middle_iff).mp horderly).2.1 b hbefore
        have hsolid := h.orderly.solid last hmem
        have hinside : last.offset ∈ bytes ⟨0, range⟩ :=
          h.tiles.subset (mem_append_left _ hmem) ((mem_bytes).mpr ⟨Nat.le_refl _, by omega⟩)
        rw [mem_bytes] at hinside
        dsimp only at hinside
        omega
      · rw [mem_singleton.mp hbefore] at hbpoint
        omega
  · have hend := (h.held b hb).2.2
    omega

end Tiled

end Alloc
