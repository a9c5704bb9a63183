import LlamaRafaelia.Alloc.Graph

/-!
# Allocator: what one call does

Each function over the hash table is described once, by what it does to the entries and to the allocator; the invariants
are derived from these descriptions.

* `Holdings` - **the memory**: every allocated tensor holds a range of its own, apart from all others and from the free
  space; the three descriptions keep it.
-/

namespace Alloc

variable {g : Graph} {s s' : State} {n p t : ℕ}

/-! ### The calls -/

@[simp] theorem modify_same (f : HashNode → HashNode) : (s.modify t f).hash t = f (s.hash t) :=
  Function.update_self ..

theorem modify_other {t' : ℕ} (f : HashNode → HashNode) (h : t' ≠ t) : (s.modify t f).hash t' = s.hash t' :=
  Function.update_of_ne h ..

@[simp] theorem modify_talloc (f : HashNode → HashNode) : (s.modify t f).talloc = s.talloc := rfl

def SameCounts (s s' : State) : Prop :=
  ∀ t, (s'.hash t).nChildren = (s.hash t).nChildren ∧ (s'.hash t).nViews = (s.hash t).nViews

/-- A node gets memory of its own. -/
structure Fresh (g : Graph) (n : ℕ) (s s' : State) : Prop where
  idle : (s.hash n).allocated = false
  plain : (g.tensor n).viewSrc = none ∧ (g.tensor n).data = none
  counts : SameCounts s s'
  takes : (s'.hash n).allocated = true
  others : ∀ t, t ≠ n → (s'.hash t).allocated = (s.hash t).allocated ∧ (s'.hash t).addr = (s.hash t).addr
  memory : s.talloc.alloc (g.tensor n).allocSize = .ok ((s'.hash n).addr, s'.talloc)

/-- A node takes over the memory of a parent that is not a view. -/
structure Reused (g : Graph) (n p : ℕ) (s s' : State) : Prop where
  idle : (s.hash n).allocated = false
  plain : (g.tensor n).viewSrc = none ∧ (g.tensor n).data = none
  inplace : (g.tensor n).op.canInplace = true
  parent : p ∈ g.parents n
  own : (s.hash p).allocated = true
  output : (g.tensor p).output = false
  layout : (g.tensor n).layout = (g.tensor p).layout
  lastChild : (s.hash p).nChildren = 1
  noViews : (s.hash p).nViews = 0
  counts : SameCounts s s'
  takes : (s'.hash n).allocated = true ∧ (s'.hash n).addr = (s.hash p).addr
  gives : (s'.hash p).allocated = false ∧ (s'.hash p).addr = (s.hash p).addr
  others : ∀ t, t ≠ n → t ≠ p → (s'.hash t).allocated = (s.hash t).allocated ∧ (s'.hash t).addr = (s.hash t).addr
  memory : (g.tensor n).allocSize = (g.tensor p).allocSize ∧ s'.talloc = s.talloc ∨
    (g.tensor n).allocSize < (g.tensor p).allocSize ∧
      s.talloc.freeTensor ⟨(s.hash p).addr.chunk, (s.hash p).addr.offset + (g.tensor n).allocSize⟩
        ((g.tensor p).allocSize - (g.tensor n).allocSize) = .ok s'.talloc

/-- A tensor gives its memory back. -/
structure Freed (g : Graph) (n : ℕ) (s s' : State) : Prop where
  output : (g.tensor n).output = false
  counts : SameCounts s s'
  addrs : ∀ t, (s'.hash t).addr = (s.hash t).addr
  gives : (s'.hash n).allocated = false
  others : ∀ t, t ≠ n → (s'.hash t).allocated = (s.hash t).allocated
  memory : s.talloc.freeTensor (s.hash n).addr (g.tensor n).allocSize = .ok s'.talloc

theorem freeExtraSpace_ok (h : freeExtraSpace g n p s = .ok s') : s'.hash = s.hash ∧
    ((g.tensor n).allocSize = (g.tensor p).allocSize ∧ s'.talloc = s.talloc ∨
      (g.tensor n).allocSize < (g.tensor p).allocSize ∧
        s.talloc.freeTensor ⟨(s.hash p).addr.chunk, (s.hash p).addr.offset + (g.tensor n).allocSize⟩
          ((g.tensor p).allocSize - (g.tensor n).allocSize) = .ok s'.talloc) := by
  simp only [freeExtraSpace] at h
  split at h
  · cases h
  · split at h
    · rename_i hlt
      obtain ⟨talloc, hfree, hs⟩ := (Except.bind_eq_ok_iff).mp h
      cases hs
      exact ⟨rfl, .inr ⟨hlt, hfree⟩⟩
    · cases h
      exact ⟨rfl, .inl ⟨by omega, rfl⟩⟩

theorem allocateFresh_ok (hidle : (s.hash n).allocated = false)
    (hplain : (g.tensor n).viewSrc = none ∧ (g.tensor n).data = none)
    (h : allocateFresh g n (s.modify n fun hn => { hn with allocated := true }) = .ok s') : Fresh g n s s' := by
  obtain ⟨⟨addr, talloc⟩, halloc, hs⟩ := (Except.bind_eq_ok_iff).mp h
  cases hs
  refine ⟨hidle, hplain, ?_, by simp, ?_, by simpa using halloc⟩
  · intro t
    by_cases ht : t = n
    · subst ht
      simp
    · simp [modify_other _ ht]
  · intro t ht
    simp [modify_other _ ht]

theorem canReuse_iff (hown : ∀ t, (s.hash t).allocated = true → (g.tensor t).viewSrc = none) :
    canReuse g s n p = true ↔ (s.hash p).allocated = true ∧ (g.tensor p).output = false ∧
      (g.tensor n).layout = (g.tensor p).layout ∧ (s.hash p).nChildren = 1 ∧ (s.hash p).nViews = 0 := by
  by_cases hp : (s.hash p).allocated = true
  · simp [canReuse, State.isOwn, hp, hown p hp, Graph.areSameLayout]
    tauto
  · simp [canReuse, State.isOwn, hp]

/-- **The ways of `ggml_gallocr_allocate_node`**: nothing to do, new memory, or the memory of a parent. -/
theorem allocateNode_cases (hown : ∀ t, (s.hash t).allocated = true → (g.tensor t).viewSrc = none)
    (hself : (g.tensor n).op.canInplace = true → n ∉ g.parents n) (h : allocateNode g n s = .ok s') :
    ((s.isAllocated g n = true ∨ g.isView n = true) ∧ s' = s) ∨ Fresh g n s s' ∨ ∃ p, Reused g n p s s' := by
  rw [allocateNode] at h
  split at h
  · rename_i hidle
    simp only [State.isAllocated, Graph.isView, Bool.and_eq_true, Bool.not_eq_true', Bool.or_eq_false_iff] at hidle
    obtain ⟨⟨hdata, hidle⟩, hview⟩ := hidle
    have hplain : (g.tensor n).viewSrc = none ∧ (g.tensor n).data = none :=
      ⟨by simpa using hview, by simpa using hdata⟩
    dsimp only at h
    split at h
    · rename_i hinplace
      split at h
      · rename_i p hfind
        have hmem := List.mem_of_find?_eq_some hfind
        have hpn : p ≠ n := fun heq => hself hinplace (heq ▸ hmem)
        have hreuse := List.find?_some hfind
        rw [canReuse_iff] at hreuse
        · simp only [modify_other _ hpn] at hreuse
          obtain ⟨hp, houtput, hlayout, hchild, hviews⟩ := hreuse
          simp only [reuseParent, hown p hp] at h
          obtain ⟨hhash, hmemory⟩ := freeExtraSpace_ok h
          refine .inr (.inr ⟨p, ?_⟩)
          refine ⟨hidle, hplain, hinplace, hmem, hp, houtput, hlayout, hchild, hviews, ?_, ?_, ?_, ?_, ?_⟩
          · intro t
            rw [hhash]
            by_cases htp : t = p
            · subst htp
              simp [modify_other _ hpn]
            · rw [modify_other _ htp]
              by_cases htn : t = n
              · subst htn
                simp
              · simp [modify_other _ htn]
          · rw [hhash, modify_other _ hpn.symm]
            simp [modify_other _ hpn]
          · rw [hhash]
            simp [modify_other _ hpn]
          · intro t htn htp
            rw [hhash, modify_other _ htp, modify_other _ htn, modify_other _ htn]
            exact ⟨rfl, rfl⟩
          · simpa [modify_other _ hpn] using hmemory
        · intro t ht
          by_cases htn : t = n
          · exact htn ▸ hplain.1
          · rw [modify_other _ htn] at ht
            exact hown t ht
      · exact .inr (.inl (allocateFresh_ok hidle hplain h))
    · exact .inr (.inl (allocateFresh_ok hidle hplain h))
  · rename_i hbusy
    cases h
    refine .inl ⟨?_, rfl⟩
    rw [Bool.and_eq_true, Bool.not_eq_true', Bool.not_eq_true', not_and_or, Bool.not_eq_false, Bool.not_eq_false]
      at hbusy
    exact hbusy

theorem freeNode_cases (h : freeNode g n s = .ok s') :
    ((g.tensor n).output = true ∧ s' = s) ∨ Freed g n s s' := by
  rw [freeNode] at h
  split at h
  · rename_i houtput
    cases h
    exact .inl ⟨houtput, rfl⟩
  · rename_i houtput
    obtain ⟨talloc, hfree, hs⟩ := (Except.bind_eq_ok_iff).mp h
    cases hs
    refine .inr ⟨by simpa using houtput, ?_, ?_, by simp, ?_, hfree⟩
    · intro t
      by_cases ht : t = n
      · subst ht
        simp
      · simp [modify_other _ ht]
    · intro t
      by_cases ht : t = n
      · subst ht
        simp
      · simp [modify_other _ ht]
    · intro t ht
      simp [modify_other _ ht]

/-! ### The memory -/

def held (g : Graph) (s : State) (t : ℕ) : Set (ℕ × ℕ) :=
  (s.hash t).addr.range (alignedOffset (g.tensor t).allocSize s.talloc.alignment)

/-- **Every allocated tensor holds a range of its own**, apart from the other ranges and from the free space.  Views and
tensors that were allocated before hold none. -/
structure Holdings (g : Graph) (s : State) : Prop where
  plain : ∀ t, (s.hash t).allocated = true → (g.tensor t).viewSrc = none ∧ (g.tensor t).data = none
  space : ∃ F, FreeSpace s.talloc F ∧ ∀ t, (s.hash t).allocated = true → Disjoint (held g s t) F
  apart : ∀ t t', t ≠ t' → (s.hash t).allocated = true → (s.hash t').allocated = true →
    Disjoint (held g s t) (held g s t')

namespace Holdings

theorem fresh (h : Holdings g s) (hs : Fresh g n s s') : Holdings g s' := by
  obtain ⟨F, hF, hdisj⟩ := h.space
  obtain ⟨hsub, F', hF', hF'sub⟩ := alloc_spec hF hs.memory
  have halign := alloc_alignment hs.memory
  have hn : held g s' n = (s'.hash n).addr.range (alignedOffset (g.tensor n).allocSize s.talloc.alignment) := by
    rw [held, halign]
  have hother : ∀ t, t ≠ n → (s'.hash t).allocated = true → (s.hash t).allocated = true ∧ held g s' t = held g s t := by
    intro t ht hall
    obtain ⟨hal, haddr⟩ := hs.others t ht
    exact ⟨hal ▸ hall, by rw [held, held, halign, haddr]⟩
  have hnew : ∀ t, t ≠ n → (s'.hash t).allocated = true → Disjoint (held g s' t) (held g s' n) := by
    intro t ht hall
    obtain ⟨hal, hheld⟩ := hother t ht hall
    rw [hheld, hn]
    exact (hdisj t hal).mono_right hsub
  refine ⟨?_, ⟨F', hF', ?_⟩, ?_⟩
  · intro t hall
    by_cases ht : t = n
    · exact ht ▸ hs.plain
    · exact h.plain t (hother t ht hall).1
  · intro t hall
    by_cases ht : t = n
    · subst ht
      rw [hn]
      exact Set.disjoint_left.mpr fun x hx hx' => (hF'sub hx').2 hx
    · obtain ⟨hal, hheld⟩ := hother t ht hall
      rw [hheld]
      exact (hdisj t hal).mono_right (hF'sub.trans Set.sdiff_subset)
  · intro t t' hne hall hall'
    by_cases ht : t = n
    · subst ht
      exact (hnew t' hne.symm hall').symm
    · by_cases ht' : t' = n
      · subst ht'
        exact hnew t ht hall
      · obtain ⟨hal, hheld⟩ := hother t ht hall
        obtain ⟨hal', hheld'⟩ := hother t' ht' hall'
        rw [hheld, hheld']
        exact h.apart t t' hne hal hal'

theorem freed (h : Holdings g s) (hn : (s.hash n).allocated = true) (hs : Freed g n s s') : Holdings g s' := by
  obtain ⟨F, hF, hdisj⟩ := h.space
  have halign := freeTensor_alignment hs.memory
  have hother : ∀ t, (s'.hash t).allocated = true →
      t ≠ n ∧ (s.hash t).allocated = true ∧ held g s' t = held g s t := by
    intro t hall
    have ht : t ≠ n := by
      rintro rfl
      rw [hs.gives] at hall
      cases hall
    exact ⟨ht, hs.others t ht ▸ hall, by rw [held, held, halign, hs.addrs]⟩
  refine ⟨fun t hall => h.plain t (hother t hall).2.1, ⟨_, freeTensor_spec hF (hdisj n hn) hs.memory, ?_⟩, ?_⟩
  · intro t hall
    obtain ⟨ht, hal, hheld⟩ := hother t hall
    rw [hheld, Set.disjoint_union_right]
    exact ⟨hdisj t hal, h.apart t n ht hal hn⟩
  · intro t t' hne hall hall'
    obtain ⟨-, hal, hheld⟩ := hother t hall
    obtain ⟨-, hal', hheld'⟩ := hother t' hall'
    rw [hheld, hheld']
    exact h.apart t t' hne hal hal'

/-- The memory of the parent becomes the memory of the node, and its end may become free.  The end is what
`ggml_gallocr_free_extra_space` frees only when the size of the node is aligned. -/
theorem reused (h : Holdings g s) (hs : Reused g n p s s')
    (hfit : (g.tensor n).allocSize < (g.tensor p).allocSize → s.talloc.alignment ∣ (g.tensor n).allocSize) :
    Holdings g s' := by
  obtain ⟨F, hF, hdisj⟩ := h.space
  -- the memory of the parent is the memory of the node and the part that is freed
  have hsplit : ∃ E, held g s p = held g s' n ∪ E ∧ Disjoint (held g s' n) E ∧ FreeSpace s'.talloc (F ∪ E) ∧
      s'.talloc.alignment = s.talloc.alignment := by
    rcases hs.memory with ⟨hsize, htalloc⟩ | ⟨hlt, hfree⟩
    · refine ⟨∅, ?_, Set.disjoint_empty _, ?_, by rw [htalloc]⟩
      · rw [Set.union_empty, held, held, hs.takes.2, hsize, htalloc]
      · rw [Set.union_empty, htalloc]
        exact hF
    · have halign := freeTensor_alignment hfree
      have hdvd := hfit hlt
      have hsize : alignedOffset (g.tensor p).allocSize s.talloc.alignment = (g.tensor n).allocSize +
          alignedOffset ((g.tensor p).allocSize - (g.tensor n).allocSize) s.talloc.alignment := by
        rw [← alignedOffset_add hdvd, Nat.add_sub_cancel' (Nat.le_of_lt hlt)]
      have hheld : held g s' n = (s.hash p).addr.range (g.tensor n).allocSize := by
        rw [held, hs.takes.2, halign, alignedOffset_eq hdvd]
      have hparent : held g s p = held g s' n ∪
          BufferAddress.range ⟨(s.hash p).addr.chunk, (s.hash p).addr.offset + (g.tensor n).allocSize⟩
            (alignedOffset ((g.tensor p).allocSize - (g.tensor n).allocSize) s.talloc.alignment) := by
        rw [held, hsize, BufferAddress.range_add, hheld]
      refine ⟨_, hparent, ?_, freeTensor_spec hF ?_ hfree, halign⟩
      · rw [hheld]
        exact BufferAddress.range_disjoint_next ..
      · exact (hdisj p hs.own).mono_left (hparent ▸ Set.subset_union_right)
  obtain ⟨E, hparent, hE, hF', halign⟩ := hsplit
  have hnsub : held g s' n ⊆ held g s p := hparent ▸ Set.subset_union_left
  have hEsub : E ⊆ held g s p := hparent ▸ Set.subset_union_right
  have hother : ∀ t, t ≠ n → (s'.hash t).allocated = true →
      t ≠ p ∧ (s.hash t).allocated = true ∧ held g s' t = held g s t := by
    intro t ht hall
    have htp : t ≠ p := by
      rintro rfl
      rw [hs.gives.1] at hall
      cases hall
    obtain ⟨hal, haddr⟩ := hs.others t ht htp
    exact ⟨htp, hal ▸ hall, by rw [held, held, halign, haddr]⟩
  have hnew : ∀ t, t ≠ n → (s'.hash t).allocated = true → Disjoint (held g s' t) (held g s' n) := by
    intro t ht hall
    obtain ⟨htp, hal, hheld⟩ := hother t ht hall
    rw [hheld]
    exact (h.apart t p htp hal hs.own).mono_right hnsub
  refine ⟨?_, ⟨_, hF', ?_⟩, ?_⟩
  · intro t hall
    by_cases ht : t = n
    · exact ht ▸ hs.plain
    · exact h.plain t (hother t ht hall).2.1
  · intro t hall
    rw [Set.disjoint_union_right]
    by_cases ht : t = n
    · subst ht
      exact ⟨(hdisj p hs.own).mono_left hnsub, hE⟩
    · obtain ⟨htp, hal, hheld⟩ := hother t ht hall
      rw [hheld]
      exact ⟨hdisj t hal, (h.apart t p htp hal hs.own).mono_right hEsub⟩
  · intro t t' hne hall hall'
    by_cases ht : t = n
    · subst ht
      exact (hnew t' hne.symm hall').symm
    · by_cases ht' : t' = n
      · subst ht'
        exact hnew t ht hall
      · obtain ⟨-, hal, hheld⟩ := hother t ht hall
        obtain ⟨-, hal', hheld'⟩ := hother t' ht' hall'
        rw [hheld, hheld']
        exact h.apart t t' hne hal hal'

theorem congr (h : Holdings g s) (htalloc : s'.talloc = s.talloc)
    (hsame : ∀ t, (s'.hash t).allocated = (s.hash t).allocated ∧ (s'.hash t).addr = (s.hash t).addr) :
    Holdings g s' := by
  have hheld : ∀ t, held g s' t = held g s t := by
    intro t
    rw [held, held, htalloc, (hsame t).2]
  obtain ⟨F, hF, hdisj⟩ := h.space
  refine ⟨?_, ⟨F, htalloc ▸ hF, ?_⟩, ?_⟩
  · intro t hall
    exact h.plain t ((hsame t).1 ▸ hall)
  · intro t hall
    rw [hheld]
    exact hdisj t ((hsame t).1 ▸ hall)
  · intro t t' hne hall hall'
    rw [hheld, hheld]
    exact h.apart t t' hne ((hsame t).1 ▸ hall) ((hsame t').1 ▸ hall')

end Holdings

end Alloc
