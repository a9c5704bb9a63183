import LlamaRafaelia.Alloc.Liveness

/-!
# Allocator: the passes over the graph

The first two passes give memory to the leafs and the inputs and count; the last pass goes through the nodes.

* `Inv` - **the invariant of the last pass**, between two nodes.
-/

namespace Alloc

open List Alloc.Graph

variable {g : Graph} {s s' : State} {n p t : ℕ} {alignment : ℕ}

/-! ### The first two passes -/

/-- Memory is handed out and never given back. -/
structure Grown (s s' : State) : Prop where
  aligned : s'.talloc.alignment = s.talloc.alignment
  keeps : ∀ t, (s.hash t).allocated = true → (s'.hash t).allocated = true

theorem Grown.refl (s : State) : Grown s s := ⟨rfl, fun _ h => h⟩

theorem Grown.trans {s'' : State} (h : Grown s s') (h' : Grown s' s'') : Grown s s'' :=
  ⟨h'.aligned.trans h.aligned, fun t ht => h'.keeps t (h.keeps t ht)⟩

theorem allocateNode_none (hH : Holdings g s) (hop : (g.tensor n).op = .none) (h : allocateNode g n s = .ok s') :
    Holdings g s' ∧ SameCounts s s' ∧ Grown s s' ∧ (g.Plain n → (s'.hash n).allocated = true) := by
  have hinplace : (g.tensor n).op.canInplace ≠ true := by
    rw [hop]
    exact Bool.false_ne_true
  rcases allocateNode_cases (fun t ht => (hH.plain t ht).1) (fun h => absurd h hinplace) h with
    ⟨hbusy, rfl⟩ | hfresh | ⟨p, hreused⟩
  · refine ⟨hH, fun t => ⟨rfl, rfl⟩, Grown.refl _, ?_⟩
    rintro ⟨hview, hdata⟩
    simpa [State.isAllocated, isView, hview, hdata] using hbusy
  · refine ⟨hH.fresh hfresh, hfresh.counts, ⟨alloc_alignment hfresh.memory, ?_⟩, fun _ => hfresh.takes⟩
    intro t ht
    by_cases htn : t = n
    · exact htn ▸ hfresh.takes
    · exact (hfresh.others t htn).1.trans ht
  · exact absurd hreused.inplace hinplace

theorem allocateLeafs_spec (l : List ℕ) (hl : ∀ t ∈ l, (g.tensor t).op = .none) (hH : Holdings g s)
    (h : l.foldlM (fun s leaf => allocateNode g leaf s) s = .ok s') :
    Holdings g s' ∧ SameCounts s s' ∧ Grown s s' ∧ ∀ t ∈ l, g.Plain t → (s'.hash t).allocated = true := by
  induction l generalizing s with
  | nil =>
    cases h
    exact ⟨hH, fun t => ⟨rfl, rfl⟩, Grown.refl _, fun t ht => nomatch ht⟩
  | cons leaf l ih =>
    rw [foldlM_cons] at h
    obtain ⟨s₁, h₁, h⟩ := (Except.bind_eq_ok_iff).mp h
    obtain ⟨hH₁, hsame₁, hgrown₁, hleaf⟩ := allocateNode_none hH (hl leaf (mem_cons_self ..)) h₁
    obtain ⟨hH', hsame, hgrown, hrest⟩ := ih (fun t ht => hl t (mem_cons_of_mem _ ht)) hH₁ h
    refine ⟨hH', hsame₁.trans hsame, hgrown₁.trans hgrown, ?_⟩
    intro t ht hplain
    rcases mem_cons.mp ht with rfl | ht
    · exact hgrown.keeps t (hleaf hplain)
    · exact hrest t ht hplain

/-- **The counters while the nodes are counted**: the reads and the views that were seen. -/
structure Prepared (g : Graph) (reads seen : List ℕ) (s : State) : Prop where
  holdings : Holdings g s
  children : ∀ t, (s.hash t).nChildren = reads.count t
  views : ∀ t, (s.hash t).nViews = seen.countP fun v => (g.tensor v).viewSrc = some t

theorem Prepared.congr {reads seen : List ℕ} (h : Prepared g reads seen s) (hH : Holdings g s')
    (hsame : SameCounts s s') : Prepared g reads seen s' :=
  ⟨hH, fun t => (hsame t).1.trans (h.children t), fun t => (hsame t).2.trans (h.views t)⟩

theorem allocateInput_spec {reads seen : List ℕ} (hg : g.WellFormed) (hs : Prepared g reads seen s)
    (h : allocateInput g t s = .ok s') :
    Prepared g reads seen s' ∧ Grown s s' ∧
      ((g.tensor t).input = true → g.Plain t → (s'.hash t).allocated = true) := by
  rw [allocateInput] at h
  split at h
  · rename_i hinput
    obtain ⟨hH, hsame, hgrown, hnew⟩ := allocateNode_none hs.holdings (hg.inputs t hinput) h
    exact ⟨hs.congr hH hsame, hgrown, fun _ => hnew⟩
  · rename_i hinput
    cases h
    exact ⟨hs, Grown.refl _, fun h => absurd h hinput⟩

theorem countView_spec {reads seen : List ℕ} (hg : g.WellFormed) (hn : n ∈ g.nodes) (hs : Prepared g reads seen s) :
    Prepared g reads (seen ++ [n]) (countView g n s) ∧ Grown s (countView g n s) := by
  rw [countView]
  cases hview : (g.tensor n).viewSrc with
  | none =>
    refine ⟨⟨hs.holdings, hs.children, ?_⟩, Grown.refl _⟩
    intro t
    rw [hs.views, countP_append]
    simp [hview]
  | some r =>
    dsimp only
    rw [if_neg (hg.views n hn r hview).1]
    refine ⟨⟨hs.holdings.modify fun _ => ⟨rfl, rfl⟩, ?_, ?_⟩, rfl, ?_⟩
    · intro t
      by_cases ht : t = r
      · subst ht
        rw [modify_same]
        exact hs.children t
      · rw [modify_other _ ht]
        exact hs.children t
    · intro t
      have hviews := hs.views t
      rw [countP_append]
      by_cases ht : t = r
      · subst ht
        rw [modify_same]
        simp [hview, hviews]
      · rw [modify_other _ ht]
        simp [hview, hviews, Ne.symm ht]
    · intro t ht
      by_cases htr : t = r
      · subst htr
        rw [modify_same]
        exact ht
      · rw [modify_other _ htr]
        exact ht

theorem countChild_spec {reads seen : List ℕ} (hg : g.WellFormed) (hs : Prepared g reads seen s)
    (h : countChild g t s = .ok s') : Prepared g (reads ++ [t]) seen s' ∧ Grown s s' := by
  rw [countChild] at h
  set s₁ := s.modify t fun hn => { hn with nChildren := hn.nChildren + 1 } with hs₁
  have hsame : ∀ u, u ≠ t → s₁.hash u = s.hash u := fun u hu => modify_other _ hu
  have hprep : Prepared g (reads ++ [t]) seen s₁ := by
    refine ⟨hs.holdings.modify fun _ => ⟨rfl, rfl⟩, ?_, ?_⟩
    · intro u
      have hchildren := hs.children u
      rw [count_append]
      by_cases hu : u = t
      · subst hu
        rw [hs₁, modify_same]
        simp [hchildren]
      · rw [hsame u hu, hchildren]
        simp [Ne.symm hu]
    · intro u
      by_cases hu : u = t
      · subst hu
        rw [hs₁, modify_same]
        exact hs.views u
      · rw [hsame u hu]
        exact hs.views u
  obtain ⟨hprep', hgrown, -⟩ := allocateInput_spec hg hprep h
  refine ⟨hprep', hgrown.aligned, ?_⟩
  intro u hu
  apply hgrown.keeps
  by_cases hut : u = t
  · subst hut
    rw [hs₁, modify_same]
    exact hu
  · rw [hsame u hut]
    exact hu

theorem countChildren_spec {reads seen : List ℕ} (hg : g.WellFormed) (l : List ℕ) (hs : Prepared g reads seen s)
    (h : l.foldlM (fun s src => countChild g src s) s = .ok s') : Prepared g (reads ++ l) seen s' ∧ Grown s s' := by
  induction l generalizing s reads with
  | nil =>
    cases h
    rw [append_nil]
    exact ⟨hs, Grown.refl _⟩
  | cons src l ih =>
    rw [foldlM_cons] at h
    obtain ⟨s₁, h₁, h⟩ := (Except.bind_eq_ok_iff).mp h
    obtain ⟨hs₁, hgrown₁⟩ := countChild_spec hg hs h₁
    obtain ⟨hs', hgrown⟩ := ih hs₁ h
    rw [append_assoc] at hs'
    exact ⟨hs', hgrown₁.trans hgrown⟩

theorem countNode_spec {seen : List ℕ} (hg : g.WellFormed) (hn : n ∈ g.nodes) (hs : Prepared g (g.reads seen) seen s)
    (h : countNode g n s = .ok s') :
    Prepared g (g.reads (seen ++ [n])) (seen ++ [n]) s' ∧ Grown s s' ∧
      ((g.tensor n).input = true → g.Plain n → (s'.hash n).allocated = true) := by
  obtain ⟨hview, hgrownView⟩ := countView_spec hg hn hs
  obtain ⟨s₁, h₁, h⟩ := (Except.bind_eq_ok_iff).mp h
  obtain ⟨hs₁, hgrown₁, hinput⟩ := allocateInput_spec hg hview h₁
  obtain ⟨hs', hgrown⟩ := countChildren_spec hg (g.parents n) hs₁ h
  refine ⟨?_, (hgrownView.trans hgrown₁).trans hgrown, fun h hplain => hgrown.keeps n (hinput h hplain)⟩
  rwa [reads_append, show g.reads [n] = g.parents n from flatMap_singleton ..]

theorem countNodes_spec (hg : g.WellFormed) (l seen : List ℕ) (hsplit : g.nodes = seen ++ l)
    (hs : Prepared g (g.reads seen) seen s) (h : l.foldlM (fun s node => countNode g node s) s = .ok s') :
    Prepared g (g.reads g.nodes) g.nodes s' ∧ Grown s s' ∧
      ∀ n ∈ l, (g.tensor n).input = true → g.Plain n → (s'.hash n).allocated = true := by
  induction l generalizing s seen with
  | nil =>
    cases h
    rw [append_nil] at hsplit
    rw [hsplit]
    exact ⟨hs, Grown.refl _, fun n hn => nomatch hn⟩
  | cons n l ih =>
    rw [foldlM_cons] at h
    obtain ⟨s₁, h₁, h⟩ := (Except.bind_eq_ok_iff).mp h
    have hn : n ∈ g.nodes := hsplit ▸ mem_append_right _ (mem_cons_self ..)
    obtain ⟨hs₁, hgrown₁, hinput⟩ := countNode_spec hg hn hs h₁
    obtain ⟨hs', hgrown, hrest⟩ := ih (seen ++ [n]) (by rw [hsplit, append_assoc, singleton_append]) hs₁ h
    refine ⟨hs', hgrown₁.trans hgrown, ?_⟩
    intro m hm hinput' hplain
    rcases mem_cons.mp hm with rfl | hm
    · exact hgrown.keeps m (hinput hinput' hplain)
    · exact hrest m hm hinput' hplain

/-! ### The last pass -/

/-- **Between two nodes**: `before` have run and `after` are to come. -/
structure Inv (g : Graph) (before after : List ℕ) (s : State) : Prop where
  holdings : Holdings g s
  counts : Counts g (g.reads after) s
  kept : Kept g before none s

theorem holdings_start (g : Graph) (alignment maxChunkSize : ℕ) :
    Holdings g ⟨fun _ => .zero, ⟨alignment, maxChunkSize, []⟩⟩ := by
  have hnone : ∀ t, ((fun _ => HashNode.zero : ℕ → HashNode) t).allocated ≠ true := fun _ => Bool.false_ne_true
  refine ⟨fun t ht => absurd ht (hnone t), ⟨Set.univ, ⟨?_, fun c x _ => Set.mem_univ _⟩, ?_⟩, ?_⟩
  · intro c chunk hchunk
    cases hchunk
  · intro t ht
    exact absurd ht (hnone t)
  · intro t t' _ ht
    exact absurd ht (hnone t)

theorem inv_start {maxChunkSize : ℕ} {s₁ s₂ : State} (hg : g.WellFormed)
    (h₁ : g.leafs.foldlM (fun s leaf => allocateNode g leaf s) ⟨fun _ => .zero, ⟨alignment, maxChunkSize, []⟩⟩ = .ok s₁)
    (h₂ : g.nodes.foldlM (fun s node => countNode g node s) s₁ = .ok s₂) :
    Inv g [] g.nodes s₂ ∧ s₂.talloc.alignment = alignment := by
  obtain ⟨hH, hsame, hgrown₁, hleafs⟩ := allocateLeafs_spec g.leafs (fun t ht => (hg.leafs t ht).2)
    (holdings_start g alignment maxChunkSize) h₁
  have hprep : Prepared g (g.reads []) [] s₁ := by
    refine ⟨hH, fun t => (hsame t).1.trans ?_, fun t => (hsame t).2.trans ?_⟩
    · rfl
    · rfl
  obtain ⟨hs, hgrown₂, hinputs⟩ := countNodes_spec hg g.nodes [] rfl hprep h₂
  refine ⟨⟨hs.holdings, ⟨hs.children, ?_⟩, ?_⟩, hgrown₂.aligned.trans hgrown₁.aligned⟩
  · intro t
    rw [hs.views]
    congr 2
    funext v
    by_cases hv : v ∈ g.reads g.nodes <;> simp [pendingView, pending, hv]
  · rintro t (hleaf | ⟨hnode, hinput⟩ | hbefore) hplain - -
    · exact hgrown₂.keeps t (hleafs t hleaf hplain)
    · exact hinputs t hnode hinput hplain
    · cases hbefore

/-- **What an in-place node leaves of a parent is aligned**: where a node of an operation that can work in place needs less
than a parent of the same layout that it may take over, its own size is a multiple of the alignment. -/
def Graph.Fitting (g : Graph) (alignment : ℕ) : Prop :=
  ∀ n ∈ g.nodes, g.Plain n → (g.tensor n).op.canInplace = true → ∀ p ∈ g.parents n, g.Plain p →
    (g.tensor p).output = false → (g.tensor n).layout = (g.tensor p).layout →
    (g.tensor n).allocSize < (g.tensor p).allocSize → alignment ∣ (g.tensor n).allocSize

/-- The node has taken over the memory of a parent. -/
structure Takes (g : Graph) (n p : ℕ) (s : State) : Prop where
  plain : g.Plain n
  parent : p ∈ g.parents n
  inplace : (g.tensor n).op.canInplace = true
  layout : (g.tensor n).layout = (g.tensor p).layout
  output : (g.tensor p).output = false
  addr : (s.hash n).addr = (s.hash p).addr
  lastChild : (s.hash p).nChildren = 1
  noViews : (s.hash p).nViews = 0

/-- **A node is written**: it has memory, and what is needed is allocated, except for the parent that it took over. -/
structure AtWrite (g : Graph) (before : List ℕ) (n : ℕ) (after : List ℕ) (taken : Option ℕ) (s : State) : Prop where
  holdings : Holdings g s
  counts : Counts g (g.reads (n :: after)) s
  kept : Kept g (before ++ [n]) taken s
  written : g.Plain n → (s.hash n).allocated = true
  takes : ∀ p, taken = some p → Takes g n p s

/-- The addresses from one state to the next. -/
structure Onward (n : ℕ) (taken : Option ℕ) (s s' : State) : Prop where
  aligned : s'.talloc.alignment = s.talloc.alignment
  addrs : ∀ t, t ≠ n ∨ (s.hash t).allocated = true → (s'.hash t).addr = (s.hash t).addr
  keeps : ∀ t, (s.hash t).allocated = true → (s'.hash t).allocated = true ∨ taken = some t

theorem allocateParents_eq {before after : List ℕ} (hg : g.WellFormed) (hsplit : g.nodes = before ++ n :: after)
    (hs : Inv g before (n :: after) s) (l : List ℕ) (hl : ∀ p ∈ l, p ∈ g.parents n) :
    l.foldlM (fun s parent => allocateNode g parent s) s = .ok s := by
  induction l with
  | nil => rfl
  | cons p l ih =>
    have hp : p ∈ g.parents n := hl p (mem_cons_self ..)
    have hbusy : allocateNode g p s = .ok s := by
      rw [allocateNode, if_neg]
      intro hidle
      simp only [State.isAllocated, isView, Bool.and_eq_true, Bool.not_eq_true', Bool.or_eq_false_iff] at hidle
      obtain ⟨⟨hdata, hfree⟩, hview⟩ := hidle
      have hplain : g.Plain p := ⟨by simpa using hview, by simpa using hdata⟩
      have hwritten : g.Written before p := by
        rcases hg.sources before n after hsplit p hp with hleaf | hbefore
        · exact .inl hleaf
        · exact .inr (.inr hbefore)
      have hread : (s.hash p).nChildren ≠ 0 := by
        rw [hs.counts.children, reads_cons]
        have := count_pos_iff.mpr (mem_append_left (g.reads after) hp)
        omega
      rw [hs.kept p hwritten hplain (by simp) (.inr (.inl hread))] at hfree
      cases hfree
    rw [foldlM_cons, hbusy]
    exact ih (fun q hq => hl q (mem_cons_of_mem _ hq))

theorem Needed.congr {s s' : State} (hsame : SameCounts s s') (h : Needed g s' t) : Needed g s t := by
  rcases h with houtput | hchildren | hviews
  · exact .inl houtput
  · exact .inr (.inl ((hsame t).1 ▸ hchildren))
  · exact .inr (.inr ((hsame t).2 ▸ hviews))

theorem allocateStep_spec {before after : List ℕ} (hg : g.WellFormed) (hfit : g.Fitting s.talloc.alignment)
    (hsplit : g.nodes = before ++ n :: after) (hs : Inv g before (n :: after) s) (h : allocateStep g n s = .ok s') :
    ∃ taken, AtWrite g before n after taken s' ∧ Onward n taken s s' := by
  obtain ⟨s₁, h₁, h⟩ := (Except.bind_eq_ok_iff).mp h
  rw [allocateParents_eq hg hsplit hs (g.parents n) (fun p hp => hp)] at h₁
  cases h₁
  have hn : n ∈ g.nodes := hsplit ▸ mem_append_right _ (mem_cons_self ..)
  have hsplitWritten : ∀ t, g.Written (before ++ [n]) t → t ≠ n → g.Written before t := by
    rintro t (hleaf | hinput | hmem) htn
    · exact .inl hleaf
    · exact .inr (.inl hinput)
    · rcases mem_append.mp hmem with hmem | hmem
      · exact .inr (.inr hmem)
      · exact absurd (mem_singleton.mp hmem) htn
  rcases allocateNode_cases (fun t ht => (hs.holdings.plain t ht).1) (fun _ => hg.self_notMem hsplit) h with
    ⟨hbusy, rfl⟩ | hfresh | ⟨p, hreused⟩
  · have hwritten : g.Plain n → (s'.hash n).allocated = true := by
      rintro ⟨hview, hdata⟩
      simpa [State.isAllocated, isView, hview, hdata] using hbusy
    refine ⟨none, ⟨hs.holdings, hs.counts, ?_, hwritten, fun _ h => by cases h⟩, rfl, fun _ _ => rfl, fun _ ht => .inl ht⟩
    intro t ht hplain _ hneed
    by_cases htn : t = n
    · subst htn
      exact hwritten hplain
    · exact hs.kept t (hsplitWritten t ht htn) hplain (by simp) hneed
  · refine ⟨none, ⟨hs.holdings.fresh hfresh, hs.counts.congr hfresh.counts, ?_, fun _ => hfresh.takes, fun _ h => by cases h⟩,
      alloc_alignment hfresh.memory, ?_, ?_⟩
    · intro t ht hplain _ hneed
      by_cases htn : t = n
      · subst htn
        exact hfresh.takes
      · rw [(hfresh.others t htn).1]
        exact hs.kept t (hsplitWritten t ht htn) hplain (by simp) (hneed.congr hfresh.counts)
    · rintro t (htn | hall)
      · exact (hfresh.others t htn).2
      · have htn : t ≠ n := by
          rintro rfl
          rw [hfresh.idle] at hall
          cases hall
        exact (hfresh.others t htn).2
    · intro t hall
      by_cases htn : t = n
      · subst htn
        exact .inl hfresh.takes
      · exact .inl ((hfresh.others t htn).1.trans hall)
  · have hpplain := hs.holdings.plain p hreused.own
    have haligned : s'.talloc.alignment = s.talloc.alignment := by
      rcases hreused.memory with ⟨-, htalloc⟩ | ⟨-, hfree⟩
      · rw [htalloc]
      · exact freeTensor_alignment hfree
    have hpn : p ≠ n := fun heq => hg.self_notMem hsplit (heq ▸ hreused.parent)
    have hH := hs.holdings.reused hreused
      (hfit n hn hreused.plain hreused.inplace p hreused.parent hpplain hreused.output hreused.layout)
    refine ⟨some p, ⟨hH, hs.counts.congr hreused.counts, ?_, fun _ => hreused.takes.1, ?_⟩, haligned, ?_, ?_⟩
    · intro t ht hplain htaken hneed
      by_cases htn : t = n
      · subst htn
        exact hreused.takes.1
      · have htp : t ≠ p := fun heq => htaken (heq ▸ rfl)
        rw [(hreused.others t htn htp).1]
        exact hs.kept t (hsplitWritten t ht htn) hplain (by simp) (hneed.congr hreused.counts)
    · rintro q hq
      cases hq
      exact ⟨hreused.plain, hreused.parent, hreused.inplace, hreused.layout, hreused.output,
        hreused.takes.2.trans hreused.gives.2.symm, (hreused.counts p).1.trans hreused.lastChild, (hreused.counts p).2.trans hreused.noViews⟩
    · intro t ht
      by_cases htp : t = p
      · subst htp
        exact hreused.gives.2
      · have htn : t ≠ n := by
          rintro rfl
          rcases ht with ht | hall
          · exact ht rfl
          · rw [hreused.idle] at hall
            cases hall
        exact (hreused.others t htn htp).2
    · intro t hall
      by_cases htp : t = p
      · exact .inr (htp ▸ rfl)
      · by_cases htn : t = n
        · subst htn
          exact .inl hreused.takes.1
        · exact .inl ((hreused.others t htn htp).1.trans hall)

/-- **The address of the tensor will not change any more**: it is allocated, or the nodes to come do not touch it. -/
def Settled (g : Graph) (after : List ℕ) (s : State) (t : ℕ) : Prop :=
  (s.hash t).allocated = true ∨ (t ∉ g.reads after ∧ t ∉ after)

theorem AtWrite.update {before after : List ℕ} {taken : Option ℕ} (hg : g.WellFormed)
    (hsplit : g.nodes = before ++ n :: after) (hs : AtWrite g before n after taken s)
    (h : (g.parents n).foldlM (fun s parent => updateParent g parent s) s = .ok s') :
    Inv g (before ++ [n]) after s' ∧ s'.talloc.alignment = s.talloc.alignment ∧
      (∀ t, (s'.hash t).addr = (s.hash t).addr) ∧
      ∀ t, (s.hash t).allocated = true ∨ taken = some t → Settled g after s' t := by
  have hreads : ∀ p ∈ g.parents n, p ∈ g.reads g.nodes := by
    intro p hp
    rw [hsplit, reads_append, reads_cons]
    exact mem_append_right _ (mem_append_left _ hp)
  have hcounts := hs.counts
  rw [reads_cons] at hcounts
  obtain ⟨hH, hC, hU⟩ := updateParents_spec hg (g.parents n) hreads hs.holdings hcounts h
  have hdead : ∀ t, ¬ Needed g s' t → t ∉ g.reads after := by
    intro t hneed hread
    refine hneed (.inr (.inl ?_))
    rw [hC.children]
    have := count_pos_iff.mpr hread
    omega
  -- the reader at hand was the last one of the parent that was taken over
  have htaken : ∀ p, taken = some p → ¬ Needed g s' p := by
    intro p hp
    have htakes := hs.takes p hp
    have hone := hcounts.children p
    rw [htakes.lastChild, count_append] at hone
    have hread := count_pos_iff.mpr htakes.parent
    rintro (houtput | hchildren | hviews)
    · rw [htakes.output] at houtput
      cases houtput
    · rw [hC.children] at hchildren
      omega
    · have hle := countP_pendingView_le g (g.parents n) (g.reads after) p
      have hzero := hcounts.views p
      rw [htakes.noViews] at hzero
      rw [hC.views] at hviews
      omega
  refine ⟨⟨hH, hC, ?_⟩, hU.aligned, hU.addrs, ?_⟩
  · intro t hwritten hplain _ hneed
    by_cases ht : taken = some t
    · exact absurd hneed (htaken t ht)
    · rcases hU.drops t (hs.kept t hwritten hplain ht (hneed.of_suffix hcounts hC)) with hown | ⟨hdrop, -⟩
      · exact hown
      · exact absurd hneed hdrop
  · rintro t (hall | ht)
    · rcases hU.drops t hall with hown | ⟨hdrop, p, hp, hbehind⟩
      · exact .inl hown
      · have hlater := hg.not_later hsplit (hg.behind hsplit hp hbehind)
        exact .inr ⟨hdead t hdrop, fun hmem => hlater (mem_cons_of_mem _ hmem)⟩
    · have hlater := hg.not_later hsplit (hg.sources before n after hsplit t (hs.takes t ht).parent)
      exact .inr ⟨hdead t (htaken t ht), fun hmem => hlater (mem_cons_of_mem _ hmem)⟩

theorem nodeStep_spec {before after : List ℕ} (hg : g.WellFormed) (hfit : g.Fitting s.talloc.alignment)
    (hsplit : g.nodes = before ++ n :: after) (hs : Inv g before (n :: after) s) (h : nodeStep g n s = .ok s') :
    Inv g (before ++ [n]) after s' ∧ s'.talloc.alignment = s.talloc.alignment ∧
      (∀ t, Settled g (n :: after) s t → (s'.hash t).addr = (s.hash t).addr ∧ Settled g after s' t) ∧
      ∃ taken mid, AtWrite g before n after taken mid ∧
        ∀ t, (mid.hash t).allocated = true ∨ taken = some t →
          (s'.hash t).addr = (mid.hash t).addr ∧ Settled g after s' t := by
  obtain ⟨mid, hmid, h⟩ := (Except.bind_eq_ok_iff).mp h
  obtain ⟨taken, hwrite, honward⟩ := allocateStep_spec hg hfit hsplit hs hmid
  obtain ⟨hinv, haligned, haddrs, hsettled⟩ := hwrite.update hg hsplit h
  refine ⟨hinv, haligned.trans honward.aligned, ?_, taken, mid, hwrite, fun t ht => ⟨haddrs t, hsettled t ht⟩⟩
  rintro t (hall | ⟨hread, hlater⟩)
  · exact ⟨(haddrs t).trans (honward.addrs t (.inr hall)), hsettled t (honward.keeps t hall)⟩
  · have htn : t ≠ n := fun heq => hlater (heq ▸ mem_cons_self ..)
    refine ⟨(haddrs t).trans (honward.addrs t (.inl htn)), .inr ⟨?_, fun hmem => hlater (mem_cons_of_mem _ hmem)⟩⟩
    rw [reads_cons] at hread
    exact fun hmem => hread (mem_append_right _ hmem)

theorem run_spec (l : List ℕ) {before after : List ℕ} (hg : g.WellFormed) (hfit : g.Fitting s.talloc.alignment)
    (hsplit : g.nodes = before ++ (l ++ after)) (hs : Inv g before (l ++ after) s)
    (h : l.foldlM (fun s node => nodeStep g node s) s = .ok s') :
    Inv g (before ++ l) after s' ∧ s'.talloc.alignment = s.talloc.alignment ∧
      ∀ t, Settled g (l ++ after) s t → (s'.hash t).addr = (s.hash t).addr := by
  induction l generalizing s before with
  | nil =>
    cases h
    rw [append_nil]
    exact ⟨hs, rfl, fun _ _ => rfl⟩
  | cons n l ih =>
    rw [foldlM_cons] at h
    obtain ⟨s₁, h₁, h⟩ := (Except.bind_eq_ok_iff).mp h
    rw [cons_append] at hsplit hs
    obtain ⟨hinv₁, haligned₁, hsettled₁, -⟩ := nodeStep_spec hg hfit hsplit hs h₁
    have hsplit₁ : g.nodes = (before ++ [n]) ++ (l ++ after) := by
      rw [hsplit, append_assoc, singleton_append]
    obtain ⟨hinv, haligned, haddrs⟩ := ih (haligned₁.symm ▸ hfit) hsplit₁ hinv₁ h
    rw [append_assoc, singleton_append] at hinv
    refine ⟨hinv, haligned.trans haligned₁, ?_⟩
    intro t ht
    obtain ⟨haddr, hsettled⟩ := hsettled₁ t ht
    exact (haddrs t hsettled).trans haddr

end Alloc
