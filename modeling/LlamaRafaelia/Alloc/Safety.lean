import LlamaRafaelia.Alloc.Reserve

/-!
# Allocator: the addresses of a reserved graph

When a node is written, everything that is still needed is allocated (`AtWrite`), and the ranges of allocated tensors
are apart.  A view that is an output is freed with its source, and the end of a parent that is taken over is freed at
an address that need not be aligned.

* `reserve_noClobber` - **the plan of `ggml_gallocr_reserve`**.
-/

namespace Alloc

open List Alloc.Graph

variable {g : Graph} {s : State} {before after : List ℕ} {n t r : ℕ}

namespace Graph

theorem reads_sub {l m : List ℕ} (h : l ⊆ m) : g.reads l ⊆ g.reads m := by
  intro p hp
  obtain ⟨n, hn, hp⟩ := mem_flatMap.mp hp
  exact mem_flatMap.mpr ⟨n, h hn, hp⟩

namespace WellFormed

theorem read_before (hg : g.WellFormed) (hsplit : g.nodes = before ++ after) (h : t ∈ g.reads before) :
    t ∈ g.leafs ∨ t ∈ before := by
  obtain ⟨m, hm, ht⟩ := mem_flatMap.mp h
  obtain ⟨pre, post, rfl⟩ := append_of_mem hm
  rw [append_assoc, cons_append] at hsplit
  rcases hg.sources pre m _ hsplit t ht with hleaf | hpre
  · exact .inl hleaf
  · exact .inr (mem_append_left _ hpre)

theorem pending_self (hg : g.WellFormed) (hsplit : g.nodes = before ++ n :: after) :
    g.pending (g.reads (n :: after)) n = true := by
  simp only [pending, decide_eq_true_eq]
  by_cases hread : n ∈ g.reads g.nodes
  · rw [hsplit, reads_append, mem_append] at hread
    rcases hread with hbefore | hafter
    · exact absurd (mem_cons_self ..) (hg.not_later hsplit (hg.read_before hsplit hbefore))
    · exact .inl hafter
  · exact .inr hread

theorem written_source (hg : g.WellFormed) (hsplit : g.nodes = before ++ after) (ht : g.Written before t)
    (hview : (g.tensor t).viewSrc = some r) : t ∈ g.nodes ∧ g.Written before r := by
  rcases ht with hleaf | ⟨hnode, hinput⟩ | hbefore
  · rw [(hg.leafs t hleaf).1] at hview
    cases hview
  · exact absurd (hg.inputs t hinput) (hg.views t hnode r hview).1
  · obtain ⟨pre, post, rfl⟩ := append_of_mem hbefore
    have hsplit' : g.nodes = pre ++ t :: (post ++ after) := by
      rw [hsplit, append_assoc, cons_append]
    refine ⟨hsplit' ▸ mem_append_right _ (mem_cons_self ..), ?_⟩
    rcases hg.viewSources pre t _ hsplit' r hview with hleaf | hpre
    · exact .inl hleaf
    · exact .inr (.inr (mem_append_left _ hpre))

end WellFormed

theorem owner_of_plain (h : (g.tensor t).viewSrc = none) : g.owner t = t := by
  rw [owner, h, Option.getD_none]

theorem owner_of_view (h : (g.tensor t).viewSrc = some r) : g.owner t = r := by
  rw [owner, h, Option.getD_some]

end Graph

theorem Counts.nViews_ne_zero {reads : List ℕ} {v : ℕ} (h : Counts g reads s) (hv : v ∈ g.nodes)
    (hview : (g.tensor v).viewSrc = some r) (hpending : g.pending reads v = true) : (s.hash r).nViews ≠ 0 := by
  have hpos : 0 < g.nodes.countP (g.pendingView reads r) := by
    rw [countP_pos_iff]
    exact ⟨v, hv, by simp [pendingView, hview, hpending]⟩
  rw [h.views]
  omega

theorem Counts.nChildren_ne_zero {reads : List ℕ} (h : Counts g reads s) (ht : t ∈ reads) :
    (s.hash t).nChildren ≠ 0 := by
  rw [h.children]
  have := count_pos_iff.mpr ht
  omega

/-- **What is live is needed**: the counters of the tensor itself, or of the tensor that a view lies in, are not zero.
For a view only the counter of the views or the flag of the source can say so. -/
theorem needed_of_live (hg : g.WellFormed) (hout : g.OutputsKept) (hsplit : g.nodes = before ++ n :: after)
    (hC : Counts g (g.reads (n :: after)) s) (hlive : g.Live before (n :: after) t) (hplain : g.Plain (g.owner t)) :
    Needed g s (g.owner t) ∧
      ((g.tensor t).viewSrc ≠ none → (g.tensor (g.owner t)).output = true ∨ (s.hash (g.owner t)).nViews ≠ 0) := by
  have hsub : g.reads (n :: after) ⊆ g.reads g.nodes := reads_sub (hsplit ▸ subset_append_right ..)
  obtain ⟨hwritten, hlive⟩ := hlive
  cases hview : (g.tensor t).viewSrc with
  | none =>
    rw [owner_of_plain hview]
    refine ⟨?_, fun h => absurd rfl h⟩
    rcases hlive with houtput | ⟨p, hp, rfl | hpview⟩
    · exact .inl houtput
    · exact .inr (.inl (hC.nChildren_ne_zero hp))
    · refine .inr (.inr (hC.nViews_ne_zero (hg.view_mem (hsub hp) hpview) hpview ?_))
      simp [pending, hp]
  | some r =>
    rw [owner_of_view hview] at hplain ⊢
    obtain ⟨htnode, -⟩ := hg.written_source hsplit hwritten hview
    have hneed : (g.tensor r).output = true ∨ (s.hash r).nViews ≠ 0 := by
      rcases hlive with houtput | ⟨p, hp, rfl | hpview⟩
      · by_cases hread : t ∈ g.reads g.nodes
        · exact .inl (hout t htnode houtput r hview hplain.2 hread)
        · exact .inr (hC.nViews_ne_zero htnode hview (by simp [pending, hread]))
      · exact .inr (hC.nViews_ne_zero htnode hview (by simp [pending, hp]))
      · -- nothing is a view of a view
        have := (hg.views p (hg.view_mem (hsub hp) hpview) t hpview).2
        rw [hview] at this
        cases this
    refine ⟨?_, fun _ => hneed⟩
    rcases hneed with houtput | hviews
    · exact .inl houtput
    · exact .inr (.inr hviews)

theorem AtWrite.owner_allocated {taken : Option ℕ} (hg : g.WellFormed) (hsplit : g.nodes = before ++ n :: after)
    (hs : AtWrite g before n after taken s) (hplain : g.Plain (g.owner n)) :
    (s.hash (g.owner n)).allocated = true := by
  cases hview : (g.tensor n).viewSrc with
  | none =>
    rw [owner_of_plain hview] at hplain ⊢
    exact hs.written hplain
  | some r =>
    rw [owner_of_view hview] at hplain ⊢
    have hn : n ∈ g.nodes := hsplit ▸ mem_append_right _ (mem_cons_self ..)
    have hviews := hs.counts.nViews_ne_zero hn hview (hg.pending_self hsplit)
    refine hs.kept r ?_ hplain ?_ (.inr (.inr hviews))
    · rcases hg.viewSources before n after hsplit r hview with hleaf | hbefore
      · exact .inl hleaf
      · exact .inr (.inr (mem_append_left _ hbefore))
    · intro htaken
      exact hviews (hs.takes r htaken).noViews

theorem Graph.WellFormed.memory_sub {addr : ℕ → BufferAddress} (hg : g.WellFormed) (ht : t ∈ g.leafs ∨ t ∈ g.nodes) :
    g.memory addr t ⊆ g.room addr t := by
  cases hview : (g.tensor t).viewSrc with
  | none =>
    rw [room, owner_of_plain hview]
    simp only [memory, hview]
    exact le_refl _
  | some r =>
    rw [room, owner_of_view hview]
    have hnode : t ∈ g.nodes := by
      rcases ht with hleaf | hnode
      · rw [(hg.leafs t hleaf).1] at hview
        cases hview
      · exact hnode
    have hinside := hg.inside t hnode r hview
    simp only [memory, hview]
    rintro ⟨c, x⟩ ⟨hc, hx⟩
    rw [Block.mem_bytes] at hx
    refine ⟨hc, ?_⟩
    rw [Block.mem_bytes]
    dsimp only at hx ⊢
    omega

theorem Graph.Live.mem (hsplit : g.nodes = before ++ n :: after) (h : g.Live before (n :: after) t) :
    t ∈ g.leafs ∨ t ∈ g.nodes := by
  rcases h.1 with hleaf | hinput | hbefore
  · exact .inl hleaf
  · exact .inr hinput.1
  · exact .inr (hsplit ▸ mem_append_left _ hbefore)

theorem Graph.Separate.noClobber {addr : ℕ → BufferAddress} (hg : g.WellFormed) (h : g.Separate addr) :
    g.NoClobber addr := by
  intro before n after hsplit t hlive hne hn ht
  have hnode : n ∈ g.nodes := hsplit ▸ mem_append_right _ (mem_cons_self ..)
  rcases h before n after hsplit t hlive hne hn ht with hdisj | htakes
  · exact .inl (hdisj.mono (hg.memory_sub (.inr hnode)) (hg.memory_sub (hlive.mem hsplit)))
  · exact .inr htakes

theorem room_sub {addr : ℕ → BufferAddress} (haddr : addr (g.owner t) = (s.hash (g.owner t)).addr) :
    g.room addr t ⊆ held g s (g.owner t) := by
  rw [room, held, haddr]
  exact BufferAddress.range_mono (le_alignedOffset ..)

theorem AtWrite.separate {taken : Option ℕ} {addr : ℕ → BufferAddress} (hg : g.WellFormed) (hout : g.OutputsKept)
    (hsplit : g.nodes = before ++ n :: after) (hs : AtWrite g before n after taken s)
    (haddr : ∀ t, (s.hash t).allocated = true ∨ taken = some t → addr t = (s.hash t).addr)
    (hlive : g.Live before (n :: after) t) (hne : g.owner n ≠ g.owner t) (hn : g.Plain (g.owner n))
    (ht : g.Plain (g.owner t)) :
    Disjoint (g.room addr n) (g.room addr t) ∨ g.TakesOver addr after n t := by
  have hnown := hs.owner_allocated hg hsplit hn
  obtain ⟨hneed, hviewNeed⟩ := needed_of_live hg hout hsplit hs.counts hlive ht
  by_cases htaken : taken = some (g.owner t)
  · -- the memory of the tensor was taken over: it has no views left, so it is no view itself
    have htakes := hs.takes _ htaken
    have hplain : (g.tensor t).viewSrc = none := by
      by_contra hview
      rcases hviewNeed hview with houtput | hviews
      · rw [htakes.output] at houtput
        cases houtput
      · exact hviews htakes.noViews
    rw [owner_of_plain hplain] at htaken htakes
    rw [owner_of_plain htakes.plain.1] at hnown
    refine .inr ⟨htakes.parent, htakes.inplace, htakes.layout, ?_, htakes.output, ?_⟩
    · rw [haddr n (.inl hnown), haddr t (.inr htaken), htakes.addr]
    · rintro ⟨p, hp, rfl | hview⟩
      · have hone := hs.counts.children p
        rw [htakes.lastChild, reads_cons, count_append] at hone
        have hfirst := count_pos_iff.mpr htakes.parent
        have hlater := count_pos_iff.mpr hp
        omega
      · have hmem : p ∈ g.reads (n :: after) := by
          rw [reads_cons]
          exact mem_append_right _ hp
        have hnodes : p ∈ g.reads g.nodes := reads_sub (hsplit ▸ subset_append_right ..) hmem
        exact hs.counts.nViews_ne_zero (hg.view_mem hnodes hview) hview (by simp [pending, hmem]) htakes.noViews
  · have hwritten : g.Written (before ++ [n]) (g.owner t) := by
      have hbefore : g.Written before (g.owner t) := by
        cases hview : (g.tensor t).viewSrc with
        | none =>
          rw [owner_of_plain hview]
          exact hlive.1
        | some r =>
          rw [owner_of_view hview]
          exact (hg.written_source hsplit hlive.1 hview).2
      rcases hbefore with hleaf | hinput | hmem
      · exact .inl hleaf
      · exact .inr (.inl hinput)
      · exact .inr (.inr (mem_append_left _ hmem))
    have htown := hs.kept _ hwritten ht htaken hneed
    exact .inl ((hs.holdings.apart _ _ hne hnown htown).mono (room_sub (haddr _ (.inl hnown)))
      (room_sub (haddr _ (.inl htown))))

/-- **The addresses at the end of the passes clobber nothing.** -/
theorem separate_of_run {alignment maxChunkSize : ℕ} (hg : g.WellFormed) (hfit : g.Fitting alignment)
    (hout : g.OutputsKept) (h : allocGraphImpl g alignment maxChunkSize = .ok s) :
    g.Separate fun t => (s.hash t).addr := by
  obtain ⟨s₁, h₁, h⟩ := (Except.bind_eq_ok_iff).mp h
  obtain ⟨s₂, h₂, h⟩ := (Except.bind_eq_ok_iff).mp h
  obtain ⟨hinv, haligned⟩ := inv_start hg h₁ h₂
  intro before n after hsplit t hlive hne hn ht
  rw [hsplit, List.foldlM_append] at h
  obtain ⟨s₃, h₃, h⟩ := (Except.bind_eq_ok_iff).mp h
  rw [foldlM_cons] at h
  obtain ⟨s₄, h₄, h⟩ := (Except.bind_eq_ok_iff).mp h
  obtain ⟨hinv₃, haligned₃, -⟩ := run_spec before hg (haligned.symm ▸ hfit) (by rw [nil_append, hsplit])
    (hsplit ▸ hinv) h₃
  rw [nil_append] at hinv₃
  have hfit₃ : g.Fitting s₃.talloc.alignment := by rwa [haligned₃, haligned]
  obtain ⟨hinv₄, haligned₄, -, taken, mid, hwrite, hmid⟩ := nodeStep_spec hg hfit₃ hsplit hinv₃ h₄
  have hsplit₄ : g.nodes = (before ++ [n]) ++ (after ++ []) := by
    rw [hsplit, append_nil, append_assoc, singleton_append]
  obtain ⟨-, -, haddrs⟩ := run_spec after hg (haligned₄.symm ▸ hfit₃) hsplit₄ (by rwa [append_nil]) h
  refine hwrite.separate hg hout hsplit ?_ hlive hne hn ht
  intro u hu
  obtain ⟨haddr, hsettled⟩ := hmid u hu
  exact (haddrs u (by rwa [append_nil])).trans haddr

/-! ### The plan -/

/-- **The plan gives every tensor one address**: at each position where a tensor of its own memory stands, the entry has
the address and the size of the tensor. -/
structure Galloc.Assigns (galloc : Galloc) (g : Graph) (addr : ℕ → BufferAddress) : Prop where
  leafs : ∀ (i : ℕ) t, g.leafs[i]? = some t → ∃ entry : TensorAlloc, galloc.leafAllocs[i]? = some entry ∧
    (g.Plain t → entry = ⟨some (addr t), (g.tensor t).allocSize⟩)
  nodes : ∀ (i : ℕ) n, g.nodes[i]? = some n → ∃ entry : NodeAlloc, galloc.nodeAllocs[i]? = some entry ∧
    (g.Plain n → entry.dst = ⟨some (addr n), (g.tensor n).allocSize⟩) ∧
    ∀ (j : ℕ) p, (g.tensor n).src[j]? = some (some p) → ∃ entry' : TensorAlloc, entry.src[j]? = some entry' ∧
      (g.Plain p → entry' = ⟨some (addr p), (g.tensor p).allocSize⟩)

theorem tensorAlloc_of_plain (h : g.Plain t) : tensorAlloc g s t = ⟨some (s.hash t).addr, (g.tensor t).allocSize⟩ := by
  rw [tensorAlloc, h.1, h.2]
  rfl

theorem reserve_ok {backend : ℕ → Option ℕ} {galloc galloc' : Galloc}
    (h : galloc.reserve backend g = .ok (some galloc')) :
    ∃ s, allocGraphImpl g galloc.alignment galloc.maxChunkSize = .ok s ∧
      galloc'.nodeAllocs = g.nodes.map (nodeAlloc g s) ∧ galloc'.leafAllocs = g.leafs.map (tensorAlloc g s) := by
  obtain ⟨s, hs, h⟩ := (Except.bind_eq_ok_iff).mp h
  refine ⟨s, hs, ?_⟩
  dsimp only at h
  split at h
  · obtain ⟨sizes, -, rfl⟩ := Option.map_eq_some_iff.mp (Except.ok.inj h)
    exact ⟨rfl, rfl⟩
  · cases h
    exact ⟨rfl, rfl⟩

theorem assigns_of_run {galloc : Galloc} (hnodes : galloc.nodeAllocs = g.nodes.map (nodeAlloc g s))
    (hleafs : galloc.leafAllocs = g.leafs.map (tensorAlloc g s)) : galloc.Assigns g fun t => (s.hash t).addr := by
  constructor
  · intro i t ht
    exact ⟨tensorAlloc g s t, by rw [hleafs, getElem?_map, ht]; rfl, tensorAlloc_of_plain⟩
  · intro i n hn
    refine ⟨nodeAlloc g s n, by rw [hnodes, getElem?_map, hn]; rfl, tensorAlloc_of_plain, ?_⟩
    intro j p hp
    refine ⟨tensorAlloc g s p, ?_, tensorAlloc_of_plain⟩
    rw [nodeAlloc, getElem?_map, hp]
    rfl

def rowTensor (op : Op) (src : List (Option ℕ)) : GTensor :=
  ⟨op, ⟨0, [8, 1, 1, 1], [4, 32, 32, 32]⟩, 32, 32, src, none, 0, false, false, none⟩

def chainGraph : Graph where
  tensor
    | 0 => { rowTensor .none [] with input := true }
    | 1 => rowTensor (.other 0) [some 0]
    | 2 => { rowTensor .add [some 1, some 0] with output := true }
    | _ => rowTensor .none []
  nodes := [1, 2]
  leafs := [0]

theorem chainGraph_wellFormed : chainGraph.WellFormed where
  nodup := by decide
  apart := by decide
  sources := sources_of_inOrder (by decide)
  viewSources := viewSources_of_inOrder (by decide)
  views := by simp [chainGraph, rowTensor]
  inside := by simp [chainGraph, rowTensor]
  leafs := by simp [chainGraph, rowTensor]
  inputs t h := by
    match t with
    | 0 => rfl
    | 1 => cases h
    | 2 => cases h
    | _ + 3 => cases h

def chainPlan : Galloc where
  alignment := 32
  maxChunkSize := 1024
  nodeAllocs := [⟨⟨some ⟨0, 32⟩, 32⟩, [⟨some ⟨0, 0⟩, 32⟩]⟩, ⟨⟨some ⟨0, 32⟩, 32⟩, [⟨some ⟨0, 32⟩, 32⟩, ⟨some ⟨0, 0⟩, 32⟩]⟩]
  leafAllocs := [⟨some ⟨0, 0⟩, 32⟩]
  buffer := some [64]

/-- A node, a view of it that is an output, a reader of the view, and one node more. -/
def viewGraph : Graph where
  tensor
    | 0 => { rowTensor .none [] with input := true }
    | 1 => rowTensor (.other 0) [some 0]
    | 2 => { rowTensor (.other 1) [some 1] with viewSrc := some 1, output := true }
    | 3 => rowTensor (.other 0) [some 2]
    | 4 => rowTensor (.other 0) [some 3]
    | _ => rowTensor .none []
  nodes := [1, 2, 3, 4]
  leafs := [0]

theorem viewGraph_wellFormed : viewGraph.WellFormed where
  nodup := by decide
  apart := by decide
  sources := sources_of_inOrder (by decide)
  viewSources := viewSources_of_inOrder (by decide)
  views := by simp [viewGraph, rowTensor]
  inside := by simp [viewGraph, rowTensor]
  leafs := by simp [viewGraph, rowTensor]
  inputs t h := by
    match t with
    | 0 => rfl
    | 1 => cases h
    | 2 => cases h
    | 3 => cases h
    | 4 => cases h
    | _ + 5 => cases h

def viewPlan : Galloc where
  alignment := 32
  maxChunkSize := 1024
  nodeAllocs := [⟨⟨some ⟨0, 32⟩, 32⟩, [⟨some ⟨0, 0⟩, 32⟩]⟩, ⟨.invalid, [⟨some ⟨0, 32⟩, 32⟩]⟩,
    ⟨⟨some ⟨0, 0⟩, 32⟩, [.invalid]⟩, ⟨⟨some ⟨0, 32⟩, 32⟩, [⟨some ⟨0, 0⟩, 32⟩]⟩]
  leafAllocs := [⟨some ⟨0, 0⟩, 32⟩]
  buffer := some [64]

end Alloc
