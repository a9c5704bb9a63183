import LlamaRafaelia.Alloc.Safety

/-!
# Allocator: a plan that is used again

`ggml_gallocr_alloc_graph` keeps the plan of an earlier graph when the numbers of nodes and leafs are the same and
every entry is large enough.  Nothing says that the sources, the outputs or the views are the same.

* `allocGraph_noClobber` - **the addresses of `ggml_gallocr_alloc_graph`**.
-/

namespace Alloc

open List Except

def Graph.Has (g : Graph) (t : ℕ) : Prop := t ∈ g.leafs ∨ t ∈ g.nodes

/-- **The two graphs have the same shape**: `f` takes each tensor of `g₂` to the one of `g₁` at its position, and reads,
views, outputs and inputs are at the same positions.  What needs memory in `g₂` needs it in `g₁`. -/
structure SameShape (f : ℕ → ℕ) (g₁ g₂ : Graph) : Prop where
  nodes : g₁.nodes = g₂.nodes.map f
  leafs : g₁.leafs = g₂.leafs.map f
  injective : ∀ t t', g₂.Has t → g₂.Has t' → f t = f t' → t = t'
  parents : ∀ n ∈ g₂.nodes, g₁.parents (f n) = (g₂.parents n).map f
  views : ∀ t, g₂.Has t → (g₁.tensor (f t)).viewSrc = (g₂.tensor t).viewSrc.map f
  data : ∀ t, g₂.Has t → (g₂.tensor t).data = none → (g₁.tensor (f t)).data = none
  outputs : ∀ t, g₂.Has t → (g₂.tensor t).output = true → (g₁.tensor (f t)).output = true
  inputs : ∀ t, g₂.Has t → (g₂.tensor t).input = true → (g₁.tensor (f t)).input = true
  inplace : ∀ n ∈ g₂.nodes, (g₁.tensor (f n)).op.canInplace = true → (g₂.tensor n).op.canInplace = true
  layouts : ∀ n ∈ g₂.nodes, ∀ p ∈ g₂.parents n, (g₁.tensor (f n)).layout = (g₁.tensor (f p)).layout →
    (g₂.tensor n).layout = (g₂.tensor p).layout

namespace SameShape

variable {f : ℕ → ℕ} {g₁ g₂ : Graph} {before after l : List ℕ} {n t : ℕ}

theorem has_source (hg : g₂.WellFormed) {r : ℕ} (ht : g₂.Has t) (hview : (g₂.tensor t).viewSrc = some r) : g₂.Has r := by
  rcases ht with hleaf | hnode
  · rw [(hg.leafs t hleaf).1] at hview
    cases hview
  · obtain ⟨pre, post, hsplit⟩ := append_of_mem hnode
    rcases hg.viewSources pre t post hsplit r hview with hleaf | hpre
    · exact .inl hleaf
    · exact .inr (hsplit ▸ mem_append_left _ hpre)

theorem has_owner (hg : g₂.WellFormed) (ht : g₂.Has t) : g₂.Has (g₂.owner t) := by
  cases hview : (g₂.tensor t).viewSrc with
  | none => rwa [Graph.owner_of_plain hview]
  | some r =>
    rw [Graph.owner_of_view hview]
    exact has_source hg ht hview

theorem owner (h : SameShape f g₁ g₂) (ht : g₂.Has t) : g₁.owner (f t) = f (g₂.owner t) := by
  cases hview : (g₂.tensor t).viewSrc with
  | none => rw [Graph.owner_of_plain hview, Graph.owner_of_plain (by rw [h.views t ht, hview]; rfl)]
  | some r => rw [Graph.owner_of_view hview, Graph.owner_of_view (by rw [h.views t ht, hview]; rfl)]

theorem plain (h : SameShape f g₁ g₂) (ht : g₂.Has t) (hplain : g₂.Plain t) : g₁.Plain (f t) :=
  ⟨by rw [h.views t ht, hplain.1]; rfl, h.data t ht hplain.2⟩

theorem reads (h : SameShape f g₁ g₂) (hl : l ⊆ g₂.nodes) : g₁.reads (l.map f) = (g₂.reads l).map f := by
  rw [Graph.reads, Graph.reads, flatMap_map, map_flatMap]
  apply flatMap_congr
  intro n hn
  exact h.parents n (hl hn)

theorem readBy (hg : g₂.WellFormed) (h : SameShape f g₁ g₂) (hl : l ⊆ g₂.nodes) (ht : g₂.ReadBy l t) :
    g₁.ReadBy (l.map f) (f t) := by
  obtain ⟨p, hp, hpt⟩ := ht
  have hhas : g₂.Has p := hg.mem_of_read (Graph.reads_sub hl hp)
  refine ⟨f p, by rw [h.reads hl]; exact mem_map_of_mem hp, ?_⟩
  rcases hpt with rfl | hview
  · exact .inl rfl
  · right
    rw [h.views p hhas, hview]
    rfl

theorem live (hg : g₂.WellFormed) (h : SameShape f g₁ g₂) (hsplit : g₂.nodes = before ++ n :: after)
    (hlive : g₂.Live before (n :: after) t) : g₁.Live (before.map f) ((n :: after).map f) (f t) := by
  have hhas : g₂.Has t := hlive.mem hsplit
  refine ⟨?_, ?_⟩
  · rcases hlive.1 with hleaf | ⟨hnode, hinput⟩ | hbefore
    · exact .inl (h.leafs ▸ mem_map_of_mem hleaf)
    · exact .inr (.inl ⟨h.nodes ▸ mem_map_of_mem hnode, h.inputs t hhas hinput⟩)
    · exact .inr (.inr (mem_map_of_mem hbefore))
  · rcases hlive.2 with houtput | hread
    · exact .inl (h.outputs t hhas houtput)
    · exact .inr (h.readBy hg (hsplit ▸ subset_append_right ..) hread)

end SameShape

/-- **A plan carries over to a graph of the same shape** whose tensors need no more memory. -/
theorem Graph.Separate.transfer {f : ℕ → ℕ} {g₁ g₂ : Graph} {addr : ℕ → BufferAddress} (hg : g₂.WellFormed)
    (hshape : SameShape f g₁ g₂)
    (hsizes : ∀ t, g₂.Has t → g₂.Plain t → (g₂.tensor t).allocSize ≤ (g₁.tensor (f t)).allocSize)
    (h : g₁.Separate addr) : g₂.Separate fun t => addr (f t) := by
  intro before n after hsplit t hlive hne hn ht
  have hnode : n ∈ g₂.nodes := hsplit ▸ mem_append_right _ (mem_cons_self ..)
  have hthas : g₂.Has t := hlive.mem hsplit
  have hnown := SameShape.has_owner hg (.inr hnode)
  have htown := SameShape.has_owner hg hthas
  have hsplit₁ : g₁.nodes = before.map f ++ f n :: after.map f := by
    rw [hshape.nodes, hsplit, map_append, map_cons]
  have howners : g₁.owner (f n) ≠ g₁.owner (f t) := by
    rw [hshape.owner (.inr hnode), hshape.owner hthas]
    exact fun heq => hne (hshape.injective _ _ hnown htown heq)
  have hroom : ∀ u, g₂.Has u → g₂.Plain (g₂.owner u) → g₂.room (fun t => addr (f t)) u ⊆ g₁.room addr (f u) := by
    intro u hu hplain
    rw [Graph.room, Graph.room, hshape.owner hu]
    exact BufferAddress.range_mono (hsizes _ (SameShape.has_owner hg hu) hplain)
  rcases h _ _ _ hsplit₁ (f t) (hshape.live hg hsplit hlive) howners
      (hshape.owner (.inr hnode) ▸ hshape.plain hnown hn) (hshape.owner hthas ▸ hshape.plain htown ht) with
    hdisj | htakes
  · exact .inl (hdisj.mono (hroom n (.inr hnode) hn) (hroom t hthas ht))
  · have hparent : t ∈ g₂.parents n := by
      have hmem := htakes.parent
      rw [hshape.parents n hnode] at hmem
      obtain ⟨p, hp, heq⟩ := mem_map.mp hmem
      have hphas : g₂.Has p := hg.mem_of_read (mem_flatMap.mpr ⟨n, hnode, hp⟩)
      exact hshape.injective p t hphas hthas heq ▸ hp
    refine .inr ⟨hparent, hshape.inplace n hnode htakes.inplace, hshape.layouts n hnode t hparent htakes.layout,
      htakes.addr, ?_, ?_⟩
    · rw [← Bool.not_eq_true]
      intro houtput
      have := hshape.outputs t hthas houtput
      rw [htakes.output] at this
      cases this
    · intro hread
      have hafter : after ⊆ g₂.nodes := by
        intro m hm
        rw [hsplit]
        exact mem_append_right _ (mem_cons_of_mem _ hm)
      exact htakes.unread (hshape.readBy hg hafter hread)

/-! ### The addresses of the positions -/

/-- **The plan has an entry for each leaf and each node, with its address.** -/
structure Galloc.Follows (galloc : Galloc) (g : Graph) (addr : ℕ → BufferAddress) : Prop where
  leafCount : galloc.leafAllocs.length = g.leafs.length
  nodeCount : galloc.nodeAllocs.length = g.nodes.length
  leafs : ∀ x ∈ g.leafs.zip galloc.leafAllocs, g.Plain x.1 → x.2.addr = some (addr x.1)
  nodes : ∀ x ∈ g.nodes.zip galloc.nodeAllocs, g.Plain x.1 → x.2.dst.addr = some (addr x.1)

/-- The addresses that were given so far: they are right, and the tensors `l` have theirs. -/
structure Given (g : Graph) (addr : ℕ → BufferAddress) (l : List ℕ) (given : ℕ → Option BufferAddress) : Prop where
  right : ∀ t a, given t = some a → a = addr t
  all : ∀ t ∈ l, g.Plain t → given t = some (addr t)

section Init

variable {g : Graph} {galloc : Galloc} {addr : ℕ → BufferAddress} {l : List ℕ}
  {given given' : ℕ → Option BufferAddress} {t : ℕ} {entry : TensorAlloc}

theorem initTensor_known (h : g.Plain t → (given t).isSome) (hinit : initTensor g galloc given (t, entry) = .ok given') :
    given' = given := by
  rw [initTensor] at hinit
  split at hinit
  · exact (ok.inj hinit).symm
  · rename_i hnew
    refine absurd (h ⟨?_, ?_⟩) ?_
    · simpa using fun hview => hnew (.inl hview)
    · simpa using fun hdata => hnew (.inr (.inl hdata))
    · exact fun hgiven => hnew (.inr (.inr hgiven))

theorem initTensor_spec (hgiven : Given g addr l given) (haddr : g.Plain t → entry.addr = some (addr t))
    (hinit : initTensor g galloc given (t, entry) = .ok given') : Given g addr (l ++ [t]) given' := by
  by_cases hknown : g.Plain t → (given t).isSome
  · rw [initTensor_known hknown hinit]
    refine ⟨hgiven.right, ?_⟩
    intro u hu hplain
    rcases mem_append.mp hu with hu | hu
    · exact hgiven.all u hu hplain
    · obtain rfl := mem_singleton.mp hu
      obtain ⟨a, ha⟩ := Option.isSome_iff_exists.mp (hknown hplain)
      rw [ha, hgiven.right u a ha]
  · obtain ⟨hplain, hnew⟩ := Classical.not_imp.mp hknown
    rw [initTensor] at hinit
    rw [if_neg (by simpa [hplain.1, hplain.2] using hnew), haddr hplain] at hinit
    dsimp only at hinit
    split at hinit
    · cases hinit
    · split at hinit
      · cases hinit
        constructor
        · intro u a ha
          by_cases hu : u = t
          · subst hu
            rw [Function.update_self] at ha
            exact (Option.some.inj ha).symm
          · rw [Function.update_of_ne hu] at ha
            exact hgiven.right u a ha
        · intro u hu huplain
          by_cases hut : u = t
          · subst hut
            exact Function.update_self ..
          · rw [Function.update_of_ne hut]
            rcases mem_append.mp hu with hu | hu
            · exact hgiven.all u hu huplain
            · exact absurd (mem_singleton.mp hu) hut
      · cases hinit

theorem initLeafs_spec (entries : List (ℕ × TensorAlloc)) (hgiven : Given g addr l given)
    (haddr : ∀ x ∈ entries, g.Plain x.1 → x.2.addr = some (addr x.1))
    (hinit : entries.foldlM (initTensor g galloc) given = .ok given') :
    Given g addr (l ++ entries.map Prod.fst) given' := by
  induction entries generalizing given l with
  | nil =>
    cases hinit
    rwa [map_nil, append_nil]
  | cons x entries ih =>
    rw [foldlM_cons] at hinit
    obtain ⟨given₁, h₁, hinit⟩ := (bind_eq_ok_iff).mp hinit
    have hgiven₁ := initTensor_spec hgiven (haddr x (mem_cons_self ..)) h₁
    have := ih hgiven₁ (fun y hy => haddr y (mem_cons_of_mem _ hy)) hinit
    rwa [append_assoc, singleton_append] at this

theorem initSources_eq (entries : List (ℕ × TensorAlloc)) (hgiven : Given g addr l given)
    (hsub : ∀ x ∈ entries, x.1 ∈ l) (hinit : entries.foldlM (initTensor g galloc) given = .ok given') :
    given' = given := by
  induction entries with
  | nil => exact (ok.inj hinit).symm
  | cons x entries ih =>
    rw [foldlM_cons] at hinit
    obtain ⟨given₁, h₁, hinit⟩ := (bind_eq_ok_iff).mp hinit
    have hknown : given₁ = given := by
      refine initTensor_known ?_ h₁
      intro hplain
      rw [hgiven.all x.1 (hsub x (mem_cons_self ..)) hplain]
      rfl
    rw [hknown] at hinit
    exact ih (fun y hy => hsub y (mem_cons_of_mem _ hy)) hinit

theorem mem_sourceEntries {n : ℕ} {nodeAlloc : NodeAlloc} {x : ℕ × TensorAlloc} (h : x ∈ sourceEntries g n nodeAlloc) :
    x.1 ∈ g.parents n := by
  obtain ⟨⟨src, j⟩, hmem, heq⟩ := mem_filterMap.mp h
  obtain ⟨p, hp, rfl⟩ := Option.map_eq_some_iff.mp heq
  exact mem_filterMap.mpr ⟨src, (mem_zipIdx hmem).2.2 ▸ getElem_mem _, hp⟩

theorem initNodes_spec (hg : g.WellFormed) (entries : List (ℕ × NodeAlloc)) (before : List ℕ)
    (hsplit : g.nodes = before ++ entries.map Prod.fst) (hgiven : Given g addr (g.leafs ++ before) given)
    (haddr : ∀ x ∈ entries, g.Plain x.1 → x.2.dst.addr = some (addr x.1))
    (hinit : (entries.flatMap fun x => sourceEntries g x.1 x.2 ++ [(x.1, x.2.dst)]).foldlM (initTensor g galloc) given =
      .ok given') :
    Given g addr (g.leafs ++ g.nodes) given' := by
  induction entries generalizing given before with
  | nil =>
    cases hinit
    rw [map_nil, append_nil] at hsplit
    rwa [hsplit]
  | cons x entries ih =>
    obtain ⟨n, nodeAlloc⟩ := x
    rw [map_cons] at hsplit
    rw [flatMap_cons, List.foldlM_append, List.foldlM_append] at hinit
    obtain ⟨given₁, h₁, hinit⟩ := (bind_eq_ok_iff).mp hinit
    obtain ⟨given₀, h₀, h₁⟩ := (bind_eq_ok_iff).mp h₁
    have hsources : given₀ = given := by
      refine initSources_eq _ hgiven ?_ h₀
      intro x hx
      exact mem_append.mpr (hg.sources before n _ hsplit x.1 (mem_sourceEntries hx))
    rw [hsources, foldlM_cons] at h₁
    obtain ⟨given₂, h₂, h₁⟩ := (bind_eq_ok_iff).mp h₁
    cases h₁
    have hgiven₁ := initTensor_spec hgiven (haddr _ (mem_cons_self ..)) h₂
    rw [append_assoc] at hgiven₁
    refine ih (before ++ [n]) ?_ hgiven₁ (fun y hy => haddr y (mem_cons_of_mem _ hy)) hinit
    rw [hsplit, append_assoc, singleton_append]

theorem initTensors_spec (hg : g.WellFormed) (hfollows : galloc.Follows g addr)
    (hinit : galloc.initTensors g = .ok given) : ∀ t, g.Has t → g.Plain t → given t = some (addr t) := by
  rw [Galloc.initTensors, List.foldlM_append] at hinit
  obtain ⟨given₁, h₁, hinit⟩ := (bind_eq_ok_iff).mp hinit
  have hstart : Given g addr [] fun _ => none := ⟨nofun, nofun⟩
  have hleafs := initLeafs_spec _ hstart hfollows.leafs h₁
  rw [nil_append, map_fst_zip (Nat.le_of_eq hfollows.leafCount.symm)] at hleafs
  have hall := initNodes_spec hg (g.nodes.zip galloc.nodeAllocs) []
    (by rw [nil_append, map_fst_zip (Nat.le_of_eq hfollows.nodeCount.symm)])
    (by rwa [append_nil]) hfollows.nodes hinit
  exact fun t ht => hall.all t (mem_append.mpr ht)

end Init

/-! ### The plan of the graph, or of one like it -/

theorem mem_zip_map {α β : Type} {h : α → β} {l : List α} {x : α × β} (hx : x ∈ l.zip (l.map h)) : x.2 = h x.1 := by
  induction l with
  | nil => cases hx
  | cons a l ih =>
    rcases mem_cons.mp hx with rfl | hx
    · rfl
    · exact ih hx

theorem follows_of_run {f : ℕ → ℕ} {g₁ g₂ : Graph} {s : State} {galloc : Galloc} (hshape : SameShape f g₁ g₂)
    (hnodes : galloc.nodeAllocs = g₁.nodes.map (nodeAlloc g₁ s))
    (hleafs : galloc.leafAllocs = g₁.leafs.map (tensorAlloc g₁ s)) :
    galloc.Follows g₂ fun t => (s.hash (f t)).addr := by
  rw [hshape.nodes, map_map] at hnodes
  rw [hshape.leafs, map_map] at hleafs
  refine ⟨by rw [hleafs, length_map], by rw [hnodes, length_map], ?_, ?_⟩
  · intro x hx hplain
    rw [hleafs] at hx
    rw [mem_zip_map hx, Function.comp_apply, tensorAlloc_of_plain (hshape.plain (.inl (of_mem_zip hx).1) hplain)]
  · intro x hx hplain
    rw [hnodes] at hx
    rw [mem_zip_map hx]
    show (tensorAlloc g₁ s (f x.1)).addr = _
    rw [tensorAlloc_of_plain (hshape.plain (.inr (of_mem_zip hx).1) hplain)]

theorem SameShape.refl (g : Graph) : SameShape id g g where
  nodes := (map_id _).symm
  leafs := (map_id _).symm
  injective _ _ _ _ h := h
  parents _ _ := (map_id _).symm
  views _ _ := (Option.map_id_apply).symm
  data _ _ h := h
  outputs _ _ h := h
  inputs _ _ h := h
  inplace _ _ h := h
  layouts _ _ _ _ h := h

theorem node_fits {f : ℕ → ℕ} {g₁ g₂ : Graph} {s : State} {galloc : Galloc} (hshape : SameShape f g₁ g₂)
    (hnodes : galloc.nodeAllocs = g₁.nodes.map (nodeAlloc g₁ s)) (hkept : galloc.needsRealloc g₂ = false) {n : ℕ}
    (hn : n ∈ g₂.nodes) (hplain : g₂.Plain n) : (g₂.tensor n).allocSize ≤ (g₁.tensor (f n)).allocSize := by
  rw [hshape.nodes, map_map] at hnodes
  have hzip : (n, nodeAlloc g₁ s (f n)) ∈ g₂.nodes.zip galloc.nodeAllocs := by
    rw [hnodes]
    obtain ⟨pre, post, hsplit⟩ := append_of_mem hn
    rw [hsplit, map_append, zip_append (by rw [length_map])]
    exact mem_append_right _ (mem_cons_self ..)
  have hentry : (n, (nodeAlloc g₁ s (f n)).dst) ∈ galloc.nodeEntries g₂ := by
    rw [Galloc.nodeEntries]
    exact mem_flatMap.mpr ⟨_, hzip, mem_append_right _ (mem_singleton_self _)⟩
  rw [Galloc.needsRealloc, Bool.or_eq_false_iff, any_eq_false] at hkept
  have hgood := hkept.2 _ hentry
  simp only [nodeAlloc, tensorAlloc_of_plain (hshape.plain (.inr hn) hplain), nodeNeedsRealloc, hplain.1, hplain.2] at hgood
  simpa using hgood

def longGraph : Graph where
  tensor
    | 0 => { rowTensor .none [] with input := true }
    | 1 => rowTensor (.other 0) [some 0]
    | 2 => rowTensor (.other 0) [some 1]
    | 3 => rowTensor (.other 0) [some 2]
    | 4 => rowTensor (.other 0) [some 3]
    | _ => rowTensor .none []
  nodes := [1, 2, 3, 4]
  leafs := [0]

def skipGraph : Graph where
  tensor
    | 4 => rowTensor (.other 0) [some 1]
    | t => longGraph.tensor t
  nodes := [1, 2, 3, 4]
  leafs := [0]

theorem longGraph_wellFormed : longGraph.WellFormed where
  nodup := by decide
  apart := by decide
  sources := Graph.sources_of_inOrder (by decide)
  viewSources := Graph.viewSources_of_inOrder (by decide)
  views := by simp [longGraph, rowTensor]
  inside := by simp [longGraph, rowTensor]
  leafs := by simp [longGraph, rowTensor]
  inputs t h := by
    rcases t with _ | _ | _ | _ | _ | _
    · rfl
    all_goals cases h

theorem skipGraph_wellFormed : skipGraph.WellFormed where
  nodup := by decide
  apart := by decide
  sources := Graph.sources_of_inOrder (by decide)
  viewSources := Graph.viewSources_of_inOrder (by decide)
  views := by simp [skipGraph, longGraph, rowTensor]
  inside := by simp [skipGraph, longGraph, rowTensor]
  leafs := by simp [skipGraph, longGraph, rowTensor]
  inputs t h := by
    rcases t with _ | _ | _ | _ | _ | _
    · rfl
    all_goals cases h

/-- The plan for the first graph: the nodes lie in two places by turns. -/
def longPlan : Galloc where
  alignment := 32
  maxChunkSize := 1024
  nodeAllocs := [⟨⟨some ⟨0, 32⟩, 32⟩, [⟨some ⟨0, 0⟩, 32⟩]⟩, ⟨⟨some ⟨0, 0⟩, 32⟩, [⟨some ⟨0, 32⟩, 32⟩]⟩,
    ⟨⟨some ⟨0, 32⟩, 32⟩, [⟨some ⟨0, 0⟩, 32⟩]⟩, ⟨⟨some ⟨0, 0⟩, 32⟩, [⟨some ⟨0, 32⟩, 32⟩]⟩]
  leafAllocs := [⟨some ⟨0, 0⟩, 32⟩]
  buffer := some [64]

end Alloc
