import LlamaRafaelia.Alloc.Steps
import Mathlib.Data.List.Count
import Mathlib.Data.List.Nodup
import Mathlib.Data.List.Flatten

/-!
# Allocator: counters and liveness

`n_children` counts the reads of a tensor that are still to come, `n_views` the views of it that are not used up.  A
view that nobody reads is never used up.

* `Kept` - **a tensor that was written and is still needed is allocated**, except for a parent whose memory the node at
  hand has taken.
-/

namespace Alloc

open List Alloc.Graph

namespace Graph

variable (g : Graph)

def reads (l : List ℕ) : List ℕ := l.flatMap g.parents

/-- The tensor has memory of its own that the allocator has to provide. -/
def Plain (t : ℕ) : Prop := (g.tensor t).viewSrc = none ∧ (g.tensor t).data = none

/-- The tensors that hold data once the first nodes have run: the leafs, the inputs and what these nodes wrote. -/
def Written (before : List ℕ) (t : ℕ) : Prop :=
  t ∈ g.leafs ∨ (t ∈ g.nodes ∧ (g.tensor t).input = true) ∨ t ∈ before

/-- **A computation graph in topological order**: each source, and the source of each view, is a leaf or an earlier node.
A view is a node with an operation, of a tensor that is no view, and lies inside of it.  Leafs and inputs have no
operation. -/
structure WellFormed : Prop where
  nodup : g.nodes.Nodup
  apart : ∀ t ∈ g.leafs, t ∉ g.nodes
  sources : ∀ pre n post, g.nodes = pre ++ n :: post → ∀ p ∈ g.parents n, p ∈ g.leafs ∨ p ∈ pre
  viewSources : ∀ pre n post, g.nodes = pre ++ n :: post → ∀ r, (g.tensor n).viewSrc = some r → r ∈ g.leafs ∨ r ∈ pre
  views : ∀ n ∈ g.nodes, ∀ r, (g.tensor n).viewSrc = some r → (g.tensor n).op ≠ .none ∧ (g.tensor r).viewSrc = none
  inside : ∀ n ∈ g.nodes, ∀ r, (g.tensor n).viewSrc = some r → (g.tensor n).viewOffs + (g.tensor n).nbytes ≤ (g.tensor r).allocSize
  leafs : ∀ t ∈ g.leafs, (g.tensor t).viewSrc = none ∧ (g.tensor t).op = .none
  inputs : ∀ t, (g.tensor t).input = true → (g.tensor t).op = .none

/-- The order of the nodes, checked one by one: `seen` came before. -/
def inOrder : List ℕ → List ℕ → Bool
  | _, [] => true
  | seen, n :: rest =>
    (g.parents n ++ (g.tensor n).viewSrc.toList).all (fun p => p ∈ g.leafs ∨ p ∈ seen) && inOrder (seen ++ [n]) rest

def pending (reads : List ℕ) (v : ℕ) : Bool := v ∈ reads ∨ v ∉ g.reads g.nodes

/-- A view of `t` that is not used up. -/
def pendingView (reads : List ℕ) (t v : ℕ) : Bool := (g.tensor v).viewSrc = some t ∧ g.pending reads v

variable {g}

theorem inOrder_spec (l seen : List ℕ) (h : g.inOrder seen l = true) (pre : List ℕ) (n : ℕ) (post : List ℕ)
    (hl : l = pre ++ n :: post) :
    ∀ p ∈ g.parents n ++ (g.tensor n).viewSrc.toList, p ∈ g.leafs ∨ p ∈ seen ++ pre := by
  induction l generalizing seen pre with
  | nil => simp at hl
  | cons m l ih =>
    rw [inOrder, Bool.and_eq_true, all_eq_true] at h
    cases pre with
    | nil =>
      cases hl
      intro p hp
      rw [append_nil]
      exact of_decide_eq_true (h.1 p hp)
    | cons m' pre =>
      rw [cons_append, List.cons.injEq] at hl
      obtain ⟨rfl, hl⟩ := hl
      have := ih (seen ++ [m]) h.2 pre hl
      rwa [append_assoc, singleton_append] at this

theorem sources_of_inOrder (h : g.inOrder [] g.nodes = true) :
    ∀ pre n post, g.nodes = pre ++ n :: post → ∀ p ∈ g.parents n, p ∈ g.leafs ∨ p ∈ pre :=
  fun pre n post hsplit p hp => inOrder_spec g.nodes [] h pre n post hsplit p (mem_append_left _ hp)

theorem viewSources_of_inOrder (h : g.inOrder [] g.nodes = true) :
    ∀ pre n post, g.nodes = pre ++ n :: post → ∀ r, (g.tensor n).viewSrc = some r → r ∈ g.leafs ∨ r ∈ pre :=
  fun pre n post hsplit r hr =>
    inOrder_spec g.nodes [] h pre n post hsplit r (mem_append_right _ (by rw [hr]; exact mem_singleton_self r))

theorem reads_cons (n : ℕ) (l : List ℕ) : g.reads (n :: l) = g.parents n ++ g.reads l := flatMap_cons

theorem reads_append (l m : List ℕ) : g.reads (l ++ m) = g.reads l ++ g.reads m := flatMap_append

namespace WellFormed

variable {pre post : List ℕ} {n p r t : ℕ}

theorem mem_of_read (hg : g.WellFormed) (h : t ∈ g.reads g.nodes) : t ∈ g.leafs ∨ t ∈ g.nodes := by
  obtain ⟨n, hn, ht⟩ := mem_flatMap.mp h
  obtain ⟨pre, post, hsplit⟩ := append_of_mem hn
  rcases hg.sources pre n post hsplit t ht with hleaf | hpre
  · exact .inl hleaf
  · exact .inr (hsplit ▸ mem_append_left _ hpre)

theorem view_mem (hg : g.WellFormed) (h : t ∈ g.reads g.nodes) (hview : (g.tensor t).viewSrc = some r) : t ∈ g.nodes := by
  rcases hg.mem_of_read h with hleaf | hnode
  · rw [(hg.leafs t hleaf).1] at hview
    cases hview
  · exact hnode

theorem not_later (hg : g.WellFormed) (hsplit : g.nodes = pre ++ n :: post) (h : t ∈ g.leafs ∨ t ∈ pre) :
    t ∉ n :: post := by
  intro ht
  rcases h with hleaf | hpre
  · exact hg.apart t hleaf (hsplit ▸ mem_append_right _ ht)
  · have hnodup := hg.nodup
    rw [hsplit, nodup_append] at hnodup
    exact hnodup.2.2 t hpre t ht rfl

theorem self_notMem (hg : g.WellFormed) (hsplit : g.nodes = pre ++ n :: post) : n ∉ g.parents n := by
  intro h
  exact hg.not_later hsplit (hg.sources pre n post hsplit n h) (mem_cons_self ..)

theorem behind (hg : g.WellFormed) (hsplit : g.nodes = pre ++ n :: post) (hp : p ∈ g.parents n)
    (hr : p = r ∨ (g.tensor p).viewSrc = some r) : r ∈ g.leafs ∨ r ∈ pre := by
  have hpar := hg.sources pre n post hsplit p hp
  rcases hr with rfl | hview
  · exact hpar
  · rcases hpar with hleaf | hpre
    · rw [(hg.leafs p hleaf).1] at hview
      cases hview
    · obtain ⟨pre', post', rfl⟩ := append_of_mem hpre
      have hsplit' : g.nodes = pre' ++ p :: (post' ++ n :: post) := by
        rw [hsplit, append_assoc, cons_append]
      rcases hg.viewSources pre' p _ hsplit' r hview with hleaf | hpre'
      · exact .inl hleaf
      · exact .inr (mem_append_left _ hpre')

theorem no_view_of_view (hg : g.WellFormed) {reads : List ℕ} (hview : (g.tensor t).viewSrc = some r) :
    g.nodes.countP (g.pendingView reads t) = 0 := by
  rw [countP_eq_zero]
  intro v hv hpending
  simp only [pendingView, decide_eq_true_eq] at hpending
  have := (hg.views v hv t hpending.1).2
  rw [hview] at this
  cases this

end WellFormed

end Graph

/-! ### Counters -/

theorem countP_eq_succ_of_drop {α : Type} {l : List α} {p q : α → Bool} {v : α} (hl : l.Nodup) (hv : v ∈ l)
    (hp : p v = true) (hq : q v = false) (h : ∀ w, w ≠ v → p w = q w) : l.countP p = l.countP q + 1 := by
  obtain ⟨pre, post, rfl⟩ := append_of_mem hv
  rw [nodup_append, nodup_cons] at hl
  have hpre : pre.countP p = pre.countP q := by
    apply countP_congr
    intro w hw
    rw [h w (fun heq => hl.2.2 w hw v (mem_cons_self ..) heq)]
  have hpost : post.countP p = post.countP q := by
    apply countP_congr
    intro w hw
    rw [h w (fun heq => hl.2.1.1 (heq ▸ hw))]
  rw [countP_append, countP_append, countP_cons_of_pos hp, countP_cons_of_neg (by simp [hq]), hpre,
    hpost, Nat.add_assoc]

/-- **The counters say what is to come.** -/
structure Counts (g : Graph) (reads : List ℕ) (s : State) : Prop where
  children : ∀ t, (s.hash t).nChildren = reads.count t
  views : ∀ t, (s.hash t).nViews = g.nodes.countP (g.pendingView reads t)

theorem Counts.congr {g : Graph} {reads : List ℕ} {s s' : State} (h : Counts g reads s) (hs : SameCounts s s') :
    Counts g reads s' :=
  ⟨fun t => (hs t).1.trans (h.children t), fun t => (hs t).2.trans (h.views t)⟩

theorem SameCounts.trans {s s' s'' : State} (h : SameCounts s s') (h' : SameCounts s' s'') : SameCounts s s'' :=
  fun t => ⟨(h' t).1.trans (h t).1, (h' t).2.trans (h t).2⟩

def Needed (g : Graph) (s : State) (t : ℕ) : Prop :=
  (g.tensor t).output = true ∨ (s.hash t).nChildren ≠ 0 ∨ (s.hash t).nViews ≠ 0

/-- **What was written and is needed is allocated**, with the exception of a parent that was taken over. -/
def Kept (g : Graph) (before : List ℕ) (taken : Option ℕ) (s : State) : Prop :=
  ∀ t, g.Written before t → g.Plain t → taken ≠ some t → Needed g s t → (s.hash t).allocated = true

/-! ### The end of a read -/

section Update

variable {g : Graph} {s s' : State} {p t : ℕ} {rest : List ℕ}

/-- The end of a read: no address changes, and what is freed is not needed any more. -/
structure Updated (g : Graph) (l : List ℕ) (s s' : State) : Prop where
  aligned : s'.talloc.alignment = s.talloc.alignment
  addrs : ∀ t, (s'.hash t).addr = (s.hash t).addr
  keeps : ∀ t, (s'.hash t).allocated = true → (s.hash t).allocated = true
  drops : ∀ t, (s.hash t).allocated = true → (s'.hash t).allocated = true ∨
    (¬ Needed g s' t ∧ ∃ p ∈ l, p = t ∨ (g.tensor p).viewSrc = some t)

theorem pendingView_cons {v : ℕ} (h : v ≠ p ∨ p ∈ rest ∨ (g.tensor p).viewSrc ≠ some t) :
    g.pendingView (p :: rest) t v = g.pendingView rest t v := by
  by_cases hv : v = p
  · subst hv
    rcases h with h | h | h
    · exact absurd rfl h
    · simp [pendingView, pending, h]
    · simp [pendingView, h]
  · simp [pendingView, pending, hv]

theorem Counts.read (h : Counts g (p :: rest) s) (hviews : p ∈ rest ∨ (g.tensor p).viewSrc = none) :
    Counts g rest (s.modify p fun hn => { hn with nChildren := hn.nChildren - 1 }) := by
  constructor
  · intro t
    have hchildren := h.children t
    by_cases ht : t = p
    · subst ht
      rw [count_cons_self] at hchildren
      rw [modify_same]
      simp only
      omega
    · rw [modify_other _ ht, hchildren, count_cons_of_ne (Ne.symm ht)]
  · intro t
    have hsame : g.pendingView (p :: rest) t = g.pendingView rest t := by
      funext v
      apply pendingView_cons
      rcases hviews with hmem | hnone
      · exact .inr (.inl hmem)
      · exact .inr (.inr (by simp [hnone]))
    have hviews' := h.views t
    rw [hsame] at hviews'
    by_cases ht : t = p
    · subst ht
      simpa using hviews'
    · rwa [modify_other _ ht]

theorem Counts.lastRead {r : ℕ} (hg : g.WellFormed) (h : Counts g (p :: rest) s) (hp : p ∈ g.reads g.nodes)
    (hlast : p ∉ rest) (hview : (g.tensor p).viewSrc = some r) :
    Counts g rest ((s.modify p fun hn => { hn with nChildren := hn.nChildren - 1 }).modify r
      fun hn => { hn with nViews := hn.nViews - 1 }) := by
  have hnode := hg.view_mem hp hview
  have hrp : r ≠ p := by
    rintro rfl
    rw [(hg.views r hnode r hview).2] at hview
    cases hview
  constructor
  · intro t
    have hchildren := h.children t
    have hkeep : (((s.modify p fun hn => { hn with nChildren := hn.nChildren - 1 }).modify r
        fun hn => { hn with nViews := hn.nViews - 1 }).hash t).nChildren =
          ((s.modify p fun hn => { hn with nChildren := hn.nChildren - 1 }).hash t).nChildren := by
      by_cases ht : t = r
      · subst ht
        simp
      · rw [modify_other _ ht]
    rw [hkeep]
    by_cases ht : t = p
    · subst ht
      rw [count_cons_self] at hchildren
      rw [modify_same]
      simp only
      omega
    · rw [modify_other _ ht, hchildren, count_cons_of_ne (Ne.symm ht)]
  · intro t
    have hviews := h.views t
    by_cases ht : t = r
    · subst ht
      have hdrop := countP_eq_succ_of_drop (p := g.pendingView (p :: rest) t) (q := g.pendingView rest t) hg.nodup hnode
        (by simp [pendingView, pending, hview]) (by simp [pendingView, pending, hlast, hp])
        (fun w hw => pendingView_cons (.inl hw))
      rw [hdrop] at hviews
      rw [modify_same, modify_other _ hrp]
      simp only
      omega
    · have hsame : g.pendingView (p :: rest) t = g.pendingView rest t := by
        funext v
        apply pendingView_cons
        exact .inr (.inr (by rw [hview]; simpa using Ne.symm ht))
      rw [hsame] at hviews
      rw [modify_other _ ht]
      by_cases htp : t = p
      · subst htp
        simpa using hviews
      · rwa [modify_other _ htp]

theorem Holdings.modify {f : HashNode → HashNode} (h : Holdings g s)
    (hf : ∀ hn, (f hn).allocated = hn.allocated ∧ (f hn).addr = hn.addr) : Holdings g (s.modify t f) := by
  refine h.congr rfl ?_
  intro u
  by_cases hu : u = t
  · subst hu
    rw [modify_same]
    exact hf _
  · rw [modify_other _ hu]
    exact ⟨rfl, rfl⟩

theorem Updated.modify {s₁ : State} {f : HashNode → HashNode} {l : List ℕ} (h : Updated g l s₁ s')
    (hs₁ : s₁ = s.modify t f) (hf : ∀ hn, (f hn).allocated = hn.allocated ∧ (f hn).addr = hn.addr) :
    Updated g l s s' := by
  subst hs₁
  have hsame : ∀ u, ((s.modify t f).hash u).allocated = (s.hash u).allocated ∧
      ((s.modify t f).hash u).addr = (s.hash u).addr := by
    intro u
    by_cases hu : u = t
    · subst hu
      rw [modify_same]
      exact hf _
    · rw [modify_other _ hu]
      exact ⟨rfl, rfl⟩
  refine ⟨h.aligned, fun u => (h.addrs u).trans (hsame u).2, fun u hu => (hsame u).1 ▸ h.keeps u hu, fun u hu => h.drops u ?_⟩
  rw [(hsame u).1]
  exact hu

theorem Updated.refl (g : Graph) (l : List ℕ) (s : State) : Updated g l s s :=
  ⟨rfl, fun _ => rfl, fun _ h => h, fun _ h => .inl h⟩

theorem freeNode_spec {r : ℕ} (hH : Holdings g s) (hC : Counts g rest s) (hown : (s.hash r).allocated = true)
    (hchildren : (s.hash r).nChildren = 0) (hviews : (s.hash r).nViews = 0)
    (hr : p = r ∨ (g.tensor p).viewSrc = some r) (h : freeNode g r s = .ok s') :
    Holdings g s' ∧ Counts g rest s' ∧ Updated g [p] s s' := by
  rcases freeNode_cases h with ⟨-, rfl⟩ | hfreed
  · exact ⟨hH, hC, Updated.refl ..⟩
  · refine ⟨hH.freed hown hfreed, hC.congr hfreed.counts, freeTensor_alignment hfreed.memory, hfreed.addrs, ?_, ?_⟩
    · intro t ht
      by_cases htr : t = r
      · exact htr ▸ hown
      · exact hfreed.others t htr ▸ ht
    · intro t ht
      by_cases htr : t = r
      · subst htr
        refine .inr ⟨?_, p, mem_singleton_self p, hr⟩
        rintro (houtput | hneed | hneed)
        · rw [hfreed.output] at houtput
          cases houtput
        · exact hneed ((hfreed.counts t).1.trans hchildren)
        · exact hneed ((hfreed.counts t).2.trans hviews)
      · exact .inl ((hfreed.others t htr).trans ht)

theorem updateParent_spec (hg : g.WellFormed) (hp : p ∈ g.reads g.nodes) (hH : Holdings g s)
    (hC : Counts g (p :: rest) s) (h : updateParent g p s = .ok s') :
    Holdings g s' ∧ Counts g rest s' ∧ Updated g [p] s s' := by
  have hcounter : ∀ hn : HashNode, ({ hn with nChildren := hn.nChildren - 1 } : HashNode).allocated = hn.allocated ∧
      ({ hn with nChildren := hn.nChildren - 1 } : HashNode).addr = hn.addr := fun _ => ⟨rfl, rfl⟩
  have hcounter' : ∀ hn : HashNode, ({ hn with nViews := hn.nViews - 1 } : HashNode).allocated = hn.allocated ∧
      ({ hn with nViews := hn.nViews - 1 } : HashNode).addr = hn.addr := fun _ => ⟨rfl, rfl⟩
  set s₁ := s.modify p fun hn => { hn with nChildren := hn.nChildren - 1 } with hs₁
  have hH₁ : Holdings g s₁ := hH.modify hcounter
  have hzero : (s₁.hash p).nChildren = 0 ↔ p ∉ rest := by
    have := hC.children p
    rw [count_cons_self] at this
    rw [hs₁, modify_same, ← count_eq_zero]
    simp only
    omega
  rw [updateParent] at h
  simp only [← hs₁] at h
  cases hview : (g.tensor p).viewSrc with
  | none =>
    have hC₁ : Counts g rest s₁ := hC.read (.inr hview)
    rw [hview] at h
    split at h
    · rename_i hdone
      dsimp only at h
      split at h
      · rename_i hown
        obtain ⟨hH', hC', hU⟩ := freeNode_spec hH₁ hC₁ hown hdone.1 hdone.2 (.inl rfl) h
        exact ⟨hH', hC', hU.modify hs₁ hcounter⟩
      · rw [← Except.ok.inj h]
        exact ⟨hH₁, hC₁, (Updated.refl g [p] s₁).modify hs₁ hcounter⟩
    · rw [← Except.ok.inj h]
      exact ⟨hH₁, hC₁, (Updated.refl g [p] s₁).modify hs₁ hcounter⟩
  | some r =>
    rw [hview] at h
    have hnoViews : (s₁.hash p).nViews = 0 := by
      have := hC.views p
      rw [hg.no_view_of_view hview] at this
      rw [hs₁, modify_same]
      exact this
    by_cases hlast : p ∈ rest
    · rw [if_neg (fun hdone => hzero.mp hdone.1 hlast)] at h
      rw [← Except.ok.inj h]
      exact ⟨hH₁, hC.read (.inl hlast), (Updated.refl g [p] s₁).modify hs₁ hcounter⟩
    · rw [if_pos ⟨hzero.mpr hlast, hnoViews⟩] at h
      dsimp only at h
      set s₂ := s₁.modify r fun hn => { hn with nViews := hn.nViews - 1 } with hs₂
      have hH₂ : Holdings g s₂ := hH₁.modify hcounter'
      have hC₂ : Counts g rest s₂ := hC.lastRead hg hp hlast hview
      split at h
      · rename_i hdone
        obtain ⟨hH', hC', hU⟩ := freeNode_spec hH₂ hC₂ hdone.2.2 hdone.2.1 hdone.1 (.inr hview) h
        exact ⟨hH', hC', (hU.modify hs₂ hcounter').modify hs₁ hcounter⟩
      · rw [← Except.ok.inj h]
        exact ⟨hH₂, hC₂, ((Updated.refl g [p] s₂).modify hs₂ hcounter').modify hs₁ hcounter⟩

theorem countP_pendingView_le (g : Graph) (l rest : List ℕ) (t : ℕ) :
    g.nodes.countP (g.pendingView rest t) ≤ g.nodes.countP (g.pendingView (l ++ rest) t) := by
  apply countP_mono_left
  intro v _ hv
  simp only [pendingView, pending, decide_eq_true_eq, mem_append] at hv ⊢
  tauto

theorem Needed.of_suffix {l : List ℕ} (hC : Counts g (l ++ rest) s) (hC' : Counts g rest s') (h : Needed g s' t) :
    Needed g s t := by
  rcases h with houtput | hchildren | hviews
  · exact .inl houtput
  · refine .inr (.inl ?_)
    rw [hC'.children] at hchildren
    rw [hC.children, count_append]
    omega
  · refine .inr (.inr ?_)
    rw [hC'.views] at hviews
    rw [hC.views]
    have hle := countP_pendingView_le g l rest t
    omega

theorem updateParents_spec (hg : g.WellFormed) (l : List ℕ) (hl : ∀ p ∈ l, p ∈ g.reads g.nodes) (hH : Holdings g s)
    (hC : Counts g (l ++ rest) s) (h : l.foldlM (fun s parent => updateParent g parent s) s = .ok s') :
    Holdings g s' ∧ Counts g rest s' ∧ Updated g l s s' := by
  induction l generalizing s with
  | nil =>
    cases h
    exact ⟨hH, hC, Updated.refl ..⟩
  | cons p l ih =>
    rw [foldlM_cons] at h
    obtain ⟨s₁, h₁, h⟩ := (Except.bind_eq_ok_iff).mp h
    obtain ⟨hH₁, hC₁, hU₁⟩ := updateParent_spec hg (hl p (mem_cons_self ..)) hH hC h₁
    obtain ⟨hH', hC', hU⟩ := ih (fun q hq => hl q (mem_cons_of_mem _ hq)) hH₁ hC₁ h
    refine ⟨hH', hC', hU.aligned.trans hU₁.aligned, fun t => (hU.addrs t).trans (hU₁.addrs t),
      fun t ht => hU₁.keeps t (hU.keeps t ht), ?_⟩
    intro t ht
    rcases hU₁.drops t ht with hown | ⟨hneed, q, hq, hbehind⟩
    · rcases hU.drops t hown with hown' | ⟨hneed, q, hq, hbehind⟩
      · exact .inl hown'
      · exact .inr ⟨hneed, q, mem_cons_of_mem _ hq, hbehind⟩
    · refine .inr ⟨fun h => hneed (h.of_suffix hC₁ hC'), p, mem_cons_self .., ?_⟩
      rwa [mem_singleton.mp hq] at hbehind

end Update

end Alloc
