import Mathlib.Data.List.Basic
import Mathlib.Logic.Relation
import Mathlib.Tactic.Common

/-!
# Depth-first walks that remember what they have seen

A walk works off a stack.  An element that was seen before is skipped; a new one is inspected, and either the walk
stops there with a reason, or the element counts as seen and the elements that it refers to come next.

* `Walk.reached` - **a walk sees only what the stack leads to**;
* `Walk.halted` - **a walk that stops does so at an element that the stack leads to**;
* `Walk.cut_eq` - **a walk that may stop follows the order of the references up to the first element that stops it**.
-/

/-- A depth-first walk: `next` are the elements that an element refers to, in order, and `stop` says why the walk ends
at a new element, if it does. -/
inductive Walk {α β : Type} (next : α → List α) (stop : List α → α → Option β) :
    List α → List α → List α → Option β → Prop
  | done (seen : List α) : Walk next stop [] seen seen none
  | skip {a : α} {stk seen out : List α} {v : Option β} (h : a ∈ seen) (rest : Walk next stop stk seen out v) :
      Walk next stop (a :: stk) seen out v
  | halt {a : α} {stk seen : List α} {b : β} (h : a ∉ seen) (hb : stop seen a = some b) :
      Walk next stop (a :: stk) seen seen (some b)
  | visit {a : α} {stk seen out : List α} {v : Option β} (h : a ∉ seen) (hgo : stop seen a = none)
      (rest : Walk next stop (next a ++ stk) (seen ++ [a]) out v) : Walk next stop (a :: stk) seen out v

namespace Walk

open List

variable {α β : Type} {next : α → List α} {stop : List α → α → Option β} {stk stk' seen mid out : List α}
  {v : Option β} {b : β}

theorem append (h : Walk next stop stk seen mid none) (h' : Walk next stop stk' mid out v) :
    Walk next stop (stk ++ stk') seen out v := by
  generalize hw : (none : Option β) = w at h
  induction h with
  | done seen => exact h'
  | skip h _ ih => exact .skip h (ih h' hw)
  | halt h hb => cases hw
  | visit h hgo _ ih =>
    have hrest := ih h' hw
    rw [append_assoc] at hrest
    exact .visit h hgo hrest

theorem append_halted (h : Walk next stop stk seen mid (some b)) (stk' : List α) :
    Walk next stop (stk ++ stk') seen mid (some b) := by
  generalize hw : some b = w at h
  induction h with
  | done seen => cases hw
  | skip h _ ih => exact .skip h (ih hw)
  | halt h hb =>
    obtain rfl := Option.some.inj hw
    exact .halt h hb
  | visit h hgo _ ih =>
    have hrest := ih hw
    rw [append_assoc] at hrest
    exact .visit h hgo hrest

theorem seen_subset (h : Walk next stop stk seen out v) : seen ⊆ out := by
  induction h with
  | done seen => exact List.Subset.refl _
  | skip _ _ ih => exact ih
  | halt _ _ => exact List.Subset.refl _
  | visit _ _ _ ih => exact fun a ha => ih (mem_append_left _ ha)

theorem seen_prefix (h : Walk next stop stk seen out v) : seen <+: out := by
  induction h with
  | done seen => exact prefix_rfl
  | skip _ _ ih => exact ih
  | halt _ _ => exact prefix_rfl
  | visit _ _ _ ih => exact (prefix_append _ _).trans ih

theorem nodup (h : Walk next stop stk seen out v) (hseen : seen.Nodup) : out.Nodup := by
  induction h with
  | done seen => exact hseen
  | skip _ _ ih => exact ih hseen
  | halt _ _ => exact hseen
  | @visit a _ _ _ _ h _ _ ih =>
    refine ih (nodup_append.mpr ⟨hseen, pairwise_singleton _ _, fun c hc d hd heq => h ?_⟩)
    rwa [← mem_singleton.mp hd, ← heq]

theorem deterministic (h : Walk next stop stk seen out v) {out' : List α} {v' : Option β}
    (h' : Walk next stop stk seen out' v') : out = out' ∧ v = v' := by
  induction h generalizing out' v' with
  | done seen =>
    cases h'
    exact ⟨rfl, rfl⟩
  | skip h _ ih =>
    cases h' with
    | skip _ rest => exact ih rest
    | halt hn _ => exact (hn h).elim
    | visit hn _ _ => exact (hn h).elim
  | halt h hb =>
    cases h' with
    | skip hn _ => exact (h hn).elim
    | halt _ hb' => exact ⟨rfl, hb ▸ hb'⟩
    | visit _ hgo _ => exact (Option.some_ne_none _ (hb.symm.trans hgo)).elim
  | visit h hgo _ ih =>
    cases h' with
    | skip hn _ => exact (h hn).elim
    | halt _ hb => exact (Option.some_ne_none _ (hb.symm.trans hgo)).elim
    | visit _ _ rest => exact ih rest

/-- **A walk that stops does so at an element that the stack leads to.** -/
theorem halted (h : Walk next stop stk seen out (some b)) :
    ∃ a ∈ stk, ∃ c, Relation.ReflTransGen (fun x y => y ∈ next x) a c ∧ stop out c = some b := by
  generalize hw : some b = w at h
  induction h with
  | done seen => cases hw
  | skip h rest ih =>
    obtain ⟨a, ha, hc⟩ := ih hw
    exact ⟨a, mem_cons_of_mem _ ha, hc⟩
  | @halt a _ _ _ h hb =>
    obtain rfl := Option.some.inj hw
    exact ⟨a, mem_cons_self .., a, .refl, hb⟩
  | @visit a _ _ _ _ h hgo rest ih =>
    obtain ⟨d, hd, c, hdc, hstop⟩ := ih hw
    rcases mem_append.mp hd with hd | hd
    · exact ⟨a, mem_cons_self .., c, .head hd hdc, hstop⟩
    · exact ⟨d, mem_cons_of_mem _ hd, c, hdc, hstop⟩

theorem reached (h : Walk next stop stk seen out v) :
    ∀ c ∈ out, c ∈ seen ∨ ∃ a ∈ stk, Relation.ReflTransGen (fun x y => y ∈ next x) a c := by
  induction h with
  | done seen => exact fun c hc => .inl hc
  | skip h _ ih =>
    intro c hc
    rcases ih c hc with hseen | ⟨a, ha, hac⟩
    · exact .inl hseen
    · exact .inr ⟨a, mem_cons_of_mem _ ha, hac⟩
  | halt _ _ => exact fun c hc => .inl hc
  | @visit a _ _ _ _ _ _ _ ih =>
    intro c hc
    rcases ih c hc with hseen | ⟨d, hd, hdc⟩
    · rcases mem_append.mp hseen with hseen | hseen
      · exact .inl hseen
      · rw [mem_singleton.mp hseen]
        exact .inr ⟨a, mem_cons_self .., .refl⟩
    · rcases mem_append.mp hd with hd | hd
      · exact .inr ⟨a, mem_cons_self .., .head hd hdc⟩
      · exact .inr ⟨d, mem_cons_of_mem _ hd, hdc⟩

/-! ### The order of the references -/

/-- The new elements in the order in which they come up when nothing stops the walk. -/
def Order (next : α → List α) (stk seen order : List α) : Prop :=
  Walk next (fun _ _ => (none : Option Empty)) stk seen (seen ++ order) none

/-- What is seen up to the first element of an order that stops the walk, and why it stops. -/
def cut (stop : List α → α → Option β) (seen : List α) : List α → List α × Option β
  | [] => (seen, none)
  | a :: order => match stop seen a with
    | some b => (seen, some b)
    | none => cut stop (seen ++ [a]) order

theorem of_order {order : List α} (h : Order next stk seen order) :
    Walk next stop stk seen (cut stop seen order).1 (cut stop seen order).2 := by
  rw [Order] at h
  generalize (fun (_ : List α) (_ : α) => (none : Option Empty)) = free at h
  generalize hw : (none : Option Empty) = w at h
  generalize hout : seen ++ order = out at h
  induction h generalizing order with
  | done seen =>
    obtain rfl := self_eq_append_right.mp hout.symm
    exact .done _
  | skip h _ ih => exact .skip h (ih hw hout)
  | @halt _ _ _ b _ _ => exact b.elim
  | @visit a stk seen _ _ h _ rest ih =>
    obtain ⟨order', horder⟩ := rest.seen_prefix
    obtain rfl : order = a :: order' := by
      rw [← horder, append_assoc] at hout
      exact append_cancel_left hout
    rw [cut]
    cases hb : stop seen a with
    | some b => exact .halt h hb
    | none => exact .visit h hb (ih hw horder)

theorem cut_eq {order : List α} (horder : Order next stk seen order) (h : Walk next stop stk seen out v) :
    cut stop seen order = (out, v) := by
  obtain ⟨rfl, rfl⟩ := h.deterministic (of_order horder)
  rfl

/-! ### The elements that are left -/

variable [DecidableEq α]

def fresh (l seen : List α) : ℕ := (l.filter fun a => decide (a ∉ seen)).length

theorem fresh_le {l seen seen' : List α} (h : seen ⊆ seen') : fresh l seen' ≤ fresh l seen := by
  refine (monotone_filter_right l fun a ha => ?_).length_le
  rw [decide_eq_true_iff] at ha ⊢
  exact fun hmem => ha (h hmem)

theorem fresh_lt {l seen : List α} {a : α} (ha : a ∈ l) (hnot : a ∉ seen) :
    fresh l (seen ++ [a]) < fresh l seen := by
  obtain ⟨pre, post, rfl⟩ := append_of_mem ha
  have hsub : ∀ l : List α, fresh l (seen ++ [a]) ≤ fresh l seen := fun l => fresh_le (subset_append_left _ _)
  have hpre := hsub pre
  have hpost := hsub post
  have hold : fresh (pre ++ a :: post) seen = fresh pre seen + (fresh post seen + 1) := by
    rw [fresh, filter_append, filter_cons_of_pos (by simpa using hnot), length_append,
      length_cons]
    rfl
  have hnew : fresh (pre ++ a :: post) (seen ++ [a]) = fresh pre (seen ++ [a]) + fresh post (seen ++ [a]) := by
    rw [fresh, filter_append, filter_cons_of_neg (by simp), length_append]
    rfl
  omega

/-- Elements that refer to others are few, so the references have an order. -/
theorem exists_order {l : List α} (hl : ∀ a, next a ≠ [] → a ∈ l) (stk seen : List α) :
    ∃ order, Order next stk seen order := by
  generalize hn : fresh l seen = n
  have hle : fresh l seen ≤ n := Nat.le_of_eq hn
  clear hn
  induction n using Nat.strongRecOn generalizing stk seen with
  | ind n ih =>
    induction stk generalizing seen with
    | nil => exact ⟨[], by rw [Order, append_nil]; exact .done _⟩
    | cons a stk ihs =>
      by_cases ha : a ∈ seen
      · obtain ⟨order, horder⟩ := ihs seen hle
        exact ⟨order, .skip ha horder⟩
      -- an element without references leaves a shorter stack, any other one fewer new elements
      obtain ⟨order, horder⟩ : ∃ order, Order next (next a ++ stk) (seen ++ [a]) order := by
        by_cases hnext : next a = []
        · rw [hnext, nil_append]
          exact ihs _ (Nat.le_trans (fresh_le (subset_append_left _ _)) hle)
        · exact ih _ (Nat.lt_of_lt_of_le (fresh_lt (hl a hnext) ha) hle) _ _ (Nat.le_refl _)
      rw [Order, append_assoc] at horder
      exact ⟨a :: order, .visit ha rfl horder⟩

theorem fresh_le_length (l seen : List α) : fresh l seen ≤ l.length := length_filter_le _ _

end Walk
