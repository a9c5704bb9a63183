import Mathlib.Data.List.GetD
import Mathlib.Data.List.Nodup
import Mathlib.Data.Nat.Basic
import Mathlib.Order.Basic
import LlamaRafaelia.Grammar.Parser

/-!
# The ids of the parser

`get_symbol_id` gives the next id to a name of the text, and `generate_symbol_id` makes a name that ends in its id.  A name
of the text has no underscore, so the two kinds never meet.

* **`Numbered`** - the invariant: below 2^32 names, no id is given out twice.
-/

namespace Grammar

open List Nat

/-! ### Names that are made up -/

theorem digits_injective {m n : ℕ} (h : ((toDigits 10 m).map fun c => UInt8.ofNat c.toNat)
    = (toDigits 10 n).map fun c => UInt8.ofNat c.toNat) : m = n := by
  have hdigit : ∀ k, ∀ c ∈ toDigits 10 k, c.toNat < 256 := by
    intro k c hc
    have hc' := isDigit_of_mem_toDigits (by decide) (by decide) hc
    simp only [Char.isDigit, ge_iff_le, Bool.and_eq_true, decide_eq_true_eq, UInt32.le_iff_toNat_le] at hc'
    have hle : c.toNat ≤ 57 := hc'.2
    omega
  have hback : ∀ k, ((toDigits 10 k).map fun c => UInt8.ofNat c.toNat).map (fun b => Char.ofNat b.toNat)
      = toDigits 10 k := by
    intro k
    rw [map_map]
    conv_rhs => rw [← map_id (toDigits 10 k)]
    refine map_congr_left fun c hc => ?_
    show Char.ofNat (UInt8.ofNat c.toNat).toNat = c
    rw [UInt8.toNat_ofNat_of_lt' (hdigit k c hc), Char.ofNat_toNat]
  have hlist : toDigits 10 m = toDigits 10 n := by rw [← hback m, h, hback n]
  rw [← ofDigitChars_ten_toDigits (n := m), hlist, ofDigitChars_ten_toDigits]

theorem symbolName_injective {base base' : Text} {m n : ℕ} (hbase : 95 ∉ base) (hbase' : 95 ∉ base')
    (h : Parser.symbolName base m = Parser.symbolName base' n) : m = n := by
  have hdrop : ∀ (b z : Text), 95 ∉ b → (b ++ 95 :: z).dropWhile (· ≠ 95) = 95 :: z := by
    intro b z hb
    rw [dropWhile_append_of_pos fun c hc => by simpa using fun h95 : c = 95 => hb (h95 ▸ hc)]
    rfl
  have htail := congrArg (List.dropWhile (· ≠ 95)) h
  rw [Parser.symbolName, Parser.symbolName, hdrop _ _ hbase, hdrop _ _ hbase'] at htail
  exact digits_injective (List.cons.inj htail).2

/-! ### The numbering -/

/-- The ids that have a name are those of the names so far, and a name that is made up ends in its id. -/
structure Numbered (st : Parser) : Prop where
  nodup : (st.symbolIds.map Prod.fst).Nodup
  lt : ∀ k v, (k, v) ∈ st.symbolIds → v < st.symbolIds.length
  keys : ∀ k v, (k, v) ∈ st.symbolIds → 95 ∈ k → ∃ base, 95 ∉ base ∧ k = Parser.symbolName base v
  ids : st.symbolIds.length < 2 ^ 32 → (st.symbolIds.map Prod.snd).Nodup

section

variable {st : Parser}

theorem Numbered.init : Numbered ⟨[], []⟩ :=
  ⟨nodup_nil, fun _ _ h => absurd h not_mem_nil, fun _ _ h => absurd h not_mem_nil, fun _ => nodup_nil⟩

theorem Numbered.length_filter (h : Numbered st) (name : Text) :
    st.symbolIds.length ≤ (st.symbolIds.filter fun kv => kv.1 ≠ name).length + 1 := by
  have hcount : st.symbolIds.countP (fun kv => kv.1 = name) ≤ 1 := by
    have hle := nodup_iff_count_le_one.mp h.nodup name
    rw [List.count, countP_map] at hle
    refine le_trans (countP_mono_left fun kv _ hkv => ?_) hle
    simpa using hkv
  have hsplit := length_eq_countP_add_countP (fun kv : Text × ℕ => decide (kv.1 = name)) (l := st.symbolIds)
  rw [← countP_eq_length_filter]
  simp only [decide_not, Bool.decide_eq_true] at hsplit ⊢
  omega

theorem Numbered.ids_append (h : Numbered st) (name : Text)
    (hroom : (st.symbolIds ++ [(name, st.nextId)]).length < 2 ^ 32) :
    ((st.symbolIds ++ [(name, st.nextId)]).map Prod.snd).Nodup := by
  have hlt : st.symbolIds.length < 2 ^ 32 := by
    rw [length_append] at hroom
    omega
  rw [map_append, nodup_append]
  refine ⟨h.ids hlt, nodup_singleton _, fun v hv v' hv' => ?_⟩
  obtain ⟨kv, hkv, rfl⟩ := mem_map.mp hv
  have hnext : st.nextId = st.symbolIds.length := mod_eq_of_lt hlt
  rw [mem_singleton.mp hv', hnext]
  exact (h.lt kv.1 kv.2 hkv).ne

theorem getSymbolId_mem (st : Parser) (name : Text) :
    (name, (st.getSymbolId name).1) ∈ (st.getSymbolId name).2.symbolIds := by
  unfold Parser.getSymbolId
  split
  · next id hid =>
    obtain ⟨l₁, l₂, hl, -⟩ := lookup_eq_some_iff.mp hid
    show (name, id) ∈ st.symbolIds
    rw [hl]
    exact mem_append_right l₁ mem_cons_self
  · exact mem_append_right _ mem_cons_self

theorem Numbered.getSymbolId (h : Numbered st) {name : Text} (hname : 95 ∉ name) : Numbered (st.getSymbolId name).2 := by
  unfold Parser.getSymbolId
  split
  · exact h
  · next hnone =>
    have hnew : name ∉ st.symbolIds.map Prod.fst := by
      intro hmem
      obtain ⟨kv, hkv, rfl⟩ := mem_map.mp hmem
      have hne := lookup_eq_none_iff.mp hnone kv hkv
      rw [bne_self_eq_false] at hne
      cases hne
    refine ⟨?_, fun k v hkv => ?_, fun k v hkv h95 => ?_, h.ids_append name⟩
    · rw [map_append, nodup_append]
      refine ⟨h.nodup, nodup_singleton name, fun k hk k' hk' => ?_⟩
      rw [mem_singleton.mp hk']
      rintro rfl
      exact hnew hk
    · rw [length_append]
      obtain hkv | hkv := mem_append.mp hkv
      · exact lt_succ_of_lt (h.lt k v hkv)
      · obtain ⟨-, rfl⟩ := Prod.mk.inj (mem_singleton.mp hkv)
        exact lt_succ_of_le (mod_le _ _)
    · obtain hkv | hkv := mem_append.mp hkv
      · exact h.keys k v hkv h95
      · obtain ⟨rfl, -⟩ := Prod.mk.inj (mem_singleton.mp hkv)
        exact absurd h95 hname

theorem Numbered.id_lt (h : Numbered st) {base : Text} (hbase : 95 ∉ base) {v id : ℕ}
    (hv : (Parser.symbolName base id, v) ∈ st.symbolIds) : id < st.symbolIds.length := by
  obtain ⟨base', hbase', hname⟩ := h.keys _ v hv (by simp [Parser.symbolName])
  rw [symbolName_injective hbase hbase' hname]
  exact h.lt _ v hv

theorem filter_new {name : Text} (hnew : ∀ v, (name, v) ∉ st.symbolIds) :
    (st.symbolIds.filter fun kv => kv.1 ≠ name) = st.symbolIds := by
  refine filter_eq_self.mpr fun kv hkv => decide_eq_true fun heq => hnew kv.2 ?_
  rw [← heq]
  exact hkv

theorem generateSymbolId_symbolIds (base : Text) : (st.generateSymbolId base).2.symbolIds =
    (st.symbolIds.filter fun kv => kv.1 ≠ Parser.symbolName base st.nextId) ++
      [(Parser.symbolName base st.nextId, st.nextId)] := rfl

theorem Numbered.generateSymbolId (h : Numbered st) {base : Text} (hbase : 95 ∉ base) :
    Numbered (st.generateSymbolId base).2 := by
  have hfilter := h.length_filter (Parser.symbolName base st.nextId)
  have hids := @generateSymbolId_symbolIds st base
  refine ⟨?_, fun k v hkv => ?_, fun k v hkv h95 => ?_, fun hroom => ?_⟩
  · rw [hids, map_append, nodup_append]
    refine ⟨h.nodup.sublist (filter_sublist.map _), nodup_singleton _, fun k hk k' hk' => ?_⟩
    rw [mem_singleton.mp hk']
    rintro rfl
    obtain ⟨kv, hkv, heq⟩ := mem_map.mp hk
    have hne := (mem_filter.mp hkv).2
    simp only [decide_eq_true_eq] at hne
    exact hne heq
  · rw [hids, length_append]
    rw [hids] at hkv
    obtain hkv | hkv := mem_append.mp hkv
    · have := h.lt k v (mem_filter.mp hkv).1
      exact this.trans_le hfilter
    · obtain ⟨-, rfl⟩ := Prod.mk.inj (mem_singleton.mp hkv)
      by_cases hold : ∃ v, (Parser.symbolName base st.nextId, v) ∈ st.symbolIds
      · obtain ⟨v, hv⟩ := hold
        exact (h.id_lt hbase hv).trans_le hfilter
      · rw [filter_new (not_exists.mp hold)]
        exact lt_succ_of_le (mod_le _ _)
  · rw [hids] at hkv
    obtain hkv | hkv := mem_append.mp hkv
    · exact h.keys k v (mem_filter.mp hkv).1 h95
    · obtain ⟨rfl, rfl⟩ := Prod.mk.inj (mem_singleton.mp hkv)
      exact ⟨base, hbase, rfl⟩
  · have hlt : st.symbolIds.length < 2 ^ 32 := by
      rw [hids, length_append] at hroom
      exact hfilter.trans_lt hroom
    have hnext : st.nextId = st.symbolIds.length := mod_eq_of_lt hlt
    have hnew : ∀ v, (Parser.symbolName base st.nextId, v) ∉ st.symbolIds := fun v hv =>
      absurd (h.id_lt hbase hv) (by omega)
    rw [hids, filter_new hnew] at hroom ⊢
    exact h.ids_append _ hroom

theorem addRule_getD (id : ℕ) (rule : List Element) (i : ℕ) :
    (st.addRule id rule).rules.getD i [] = if i = id then rule else st.rules.getD i [] := by
  have hlen : id < (st.rules ++ List.replicate (id + 1 - st.rules.length) []).length := by
    rw [length_append, length_replicate]
    omega
  show ((st.rules ++ List.replicate (id + 1 - st.rules.length) []).set id rule).getD i [] = _
  by_cases hi : i = id
  · rw [if_pos hi, hi, getD_eq_getElem?_getD, getElem?_set_self hlen]
    rfl
  · rw [if_neg hi, getD_eq_getElem?_getD, getElem?_set_ne (Ne.symm hi), ← getD_eq_getElem?_getD]
    by_cases hlt : i < st.rules.length
    · rw [getD_append _ _ _ _ hlt]
    · rw [getD_append_right _ _ _ _ (not_lt.mp hlt), getD_eq_default _ _ (not_lt.mp hlt)]
      cases hrep : (List.replicate (id + 1 - st.rules.length) ([] : List Element))[i - st.rules.length]? with
      | none => rw [getD_eq_getElem?_getD, hrep]; rfl
      | some x =>
        rw [getD_eq_getElem?_getD, hrep]
        exact eq_of_mem_replicate (mem_of_getElem? hrep)

end

end Grammar
