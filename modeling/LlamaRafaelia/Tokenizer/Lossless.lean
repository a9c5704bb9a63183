import LlamaRafaelia.Tokenizer.Spm
import LlamaRafaelia.Tokenizer.Bpe

/-!
# What the tokens spell

The SPM session finds byte tokens by the text `<0xHH>`, and so does `text_to_token`.  When the merges arrive at these
six characters of a text, the session puts the byte token out in their place.

* **`lossless_exact`** - so the texts that every vocabulary with byte tokens spells are those without `<0xHH>`, a
  vocabulary that cannot assemble `<0xHH>` spells all texts, and BPE vocabularies do.
-/

namespace Tokenizer

open List Unicode Linked Merging TokenData

/-! ### Spelling -/

/-- What a token contributes: a byte token its byte, any other one its text. -/
def TokenData.spelling (t : TokenData) : List UInt8 :=
  if t.attr.byte ∧ t.text = byteName (tokenToByte t.text) then [tokenToByte t.text] else t.text

def spells (V : Vocab) (ids : List ℕ) : List UInt8 := ids.flatMap fun id => (V.tokens[id]?).elim [] spelling

def Vocab.HasBytes (V : Vocab) : Prop := ∀ b, ∃ t ∈ V.tokens, t.text = byteName b ∧ t.attr.byte = true

def contribution (text : List UInt8) : List UInt8 :=
  if text = byteName (tokenToByte text) then [tokenToByte text] else text

theorem contribution_of_ne {text : List UInt8} (h : ∀ b, text ≠ byteName b) : contribution text = text := if_neg (h _)

theorem contribution_byteName (b : UInt8) : contribution (byteName b) = [b] := by
  unfold contribution
  rw [tokenToByte_byteName, if_pos rfl]

theorem contribution_length_le (text : List UInt8) : (contribution text).length ≤ text.length := by
  unfold contribution
  split
  next h =>
    rw [h]
    exact Nat.le_of_lt_succ (by simp [byteName])
  next => exact le_rfl

theorem spells_append (V : Vocab) (ids ids' : List ℕ) : spells V (ids ++ ids') = spells V ids ++ spells V ids' :=
  flatMap_append

theorem spells_textToToken {V : Vocab} (hV : V.HasBytes) {text : List UInt8} {id : ℕ}
    (h : V.textToToken text = some id) : spells V [id] = contribution text := by
  obtain ⟨t, ht, rfl⟩ := V.textToToken_eq_some h
  have hone : spells V [id] = t.spelling := by
    show (V.tokens[id]?).elim [] spelling ++ [] = _
    rw [ht, append_nil]
    rfl
  rw [hone, spelling, contribution]
  by_cases hname : t.text = byteName (tokenToByte t.text)
  · -- the byte token of that name is this token
    obtain ⟨t', ht', htext', hbyte⟩ := hV (tokenToByte t.text)
    have hsame : t' = t := V.eq_of_text_eq ht' (mem_of_getElem? ht) (htext'.trans hname.symm)
    rw [hsame] at hbyte
    rw [if_pos ⟨hbyte, hname⟩, if_pos hname]
  · rw [if_neg fun hboth => hname hboth.2, if_neg hname]

theorem byteToToken_spells {V : Vocab} (hV : V.HasBytes) (b : UInt8) :
    ∃ id, V.byteToToken b = .ok id ∧ spells V [id] = [b] := by
  obtain ⟨t, ht, htext, -⟩ := hV b
  obtain ⟨id, hid⟩ := V.textToToken_of_has ⟨t, ht, htext⟩
  refine ⟨id, ?_, ?_⟩
  · rw [Vocab.byteToToken, hid]
  · rw [spells_textToToken hV hid, contribution_byteName]

theorem bytes_spell {V : Vocab} (hV : V.HasBytes) (text : List UInt8) :
    ∃ ids, text.mapM V.byteToToken = .ok ids ∧ spells V ids = text := by
  induction text with
  | nil => exact ⟨[], rfl, rfl⟩
  | cons b text ih =>
    obtain ⟨id, hid, hspells⟩ := byteToToken_spells hV b
    obtain ⟨ids, hids, hspells'⟩ := ih
    refine ⟨id :: ids, ?_, ?_⟩
    · rw [mapM_cons, hid, hids]
      rfl
    · have happend := spells_append V [id] ids
      rw [hspells, hspells'] at happend
      exact happend

theorem emit_spells {V : Vocab} (hV : V.HasBytes) (text : List UInt8) :
    ∃ ids, emit V text = .ok ids ∧ spells V ids = contribution text := by
  cases htoken : V.textToToken text with
  | some id =>
    refine ⟨[id], ?_, spells_textToToken hV htoken⟩
    rw [emit, htoken]
  | none =>
    obtain ⟨ids, hids, hspells⟩ := bytes_spell hV text
    refine ⟨ids, ?_, ?_⟩
    · rw [emit, htoken]
      exact hids
    · rw [hspells, contribution_of_ne]
      rintro b rfl
      obtain ⟨t, ht, htext, -⟩ := hV b
      exact (V.textToToken_eq_none).mp htoken ⟨t, ht, htext⟩

theorem groups_spell {V : Vocab} (hV : V.HasBytes) (gs : List (List (List UInt8))) :
    ∃ ids, (gs.mapM fun g => emit V g.flatten).map flatten = .ok ids ∧
      spells V ids = gs.flatMap fun g => contribution g.flatten := by
  induction gs with
  | nil => exact ⟨[], rfl, rfl⟩
  | cons g gs ih =>
    obtain ⟨ids, hids, hspells⟩ := emit_spells hV g.flatten
    obtain ⟨ids', hids', hspells'⟩ := ih
    refine ⟨ids ++ ids', ?_, ?_⟩
    · cases hmapM : gs.mapM fun g => emit V g.flatten with
      | error e =>
        rw [hmapM] at hids'
        cases hids'
      | ok output =>
        rw [hmapM] at hids'
        rw [mapM_cons, hids, hmapM, ← Except.ok.inj hids']
        rfl
    · rw [spells_append, hspells, hspells', flatMap_cons]

theorem spm_spells {V : Vocab} (hV : V.HasBytes) {text : List UInt8} (hne : text ≠ []) :
    ∃ gs ids, gs.flatten = chars text ∧ (∀ g ∈ gs, Assembled (joins V) IsChar g) ∧ Stuck (joins V) gs ∧
      spmTokenize V text = .ok ids ∧ spells V ids = gs.flatMap fun g => contribution g.flatten := by
  obtain ⟨gs, hflat, hassembled, hstuck, htokenize⟩ := spm_spec V hne
  obtain ⟨ids, hids, hspells⟩ := groups_spell hV gs
  exact ⟨gs, ids, hflat, hassembled, hstuck, htokenize.trans hids, hspells⟩

/-! ### Groups of plain characters -/

def single (text : List UInt8) : List (List UInt8) := text.map fun b => [b]

theorem flatten_single (text : List UInt8) : (single text).flatten = text := by
  induction text with
  | nil => rfl
  | cons b text ih =>
    show [b] ++ (single text).flatten = b :: text
    rw [ih]
    rfl

theorem single_injective {text text' : List UInt8} (h : single text = single text') : text = text' := by
  rw [← flatten_single text, h, flatten_single]

theorem lenUtf8_ascii {b : UInt8} (h : b.toNat < 128) : lenUtf8 b = 1 := by
  have hall : ∀ k < 8, [1, 1, 1, 1, 1, 1, 1, 1, 1, 1, 1, 1, 2, 2, 3, 4].getD k 0 = 1 := by decide
  exact hall _ (by omega)

theorem eq_single_of_ascii {g : List (List UInt8)} (hg : ∀ c ∈ g, IsChar c) (h : ∀ b ∈ g.flatten, b.toNat < 128) :
    g = single g.flatten := by
  induction g with
  | nil => rfl
  | cons c g ih =>
    obtain ⟨b, bs, rfl, hlen⟩ := hg c mem_cons_self
    rw [lenUtf8_ascii (h b (by simp))] at hlen
    have hbs : bs = [] := eq_nil_of_length_eq_zero (by simpa using hlen)
    have hrest : g = single g.flatten := by
      apply ih
      · intro c hc
        exact hg c (mem_cons_of_mem _ hc)
      · intro b' hb'
        exact h b' (by simp [hb'])
    rw [hbs]
    show [b] :: g = [b] :: single g.flatten
    rw [← hrest]

theorem eq_single_byteName {g : List (List UInt8)} {b : UInt8} (hg : ∀ c ∈ g, IsChar c) (h : g.flatten = byteName b) :
    g = single (byteName b) := by
  rw [← h]
  apply eq_single_of_ascii hg
  rw [h]
  exact (byteName_ascii b).1

/-- **Enough for the text to come back**: the vocabulary assembles no name of a byte that stands in the text. -/
theorem spm_lossless {V : Vocab} (hV : V.HasBytes) {text : List UInt8} (hne : text ≠ [])
    (h : ∀ b, single (byteName b) <:+: chars text → ¬ Assembled (joins V) IsChar (single (byteName b))) :
    ∃ output, spmTokenize V text = .ok output ∧ spells V output = text := by
  obtain ⟨gs, ids, hflat, hassembled, -, htokenize, hspells⟩ := spm_spells hV hne
  refine ⟨ids, htokenize, ?_⟩
  have hplain : ∀ g ∈ gs, contribution g.flatten = g.flatten := by
    intro g hg
    apply contribution_of_ne
    intro b hb
    have hgb := eq_single_byteName (hassembled g hg).letters hb
    have hinside : g <:+: chars text := by
      rw [← hflat]
      exact infix_of_mem_flatten hg
    rw [hgb] at hinside
    exact h b hinside (hgb ▸ hassembled g hg)
  rw [hspells, ← flatten_chars text, ← hflat]
  clear hspells htokenize hflat hassembled
  induction gs with
  | nil => rfl
  | cons g gs ih =>
    rw [flatMap_cons, hplain g mem_cons_self, ih fun g' hg' => hplain g' (mem_cons_of_mem g hg'),
      flatten_cons, flatten_append]

/-! ### A vocabulary that makes the name of a byte -/

def plainAttr : TokenAttr := ⟨false, false, false, false, false, false⟩

def byteTokens : List TokenData :=
  (range 256).map fun n => ⟨byteName (UInt8.ofNat n), 0, { plainAttr with byte := true }⟩

def prefixTokens (b : UInt8) : List TokenData :=
  [2, 3, 4, 5].map fun k => ⟨(byteName b).take k, 0, plainAttr⟩

theorem mem_byteTokens {t : TokenData} (h : t ∈ byteTokens) : ∃ b, t.text = byteName b := by
  obtain ⟨n, -, rfl⟩ := mem_map.mp h
  exact ⟨_, rfl⟩

theorem byteTokens_has (b : UInt8) : ∃ t ∈ byteTokens, t.text = byteName b ∧ t.attr.byte = true := by
  refine ⟨⟨byteName b, 0, { plainAttr with byte := true }⟩, ?_, rfl, rfl⟩
  refine mem_map.mpr ⟨b.toNat, mem_range.mpr b.toNat_lt, ?_⟩
  rw [UInt8.ofNat_toNat]

theorem byteTokens_nodup : (byteTokens.map text).Nodup := by
  unfold byteTokens
  rw [map_map]
  apply List.Nodup.map_on _ nodup_range
  intro n hn n' hn' h
  have hb := byteName_injective h
  rw [mem_range] at hn hn'
  have hnat := congrArg UInt8.toNat hb
  rwa [UInt8.toNat_ofNat_of_lt' hn, UInt8.toNat_ofNat_of_lt' hn'] at hnat

def withBytes (tokens : List TokenData) (hnodup : (tokens.map text).Nodup)
    (hne : ∀ t ∈ tokens, t.text ≠ []) (hother : ∀ t ∈ tokens, ∀ b, t.text ≠ byteName b) : Vocab where
  tokens := byteTokens ++ tokens
  distinct := by
    rw [map_append, nodup_append]
    refine ⟨byteTokens_nodup, hnodup, ?_⟩
    intro x hx y hy hxy
    obtain ⟨t, ht, rfl⟩ := mem_map.mp hx
    obtain ⟨t', ht', rfl⟩ := mem_map.mp hy
    obtain ⟨b, hb⟩ := mem_byteTokens ht
    exact hother t' ht' b (hxy.symm.trans hb)
  nonempty := by
    intro t ht
    rcases mem_append.mp ht with ht | ht
    · obtain ⟨b, hb⟩ := mem_byteTokens ht
      rw [hb]
      exact cons_ne_nil _ _
    · exact hne t ht

theorem hasBytes_of_subset {V : Vocab} (h : byteTokens ⊆ V.tokens) : V.HasBytes := by
  intro b
  obtain ⟨t, ht, htext, hbyte⟩ := byteTokens_has b
  exact ⟨t, h ht, htext, hbyte⟩

theorem withBytes_has {tokens : List TokenData} {hnodup : (tokens.map text).Nodup}
    {hne : ∀ t ∈ tokens, t.text ≠ []} {hother : ∀ t ∈ tokens, ∀ b, t.text ≠ byteName b} {text : List UInt8} :
    (withBytes tokens hnodup hne hother).Has text ↔ (∃ b, text = byteName b) ∨ ∃ t ∈ tokens, t.text = text := by
  constructor
  · rintro ⟨t, ht, rfl⟩
    rcases mem_append.mp ht with ht | ht
    · exact .inl (mem_byteTokens ht)
    · exact .inr ⟨t, ht, rfl⟩
  · rintro (⟨b, rfl⟩ | ⟨t, ht, rfl⟩)
    · obtain ⟨t, ht, htext, -⟩ := byteTokens_has b
      exact ⟨t, mem_append_left _ ht, htext⟩
    · exact ⟨t, mem_append_right _ ht, rfl⟩

theorem mem_prefixTokens {b : UInt8} {t : TokenData} (h : t ∈ prefixTokens b) :
    ∃ k, 2 ≤ k ∧ k ≤ 5 ∧ t.text = (byteName b).take k := by
  obtain ⟨k, hk, rfl⟩ := mem_map.mp h
  have hbounds : ∀ k ∈ [2, 3, 4, 5], 2 ≤ k ∧ k ≤ 5 := by decide
  exact ⟨k, (hbounds k hk).1, (hbounds k hk).2, rfl⟩

theorem length_take_byteName (b : UInt8) {k : ℕ} (h : k ≤ 6) : ((byteName b).take k).length = k := by
  rw [length_take]
  exact Nat.min_eq_left h

theorem prefixTokens_nodup (b : UInt8) : ((prefixTokens b).map text).Nodup := by
  simp only [prefixTokens, byteName, map_cons, map_nil, take_succ_cons, take_zero]
  simp

theorem prefixTokens_ne (b : UInt8) : ∀ t ∈ prefixTokens b, t.text ≠ [] := by
  intro t ht hnil
  obtain ⟨k, hk, hk', htext⟩ := mem_prefixTokens ht
  have hlen := congrArg length (htext.symm.trans hnil)
  rw [length_take_byteName b (by omega), length_nil] at hlen
  omega

theorem prefixTokens_other (b : UInt8) : ∀ t ∈ prefixTokens b, ∀ b', t.text ≠ byteName b' := by
  intro t ht b' hname
  obtain ⟨k, hk, hk', htext⟩ := mem_prefixTokens ht
  have hlen := congrArg length (htext.symm.trans hname)
  rw [length_take_byteName b (by omega)] at hlen
  have hsix : (byteName b').length = 6 := rfl
  omega

def prefixVocab (b : UInt8) : Vocab :=
  withBytes (prefixTokens b) (prefixTokens_nodup b) (prefixTokens_ne b) (prefixTokens_other b)

theorem prefixVocab_hasBytes (b : UInt8) : (prefixVocab b).HasBytes :=
  hasBytes_of_subset (subset_append_left _ _)

theorem prefixVocab_has {b : UInt8} {text : List UInt8} :
    (prefixVocab b).Has text ↔ (∃ b', text = byteName b') ∨ ∃ k, 2 ≤ k ∧ k ≤ 5 ∧ text = (byteName b).take k := by
  unfold prefixVocab
  rw [withBytes_has]
  refine or_congr_right ⟨?_, ?_⟩
  · rintro ⟨t, ht, rfl⟩
    exact mem_prefixTokens ht
  · rintro ⟨k, hk, hk', rfl⟩
    refine ⟨⟨(byteName b).take k, 0, plainAttr⟩, mem_map.mpr ⟨k, ?_, rfl⟩, rfl⟩
    have hk4 : k = 2 ∨ k = 3 ∨ k = 4 ∨ k = 5 := by omega
    simpa using hk4

theorem byteName_eq_of_take {b b' : UInt8} (h : (byteName b).take 5 = (byteName b').take 5) : byteName b = byteName b' := by
  have hb : ∀ x, byteName x = (byteName x).take 5 ++ [0x3E] := fun _ => rfl
  rw [hb b, hb b', h]

theorem prefixVocab_assembled {b : UInt8} {g : List (List UInt8)} (h : Assembled (joins (prefixVocab b)) IsChar g) :
    (∃ c, g = [c]) ∨ ∃ k, 2 ≤ k ∧ k ≤ 6 ∧ g = single ((byteName b).take k) := by
  induction h with
  | letter h => exact .inl ⟨_, rfl⟩
  | @join u v hu hv huv ihu ihv =>
    have hletters := (Assembled.join hu hv huv).letters
    rcases (prefixVocab_has).mp huv with ⟨b', hname⟩ | ⟨k, hk, hk', htake⟩
    · -- the last group is one character, so the first one has five
      have hsingle := eq_single_byteName hletters hname
      have hlen : u.length + v.length = 6 := by
        have := congrArg length hsingle
        simpa [single, byteName] using this
      have hpos : 0 < u.length := length_pos_of_ne_nil hu.ne_nil
      have hv1 : v.length = 1 := by
        rcases ihv with ⟨c, rfl⟩ | ⟨k, hk, hk', rfl⟩
        · rfl
        · exfalso
          have hmem : [0x3C] ∈ (single (byteName b')).tail := by
            rw [← hsingle]
            obtain ⟨k, rfl⟩ : ∃ k', k = k' + 1 := ⟨k - 1, by omega⟩
            cases u with
            | nil => simp at hpos
            | cons x u => simp [single, byteName]
          rw [single, ← map_tail] at hmem
          obtain ⟨x, hx, heq⟩ := mem_map.mp hmem
          exact (byteName_ascii b').2 x hx (by simpa using heq)
      rcases ihu with ⟨c, rfl⟩ | ⟨k, hk, hk', rfl⟩
      · simp at hlen
        omega
      · have hk5 : k = 5 := by
          have : (single ((byteName b).take k)).length = k := by
            rw [single, length_map, length_take_byteName b hk']
          omega
        have htake : single ((byteName b).take k) = single ((byteName b').take 5) := by
          have := congrArg (take 5) hsingle
          rw [take_left' (by omega)] at this
          rw [this, single, single, map_take]
        rw [hk5] at htake
        rw [hsingle, ← byteName_eq_of_take (single_injective htake)]
        exact .inr ⟨6, by omega, le_rfl, rfl⟩
    · refine .inr ⟨k, hk, by omega, ?_⟩
      rw [← htake]
      apply eq_single_of_ascii hletters
      rw [htake]
      intro x hx
      exact (byteName_ascii b).1 x (mem_of_mem_take hx)

/-- **The name is made wherever it stands.**  When nothing more can be merged, its six characters are one group. -/
theorem prefixVocab_makes {b : UInt8} {gs : List (List (List UInt8))} {pre post : List (List UInt8)}
    (hassembled : ∀ g ∈ gs, Assembled (joins (prefixVocab b)) IsChar g) (hstuck : Stuck (joins (prefixVocab b)) gs)
    (hflat : gs.flatten = pre ++ single (byteName b) ++ post) : single (byteName b) ∈ gs := by
  have hcons : single (byteName b) = [0x3C] :: single (byteName b).tail := rfl
  rw [hcons, append_assoc, cons_append] at hflat
  obtain ⟨front, u, v, back, rfl, -, hback⟩ := group_of_letter hflat
  -- the group of `<` is a beginning of the name
  obtain ⟨k, hk, hk', hgroup⟩ : ∃ k, 1 ≤ k ∧ k ≤ 6 ∧ u ++ [0x3C] :: v = single ((byteName b).take k) := by
    have hmem : u ++ [0x3C] :: v ∈ front ++ (u ++ [0x3C] :: v) :: back := mem_append_right front mem_cons_self
    rcases prefixVocab_assembled (hassembled _ hmem) with ⟨c, hc⟩ | ⟨k, hk, hk', hg⟩
    · refine ⟨1, le_rfl, by omega, ?_⟩
      cases u with
      | nil =>
        have hv : v = [] := by simpa using (cons.inj hc).2
        rw [hv]
        rfl
      | cons x u => simp at hc
    · exact ⟨k, by omega, hk', hg⟩
  have hu : u = [] := by
    cases u with
    | nil => rfl
    | cons x u =>
      exfalso
      have hmem : [0x3C] ∈ (single ((byteName b).take k)).tail := by
        rw [← hgroup]
        simp
      rw [single, ← map_tail] at hmem
      obtain ⟨y, hy, heq⟩ := mem_map.mp hmem
      have hy' : y ∈ (byteName b).tail := by
        rw [← drop_one, drop_take] at hy
        rw [← drop_one]
        exact mem_of_mem_take hy
      exact (byteName_ascii b).2 y hy' (by simpa using heq)
  rcases Nat.lt_or_ge k 6 with hlt | hge
  · -- a shorter group could be merged with the next character
    exfalso
    have hdrop : back.flatten = single ((byteName b).drop k) ++ post := by
      have hsplit : single (byteName b) = single ((byteName b).take k) ++ single ((byteName b).drop k) := by
        rw [single, single, single, ← map_append, take_append_drop]
      have hwhole : single ((byteName b).take k) ++ back.flatten = single (byteName b) ++ post := by
        rw [← hgroup, hu, nil_append, hcons, cons_append, hback, cons_append]
      rw [hsplit, append_assoc] at hwhole
      exact append_cancel_left hwhole
    have hk6 : k < (byteName b).length := hlt
    rw [drop_eq_getElem_cons hk6] at hdrop
    cases back with
    | nil => simp only [flatten_nil, single, map_cons, cons_append, nil_eq, reduceCtorEq] at hdrop
    | cons g back =>
      have hg := hassembled g (by simp)
      obtain ⟨c, g, rfl⟩ := exists_cons_of_ne_nil hg.ne_nil
      have hc : c = [(byteName b)[k]] := by
        rw [flatten_cons] at hdrop
        exact (cons.inj hdrop).1
      have hne : (byteName b)[k] ≠ 0x3C := by
        apply (byteName_ascii b).2
        rw [← drop_one, mem_drop_iff_getElem]
        exact ⟨k - 1, by omega, by congr 1; omega⟩
      have hone : g = [] := by
        rcases prefixVocab_assembled hg with ⟨c', hc'⟩ | ⟨j, hj, hj', hg'⟩
        · exact (cons.inj hc').2
        · exfalso
          obtain ⟨j, rfl⟩ : ∃ j', j = j' + 1 := ⟨j - 1, by omega⟩
          have hhead : c = [0x3C] := (cons.inj hg').1
          rw [hc] at hhead
          exact hne (by simpa using hhead)
      rw [hgroup, hc, hone] at hstuck
      apply hstuck front _ _ back rfl
      show (prefixVocab b).Has _
      have hnext : (single ((byteName b).take k) ++ [[(byteName b)[k]]]).flatten = (byteName b).take (k + 1) := by
        rw [flatten_append, flatten_single, take_add_one, getElem?_eq_getElem hk6]
        rfl
      rw [hnext, prefixVocab_has]
      rcases Nat.lt_or_ge (k + 1) 6 with hshort | hlong
      · exact .inr ⟨k + 1, by omega, by omega, rfl⟩
      · refine .inl ⟨b, ?_⟩
        rw [show k + 1 = 6 from by omega]
        rfl
  · have hk6 : k = 6 := by omega
    rw [hgroup, hk6]
    exact mem_append_right front mem_cons_self

theorem contribution_shorter {gs : List (List (List UInt8))} {b : UInt8} (h : single (byteName b) ∈ gs) :
    (gs.flatMap fun g => contribution g.flatten).length < gs.flatten.flatten.length := by
  have hle : ∀ gs : List (List (List UInt8)),
      (gs.flatMap fun g => contribution g.flatten).length ≤ gs.flatten.flatten.length := by
    intro gs
    induction gs with
    | nil => exact le_rfl
    | cons g gs ih =>
      have hg := contribution_length_le g.flatten
      rw [flatMap_cons, flatten_cons, flatten_append, length_append, length_append]
      omega
  obtain ⟨front, back, rfl⟩ := append_of_mem h
  have hfront := hle front
  have hback := hle back
  have hname : (contribution (single (byteName b)).flatten).length = 1 := by
    rw [flatten_single, contribution_byteName]
    rfl
  have hsix : (single (byteName b)).flatten.length = 6 := by
    rw [flatten_single]
    rfl
  rw [flatMap_append, flatMap_cons, flatten_append, flatten_cons, flatten_append,
    flatten_append, length_append, length_append, length_append, length_append]
  omega

/-! ### The texts that come back -/

/-- **What comes back.**  A text is spelled by its SPM tokens in every vocabulary with the 256 byte tokens exactly if no
six of its characters are `<0xHH>`.  A vocabulary that assembles no such name spells every text.  The BPE tokens of a text
spell its byte-encoded words in every vocabulary with the byte-level characters and the merges. -/
theorem lossless_exact (text : List UInt8) :
    (text ≠ [] →
      ((∀ V : Vocab, V.HasBytes → ∃ output, spmTokenize V text = .ok output ∧ spells V output = text) ↔
        ¬ ∃ b, single (byteName b) <:+: chars text)) ∧
    (text ≠ [] → ∀ V : Vocab, V.HasBytes → (∀ b, ¬ Assembled (joins V) IsChar (single (byteName b))) →
      ∃ output, spmTokenize V text = .ok output ∧ spells V output = text) ∧
    ∀ (V : BpeVocab) (sp : Splitter) (regexes : List String) (words : List (List UInt8)), V.Complete →
      regexSplit sp text regexes = .ok words →
      ∃ output, bpeTokenize V sp regexes text = .ok output ∧ texts V.toVocab output = words.flatten := by
  refine ⟨?_, ?_, ?_⟩
  · intro hne
    constructor
    · rintro hall ⟨b, pre, post, hinside⟩
      obtain ⟨gs, ids, hflat, hassembled, hstuck, htokenize, hspells⟩ :=
        spm_spells (prefixVocab_hasBytes b) hne
      have hmade := prefixVocab_makes hassembled hstuck (hflat.trans hinside.symm)
      have hshorter := contribution_shorter hmade
      obtain ⟨output, houtput, htext⟩ := hall (prefixVocab b) (prefixVocab_hasBytes b)
      rw [htokenize] at houtput
      rw [← Except.ok.inj houtput, hspells] at htext
      rw [htext, hflat, flatten_chars] at hshorter
      exact lt_irrefl _ hshorter
    · intro hno V hV
      apply spm_lossless hV hne
      intro b hb
      exact absurd ⟨b, hb⟩ hno
  · intro hne V hV hnot
    apply spm_lossless hV hne
    intro b _
    exact hnot b
  · intro V sp regexes words hV hwords
    exact bpe_lossless hV hwords

def byteVocab : Vocab := withBytes [] (by simp) (by simp) (by simp)

def charVocab : BpeVocab where
  tokens := (range 256).map fun n => ⟨encoding (byteToCpt n), 0, plainAttr⟩
  distinct := by
    rw [map_map]
    apply List.Nodup.map_on _ nodup_range
    intro n hn n' hn' h
    exact byteChar_injOn (mem_range.mp hn) (mem_range.mp hn') h
  nonempty := by
    intro t ht
    obtain ⟨n, hn, rfl⟩ := mem_map.mp ht
    obtain ⟨b₀, bs, henc, -⟩ := byteChar_spec (UInt8.ofNat n)
    rw [UInt8.toNat_ofNat_of_lt' (mem_range.mp hn)] at henc
    show encoding (byteToCpt n) ≠ []
    rw [henc]
    exact cons_ne_nil b₀ bs
  merges := []
  ignoreMerges := false

theorem charVocab_complete : charVocab.Complete := by
  constructor
  · intro b utf8 h
    rw [byteToUtf8, cptToUtf8_eq (byteToCpt_le b)] at h
    refine ⟨⟨utf8, 0, plainAttr⟩, ?_, rfl⟩
    rw [← Except.ok.inj h]
    exact mem_map.mpr ⟨b.toNat, mem_range.mpr b.toNat_lt, rfl⟩
  · intro pair hpair
    cases hpair

theorem byteVocab_assembled {g : List (List UInt8)} (h : Assembled (joins byteVocab) IsChar g) : ∃ c, g = [c] := by
  induction h with
  | letter h => exact ⟨_, rfl⟩
  | @join u v hu hv huv ihu ihv =>
    obtain ⟨c, rfl⟩ := ihu
    obtain ⟨c', rfl⟩ := ihv
    rcases (withBytes_has).mp huv with ⟨b, hname⟩ | ⟨t, ht, -⟩
    · have hlen := congrArg length (eq_single_byteName (Assembled.join hu hv huv).letters hname)
      simp [single, byteName] at hlen
    · cases ht

/-- `Hi` is spelled where `<0x41>` would not be, `<0x41>` where it is not assembled, and the words of `Hi`. -/
theorem lossless_exact_hi :
    (∃ output, spmTokenize (prefixVocab 0x41) [0x48, 0x69] = .ok output ∧
      spells (prefixVocab 0x41) output = [0x48, 0x69]) ∧
    (∃ output, spmTokenize byteVocab (byteName 0x41) = .ok output ∧ spells byteVocab output = byteName 0x41) ∧
    ∃ output, bpeTokenize charVocab wholeSplitter [] [0x48, 0x69] = .ok output ∧
      texts charVocab.toVocab output = [0x48, 0x69] := by
  refine ⟨?_, ?_, ?_⟩
  · apply ((lossless_exact [0x48, 0x69]).1 (by simp)).mpr _ _ (prefixVocab_hasBytes 0x41)
    rintro ⟨b, hinside⟩
    have hlen : 6 ≤ (chars [0x48, 0x69]).length := hinside.length_le
    exact absurd hlen (by decide)
  · apply (lossless_exact (byteName 0x41)).2.1 (by simp [byteName]) byteVocab
      (hasBytes_of_subset (subset_append_left _ _))
    intro b hb
    obtain ⟨c, hc⟩ := byteVocab_assembled hb
    simp [single, byteName] at hc
  · exact (lossless_exact [0x48, 0x69]).2.2 charVocab wholeSplitter [] [[0x48, 0x69]] charVocab_complete
      (by decide +kernel)

/-- With the tokens `<0`, `<0x`, `<0x4` and `<0x41` the text `<0x41>` becomes the byte token of `A`. -/
theorem name_becomes_byte : (prefixVocab 0x41).HasBytes ∧ byteName 0x41 ≠ [] ∧
    spmTokenize (prefixVocab 0x41) (byteName 0x41) = .ok [0x41] ∧ spells (prefixVocab 0x41) [0x41] = [0x41] ∧
    [0x41] ≠ byteName 0x41 := by
  refine ⟨prefixVocab_hasBytes 0x41, by decide, ?_, ?_, by decide⟩
  · decide +kernel
  · decide +kernel

end Tokenizer
