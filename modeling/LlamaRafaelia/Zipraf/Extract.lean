import LlamaRafaelia.Zipraf.Archive

/-!
# What is extracted from a ZIPRAF archive

Does `raf_zipraf_extract_data` return what was added, and does it stay within the blob on an archive that was loaded
from any file?  Nothing checks the widths of the fields, nor the fields of the file.

* **`extract_added_exact`** - when the data come back;
* **`extract_safe_exact`** - which archives are safe to extract from.
-/

namespace Zipraf

open List

/-! ### Comparing names -/

theorem strcmp_terminated {l : List UInt8} (hl : 0 ∉ l) (pad : List UInt8) (name : CString) :
    strcmp (l ++ 0 :: pad) name.bytes = some (decide (l = name.bytes)) := by
  obtain ⟨name, hname⟩ := name
  show strcmp (l ++ 0 :: pad) name = some (decide (l = name))
  induction l generalizing name with
  | nil =>
    cases name with
    | nil => rfl
    | cons d name =>
      have hd : (0 : UInt8) ≠ d := fun heq => hname (heq ▸ mem_cons_self ..)
      rw [nil_append, strcmp, if_neg hd]
      simp
  | cons c l ih =>
    have hc : c ≠ 0 := fun heq => hl (heq ▸ mem_cons_self ..)
    have hl' : 0 ∉ l := fun hmem => hl (mem_cons_of_mem _ hmem)
    cases name with
    | nil => simp [strcmp, hc]
    | cons d name =>
      rw [cons_append, strcmp]
      by_cases hcd : c = d
      · rw [if_pos hcd, ih hl' name fun hmem => hname (mem_cons_of_mem _ hmem)]
        simp [hcd]
      · rw [if_neg hcd]
        simp [hcd]

theorem strcmp_unterminated {field : List UInt8} (hfield : 0 ∉ field) (name : List UInt8) :
    strcmp field name = if field <+: name then none else some false := by
  induction field generalizing name with
  | nil => simp [strcmp]
  | cons c field ih =>
    have hc : c ≠ 0 := fun heq => hfield (heq ▸ mem_cons_self ..)
    cases name with
    | nil => simp [strcmp, hc]
    | cons d name =>
      rw [strcmp]
      by_cases hcd : c = d
      · rw [if_pos hcd, ih (fun hmem => hfield (mem_cons_of_mem _ hmem))]
        simp [hcd]
      · rw [if_neg hcd]
        simp [hcd]

theorem nul_notMem_takeWhile (field : List UInt8) : 0 ∉ field.takeWhile (· ≠ 0) := by
  induction field with
  | nil => simp
  | cons c field ih =>
    by_cases hc : c = 0
    · simp [hc]
    · rw [takeWhile_cons_of_pos (by simpa using hc)]
      exact not_mem_cons_of_ne_of_not_mem (Ne.symm hc) ih

def Entry.cname (entry : Entry) : CString := ⟨entry.name.1.takeWhile (· ≠ 0), nul_notMem_takeWhile _⟩

theorem exists_pad {field : List UInt8} (h : 0 ∈ field) : ∃ pad, field = field.takeWhile (· ≠ 0) ++ 0 :: pad := by
  induction field with
  | nil => cases h
  | cons c field ih =>
    by_cases hc : c = 0
    · exact ⟨field, by simp [hc]⟩
    · obtain ⟨pad, hpad⟩ := ih (mem_of_ne_of_mem (Ne.symm hc) h)
      refine ⟨pad, ?_⟩
      rw [takeWhile_cons_of_pos (by simpa using hc), cons_append, ← hpad]

theorem Entry.field_eq {entry : Entry} (h : 0 ∈ entry.name.1) :
    ∃ pad, entry.name.1 = entry.cname.bytes ++ 0 :: pad := exists_pad h

theorem Entry.strcmp_eq {entry : Entry} (h : 0 ∈ entry.name.1) (name : CString) :
    strcmp entry.name.1 name.bytes = some (decide (entry.cname.bytes = name.bytes)) := by
  obtain ⟨pad, hfield⟩ := Entry.field_eq h
  rw [hfield]
  exact strcmp_terminated entry.cname.no_nul pad name

/-! ### Loaded archives -/

/-- What makes an archive safe: every name ends within its field, and the entries that can be found lie in the blob. -/
structure Archive.WellFormed (archive : Archive) : Prop where
  terminated : ∀ entry ∈ archive.entries, 0 ∈ entry.name.1
  inside : ∀ pre entry post, archive.entries = pre ++ entry :: post → (∀ e ∈ pre, e.cname ≠ entry.cname) →
    entry.offset.toNat + entry.originalSize.toNat ≤ archive.data.length

theorem readEntry_outOfBounds {data : List UInt8} {entry : Entry} :
    readEntry data entry = .outOfBounds ↔ data.length < entry.offset.toNat + entry.originalSize.toNat := by
  unfold readEntry
  split
  · rename_i hin
    simp only [Nat.not_lt.mpr hin, iff_false]
    split <;> simp
  · rename_i hout
    simpa using hout

theorem CString.ext_bytes {s t : CString} (h : s.bytes = t.bytes) : s = t := by
  obtain ⟨b, hb⟩ := s
  obtain ⟨b', hb'⟩ := t
  obtain rfl : b = b' := h
  rfl

theorem extractLoop_cons {data : List UInt8} {name : CString} {entry : Entry} {rest : List Entry}
    (h : 0 ∈ entry.name.1) : extractLoop data name (entry :: rest) =
      if entry.cname = name then readEntry data entry else extractLoop data name rest := by
  have hiff : entry.cname.bytes = name.bytes ↔ entry.cname = name := ⟨CString.ext_bytes, congrArg CString.bytes⟩
  rw [extractLoop, Entry.strcmp_eq h]
  by_cases heq : entry.cname = name
  · rw [if_pos heq, decide_eq_true (hiff.mpr heq)]
  · rw [if_neg heq, decide_eq_false (mt hiff.mp heq)]

theorem extractLoop_skip {data : List UInt8} {name : CString} {pre : List Entry} (rest : List Entry)
    (hterm : ∀ e ∈ pre, 0 ∈ e.name.1) (hpre : ∀ e ∈ pre, e.cname ≠ name) :
    extractLoop data name (pre ++ rest) = extractLoop data name rest := by
  induction pre with
  | nil => rfl
  | cons e pre ih =>
    rw [cons_append, extractLoop_cons (hterm e (mem_cons_self ..)), if_neg (hpre e (mem_cons_self ..))]
    exact ih (fun e' h => hterm e' (mem_cons_of_mem _ h)) fun e' h => hpre e' (mem_cons_of_mem _ h)

theorem extractLoop_unterminated {data : List UInt8} {entry : Entry} (hentry : 0 ∉ entry.name.1) {entries : List Entry}
    (hmem : entry ∈ entries) : extractLoop data ⟨entry.name.1, hentry⟩ entries = .outOfBounds := by
  induction entries with
  | nil => cases hmem
  | cons e entries ih =>
    rw [extractLoop]
    by_cases hterm : 0 ∈ e.name.1
    · -- a terminated field is shorter than the name
      obtain ⟨pad, hfield⟩ := Entry.field_eq hterm
      have hne : e.cname.bytes ≠ entry.name.1 := by
        intro heq
        have hlen := congrArg List.length hfield
        rw [heq, length_append, length_cons, e.name.2, entry.name.2] at hlen
        omega
      have hmem' : entry ∈ entries := by
        rcases mem_cons.mp hmem with rfl | h
        · exact absurd hterm hentry
        · exact h
      rw [Entry.strcmp_eq hterm, decide_eq_false hne]
      exact ih hmem'
    · rw [strcmp_unterminated hterm]
      by_cases hprefix : e.name.1 <+: entry.name.1
      · rw [if_pos hprefix]
      · have hmem' : entry ∈ entries := by
          rcases mem_cons.mp hmem with rfl | h
          · exact absurd (List.prefix_refl _) hprefix
          · exact h
        rw [if_neg hprefix]
        exact ih hmem'

theorem extractLoop_found {data : List UInt8} {name : CString} {pre : List Entry} {entry : Entry} (post : List Entry)
    (hterm : ∀ e ∈ pre ++ entry :: post, 0 ∈ e.name.1) (hpre : ∀ e ∈ pre, e.cname ≠ name) (hname : entry.cname = name) :
    extractLoop data name (pre ++ entry :: post) = readEntry data entry := by
  rw [extractLoop_skip _ (fun e he => hterm e (by simp [he])) hpre, extractLoop_cons (hterm entry (by simp)),
    if_pos hname]

theorem exists_first {entries : List Entry} {name : CString} (h : ∃ e ∈ entries, e.cname = name) :
    ∃ pre entry post, entries = pre ++ entry :: post ∧ entry.cname = name ∧ ∀ e ∈ pre, e.cname ≠ name := by
  cases hfind : entries.find? fun e => decide (e.cname = name) with
  | none =>
    obtain ⟨e, he, hname⟩ := h
    exact absurd (decide_eq_true hname) (find?_eq_none.mp hfind e he)
  | some entry =>
    obtain ⟨hname, pre, post, hsplit, hpre⟩ := find?_eq_some_iff_append.mp hfind
    refine ⟨pre, entry, post, hsplit, of_decide_eq_true hname, fun e he => ?_⟩
    simpa using hpre e he

/-- **Which archives are safe**: no name leads beyond the blob or beyond a name field, exactly when every name ends within
its field and every entry that is the first of its name lies in the blob; so also of those that were loaded. -/
theorem extract_safe_exact (archive : Archive) :
    (∀ name, extractData archive name ≠ .outOfBounds) ↔ archive.WellFormed := by
  constructor
  · intro hsafe
    have hterm : ∀ entry ∈ archive.entries, 0 ∈ entry.name.1 := by
      intro entry hmem
      by_contra hnot
      exact hsafe ⟨entry.name.1, hnot⟩ (extractLoop_unterminated hnot hmem)
    refine ⟨hterm, fun pre entry post hsplit hpre => ?_⟩
    by_contra hout
    apply hsafe entry.cname
    rw [hsplit] at hterm
    rw [extractData, hsplit, extractLoop_found post hterm hpre rfl, readEntry_outOfBounds]
    omega
  · intro hwf name
    by_cases hfound : ∃ e ∈ archive.entries, e.cname = name
    · obtain ⟨pre, entry, post, hsplit, hname, hpre⟩ := exists_first hfound
      have hterm := hwf.terminated
      have hin := hwf.inside pre entry post hsplit (by rw [hname]; exact hpre)
      rw [hsplit] at hterm
      rw [extractData, hsplit, extractLoop_found post hterm hpre hname, ne_eq, readEntry_outOfBounds]
      omega
    · have hskip := @extractLoop_skip archive.data name archive.entries [] hwf.terminated
        fun e he heq => hfound ⟨e, he, heq⟩
      rw [append_nil] at hskip
      rw [extractData, hskip, extractLoop]
      simp

/-- A file with one entry, "a", of one byte, and no data. -/
def craftedFile : List UInt8 :=
  [0x46, 0x41, 0x52, 0x5A, 1, 0, 0, 0, 1, 0, 0, 0, 0, 0, 0, 0, 0, 0, 0, 0] ++ 97 :: List.replicate 255 0 ++
    [1, 0, 0, 0, 1, 0, 0, 0, 0, 0, 0, 0, 0, 0, 0, 0]

/-- The file is loaded, and extracting "a" reads beyond the blob. -/
theorem crafted_outOfBounds :
    (load craftedFile).map (fun archive => extractData archive ⟨[97], by decide⟩) = some .outOfBounds := by
  decide +kernel

/-! ### Archives that were filled -/

/-- `raf_zipraf_add_data` for every item, with the return values of the calls. -/
def addAll : Archive → List (CString × List UInt8) → List ℤ × Archive
  | archive, [] => ([], archive)
  | archive, item :: items =>
    let (code, archive') := addData archive item.1 item.2
    let (codes, archive'') := addAll archive' items
    (code :: codes, archive'')

def blob (items : List (CString × List UInt8)) : List UInt8 := items.flatMap Prod.snd

/-- The entries of the items, when the first of them stands at `start`. -/
def newEntries : ℕ → List (CString × List UInt8) → List Entry
  | _, [] => []
  | start, item :: items => newEntry item.1 item.2 start :: newEntries (start + item.2.length) items

/-- Every item comes back, from the archive and from the archive that was saved and loaded. -/
def Extracts (items : List (CString × List UInt8)) : Prop :=
  ∀ item ∈ items, extractData (addAll create items).2 item.1 = .ok item.2 ∧
    ∃ loaded, load (save (addAll create items).2) = some loaded ∧ extractData loaded item.1 = .ok item.2

/-- The 32 bits of an entry lead to its data: they are short enough, and where the number of bytes added before them
points, modulo `2 ^ 32`, the blob has these data. -/
def Addressable (items : List (CString × List UInt8)) : Prop :=
  ∀ pre item post, items = pre ++ item :: post →
    item.2.length < 2 ^ 32 ∧ ((blob items).drop ((blob pre).length % 2 ^ 32)).take item.2.length = item.2

theorem addAll_spec (archive : Archive) (items : List (CString × List UInt8))
    (h : ∀ code ∈ (addAll archive items).1, code = 0) :
    (addAll archive items).2.data = archive.data ++ blob items ∧
      (addAll archive items).2.entries = archive.entries ++ newEntries archive.data.length items := by
  induction items generalizing archive with
  | nil => simp [addAll, blob, newEntries]
  | cons item items ih =>
    have hcodes : (addAll archive (item :: items)).1 =
        (addData archive item.1 item.2).1 :: (addAll (addData archive item.1 item.2).2 items).1 := rfl
    rw [hcodes, forall_mem_cons] at h
    obtain ⟨hcode, hrest⟩ := h
    have hroom : archive.entries.length + 1 < 2 ^ 32 ∧ archive.data.length + item.2.length < 2 ^ 64 := by
      by_contra hfull
      rw [addData, dif_neg hfull] at hcode
      cases hcode
    obtain ⟨hdata, hentries⟩ := ih _ hrest
    show (addAll (addData archive item.1 item.2).2 items).2.data = _ ∧
      (addAll (addData archive item.1 item.2).2 items).2.entries = _
    rw [hdata, hentries, addData, dif_pos hroom]
    simp [blob, newEntries]

theorem newEntry_cname {name : CString} (h : name.bytes.length ≤ 255) (data : List UInt8) (start : ℕ) :
    0 ∈ (newEntry name data start).name.1 ∧ (newEntry name data start).cname = name := by
  have hfield : (newEntry name data start).name.1 = name.bytes ++ 0 :: List.replicate (255 - name.bytes.length) 0 := by
    show name.bytes.take 255 ++ List.replicate (256 - (name.bytes.take 255).length) 0 = _
    rw [take_of_length_le h, show 256 - name.bytes.length = (255 - name.bytes.length) + 1 by omega,
      replicate_succ]
  have hnul : 0 ∈ (newEntry name data start).name.1 := by
    rw [hfield]
    simp
  refine ⟨hnul, ?_⟩
  have hcmp := Entry.strcmp_eq hnul name
  rw [hfield, strcmp_terminated name.no_nul] at hcmp
  have hbytes : (newEntry name data start).cname.bytes = name.bytes := by simpa using hcmp
  exact CString.ext_bytes hbytes

theorem extractLoop_added (data : List UInt8) {pre post : List (CString × List UInt8)} {item : CString × List UInt8}
    (hnames : ∀ it ∈ pre ++ item :: post, it.1.bytes.length ≤ 255)
    (hdistinct : ((pre ++ item :: post).map Prod.fst).Nodup) (start : ℕ) :
    extractLoop data item.1 (newEntries start (pre ++ item :: post)) =
      readEntry data (newEntry item.1 item.2 (start + (blob pre).length)) := by
  induction pre generalizing start with
  | nil =>
    obtain ⟨hnul, hcname⟩ := newEntry_cname (hnames item (by simp)) item.2 start
    rw [nil_append, newEntries, extractLoop_cons hnul, if_pos hcname]
    rfl
  | cons it pre ih =>
    obtain ⟨hnul, hcname⟩ := newEntry_cname (hnames it (by simp)) it.2 start
    rw [cons_append, map_cons, nodup_cons] at hdistinct
    have hne : it.1 ≠ item.1 := fun heq => hdistinct.1 (by rw [heq]; simp)
    rw [cons_append, newEntries, extractLoop_cons hnul, if_neg (by rw [hcname]; exact hne),
      ih (fun it' h => hnames it' (by simp [h])) hdistinct.2]
    congr 2
    simp [blob]
    omega

theorem readEntry_added {data : List UInt8} {name : CString} {item : List UInt8} {start : ℕ}
    (hin : start + item.length ≤ data.length) :
    readEntry data (newEntry name item start) = .ok item ↔
      item.length < 2 ^ 32 ∧ (data.drop (start % 2 ^ 32)).take item.length = item := by
  have hoff : (newEntry name item start).offset.toNat = start % 2 ^ 32 := UInt32.toNat_ofNat'
  have hsize : (newEntry name item start).originalSize.toNat = item.length % 2 ^ 32 := UInt32.toNat_ofNat'
  have hle : start % 2 ^ 32 + item.length % 2 ^ 32 ≤ data.length := by
    have h1 := Nat.mod_le start (2 ^ 32)
    have h2 := Nat.mod_le item.length (2 ^ 32)
    omega
  rw [readEntry, hoff, hsize, if_pos hle]
  constructor
  · intro h
    have houtput : (data.drop (start % 2 ^ 32)).take (item.length % 2 ^ 32) = item := by
      by_cases hcrc : crc32 ((data.drop (start % 2 ^ 32)).take (item.length % 2 ^ 32)) = (newEntry name item start).crc32
      · exact Extract.ok.inj ((if_pos hcrc).symm.trans h)
      · cases (if_neg hcrc).symm.trans h
    have hlen := congrArg List.length houtput
    rw [length_take, length_drop] at hlen
    have hshort : item.length % 2 ^ 32 = item.length := by omega
    refine ⟨by have := Nat.mod_lt item.length (by decide : 2 ^ 32 > 0); omega, ?_⟩
    rwa [hshort] at houtput
  · rintro ⟨hshort, houtput⟩
    rw [Nat.mod_eq_of_lt hshort, houtput]
    exact if_pos rfl

theorem extractData_added {items pre post : List (CString × List UInt8)} {item : CString × List UInt8}
    (hsplit : items = pre ++ item :: post) (hnames : ∀ it ∈ items, it.1.bytes.length ≤ 255)
    (hdistinct : (items.map Prod.fst).Nodup) (hcodes : ∀ code ∈ (addAll create items).1, code = 0) :
    extractData (addAll create items).2 item.1 = .ok item.2 ↔
      item.2.length < 2 ^ 32 ∧ ((blob items).drop ((blob pre).length % 2 ^ 32)).take item.2.length = item.2 := by
  obtain ⟨hdata, hentries⟩ := addAll_spec create items hcodes
  have hblob : (addAll create items).2.data = blob items := hdata
  have htable : (addAll create items).2.entries = newEntries 0 items := hentries
  have hin : 0 + (blob pre).length + item.2.length ≤ (blob items).length := by
    rw [hsplit]
    simp [blob]
  rw [extractData, hblob, htable, hsplit, extractLoop_added _ (hsplit ▸ hnames) (hsplit ▸ hdistinct), ← hsplit,
    readEntry_added hin, Nat.zero_add]

/-- **When the data come back**: after calls of `raf_zipraf_add_data` that all return 0, with distinct names of at most
255 bytes, `raf_zipraf_extract_data` returns the data of every item, before and after saving and loading, exactly when
the 32 bits of every entry lead to its data. -/
theorem extract_added_exact (items : List (CString × List UInt8)) (hnames : ∀ item ∈ items, item.1.bytes.length ≤ 255)
    (hdistinct : (items.map Prod.fst).Nodup) (hcodes : ∀ code ∈ (addAll create items).1, code = 0) :
    Extracts items ↔ Addressable items := by
  constructor
  · intro h pre item post hsplit
    have hitem : item ∈ items := by
      rw [hsplit]
      simp
    exact (extractData_added hsplit hnames hdistinct hcodes).mp (h item hitem).1
  · intro h item hitem
    obtain ⟨pre, post, hsplit⟩ := append_of_mem hitem
    have hok := (extractData_added hsplit hnames hdistinct hcodes).mpr (h pre item post hsplit)
    exact ⟨hok, _, load_save _, hok⟩

theorem addressable_of_small {items : List (CString × List UInt8)} (h : (blob items).length < 2 ^ 32) :
    Addressable items := by
  intro pre item post hsplit
  have hblob : blob items = blob pre ++ (item.2 ++ blob post) := by
    rw [hsplit]
    simp [blob]
  have hlen : (blob pre).length + item.2.length ≤ (blob items).length := by
    rw [hblob, length_append, length_append]
    omega
  refine ⟨by omega, ?_⟩
  rw [Nat.mod_eq_of_lt (by omega), hblob, drop_left, take_left]

theorem extract_added_exact_two : Extracts [(⟨[97], by decide⟩, [1, 2, 3]), (⟨[98], by decide⟩, [])] :=
  (extract_added_exact [(⟨[97], by decide⟩, [1, 2, 3]), (⟨[98], by decide⟩, [])] (by decide) (by decide)
    (by decide +kernel)).mpr (addressable_of_small (by decide))

/-- One item of `n` zeros. -/
def zeros (n : ℕ) : List (CString × List UInt8) := [(⟨[97], by decide⟩, List.replicate n 0)]

theorem zeros_not_extracts {n : ℕ} (h : 2 ^ 32 ≤ n) (hn : n < 2 ^ 64) :
    (∀ code ∈ (addAll create (zeros n)).1, code = 0) ∧ ¬ Extracts (zeros n) := by
  have hroom : create.entries.length + 1 < 2 ^ 32 ∧ create.data.length + (List.replicate n (0 : UInt8)).length < 2 ^ 64 := by
    refine ⟨by decide, ?_⟩
    show 0 + (List.replicate n (0 : UInt8)).length < 2 ^ 64
    rw [length_replicate]
    omega
  have hcodes : ∀ code ∈ (addAll create (zeros n)).1, code = 0 := by
    intro code hcode
    have hone : (addAll create (zeros n)).1 = [(addData create ⟨[97], by decide⟩ (List.replicate n 0)).1] := rfl
    rw [hone, mem_singleton, addData, dif_pos hroom] at hcode
    exact hcode
  refine ⟨hcodes, fun hextracts => ?_⟩
  have hitem : (⟨⟨[97], by decide⟩, List.replicate n 0⟩ : CString × List UInt8) ∈ zeros n := mem_singleton.mpr rfl
  have hok := (hextracts _ hitem).1
  have hlen := ((@extractData_added (zeros n) [] [] _ rfl (by simp [zeros]) (by simp [zeros]) hcodes).mp hok).1
  rw [length_replicate] at hlen
  omega

/-- An item of four gibibytes. -/
theorem four_gib_lost :
    (∀ code ∈ (addAll create (zeros (2 ^ 32))).1, code = 0) ∧ ¬ Extracts (zeros (2 ^ 32)) :=
  zeros_not_extracts (Nat.le_refl _) (by decide)

end Zipraf
