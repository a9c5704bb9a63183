import LlamaRafaelia.Lib.Assoc
import LlamaRafaelia.Gguf.Layout
import LlamaRafaelia.Gguf.Setters

/-!
# GGUF: what the setters keep

A context is coherent (`Coherent`) when its pairs have values of their types and distinct keys, its tensors have
distinct names and offsets one after the other, and the alignment is the one that its pairs ask for.  Every setter
puts entries (`Puts`), and every put keeps a context coherent, provided that the key is lone and an entry for the
alignment has the value in use.

* `step_puts` - **what a call does to the pairs**;
* `packed_addTensor`, `packed_retype` - **offsets stay one after the other**, whatever the sizes are.
-/

namespace Gguf

open List Except Assoc

abbrev cKey (e : GgufKv) : List UInt8 := cStr e.key

theorem cStr_eq_self {s : List UInt8} (h : 0 ∉ s) : cStr s = s := by
  refine takeWhile_eq_self_iff.mpr fun c hc => ?_
  simp only [ne_eq, decide_eq_true_eq]
  rintro rfl
  exact h hc

/-! ### Finding and removing -/

theorem ggufRemoveKey_eq (ctx : GgufContext) (key : CString) :
    ggufRemoveKey ctx key = { ctx with kv := remove cKey key.1 ctx.kv } := by
  rw [ggufRemoveKey, remove, eraseP_eq_eraseIdx]
  cases hfind : ggufFindKey ctx.kv key.1 with
  | none =>
    rw [ggufFindKey] at hfind
    rw [hfind]
  | some i =>
    rw [ggufFindKey] at hfind
    rw [hfind]

theorem lookup_of_ggufFindKey {kv : List GgufKv} {key : List UInt8} {i : ℕ} (h : ggufFindKey kv key = some i) :
    lookup cKey key kv = kv[i]? := by
  obtain ⟨hlt, hp, hfirst⟩ := findIdx?_eq_some_iff_getElem.mp h
  rw [getElem?_eq_getElem hlt]
  refine find?_eq_some_iff_getElem.mpr ⟨hp, i, hlt, rfl, fun j hj => ?_⟩
  simpa using hfirst j hj

theorem lookup_eq_none_iff {kv : List GgufKv} {key : List UInt8} :
    Assoc.lookup cKey key kv = none ↔ ggufFindKey kv key = none := by
  rw [Assoc.lookup, find?_eq_none, ggufFindKey, findIdx?_eq_none_iff]
  simp

theorem alignmentOf_eq_ok_iff {kv : List GgufKv} {a : ℕ} :
    alignmentOf kv = .ok a ↔
      lookup cKey ggufKeyGeneralAlignment kv = none ∧ a = ggufDefaultAlignment ∨
      ∃ e, lookup cKey ggufKeyGeneralAlignment kv = some e ∧ e.type = .uint32 ∧ e.data.length = 4 ∧
        a = leNat e.data := by
  rw [alignmentOf]
  cases hfind : ggufFindKey kv ggufKeyGeneralAlignment with
  | none =>
    rw [(lookup_eq_none_iff).mpr hfind]
    simp [eq_comm]
  | some i =>
    have hlt : i < kv.length := (findIdx?_eq_some_iff_getElem.mp hfind).1
    rw [lookup_of_ggufFindKey hfind]
    show ggufGetValU32 kv i = .ok a ↔ _
    rw [ggufGetValU32_eq_ok_iff]
    simp [getElem?_eq_getElem hlt]

/-! ### Entries -/

/-- A pair with a value of its type. -/
structure StorableKv (e : GgufKv) : Prop where
  key_ne : e.key ≠ []
  type_ne : e.type ≠ .array
  count : ∃ n, (e.isArray = false → n = 1) ∧
    if e.type = .string then e.data = [] ∧ e.dataString.length = n
    else e.dataString = [] ∧ e.data.length = n * ggufTypeSize e.type

/-- An entry that a setter makes: its key is a C string, and one for the alignment is a single number of 32 bits that is
a power of two. -/
structure IsEntry (e : GgufKv) : Prop where
  storable : StorableKv e
  nul : 0 ∉ e.key
  reserved : e.key = ggufKeyGeneralAlignment →
    e.isArray = false ∧ e.type = .uint32 ∧ (leNat e.data).isPowerOfTwo

theorem IsEntry.cKey_eq {e : GgufKv} (h : IsEntry e) : cKey e = e.key := cStr_eq_self h.nul

theorem Scalar.type_ne (val : Scalar) : val.type ≠ .array := by cases val <;> simp [Scalar.type]

theorem Scalar.count (val : Scalar) :
    if val.type = .string then val.data = [] ∧ val.dataString.length = 1
    else val.dataString = [] ∧ val.data.length = 1 * ggufTypeSize val.type := by
  cases val <;> simp [Scalar.type, Scalar.data, Scalar.dataString, ggufTypeSize]

theorem emplaceBack_eq_ok {ctx ctx' : GgufContext} {e : GgufKv} (h : emplaceBack ctx e = .ok ctx') :
    e.key ≠ [] ∧ ctx' = { ctx with kv := ctx.kv ++ [e] } := by
  rw [emplaceBack, bind_eq_ok_iff] at h
  obtain ⟨_, hne, h⟩ := h
  rw [ggmlAssert_eq_ok, decide_eq_true_iff] at hne
  exact ⟨hne, (ok.inj h).symm⟩

theorem ggufCheckReservedKeys_eq_ok {key : CString} {val : Scalar} {u : Unit} (h : ggufCheckReservedKeys key val = .ok u)
    (hkey : key.1 = ggufKeyGeneralAlignment) : ∃ v, val = .u32 v ∧ v.toNat.isPowerOfTwo := by
  unfold ggufCheckReservedKeys at h
  rw [if_pos hkey] at h
  split at h
  · rename_i v
    rw [ggmlAssert_eq_ok, decide_eq_true_iff] at h
    exact ⟨v, rfl, Nat.ne_zero_and_sub_one_eq_zero_iff_isPowerOfTwo.mp ⟨by omega, h.2⟩⟩
  · cases h

theorem setVal_eq_ok {ctx ctx' : GgufContext} {key : CString} {val : Scalar} (h : setVal ctx key val = .ok ctx') :
    IsEntry ⟨key.1, false, val.type, val.data, val.dataString⟩ ∧
      ctx' = { ctx with kv := put cKey ⟨key.1, false, val.type, val.data, val.dataString⟩ ctx.kv } := by
  rw [setVal, bind_eq_ok_iff] at h
  obtain ⟨_, hcheck, h⟩ := h
  rw [ggufRemoveKey_eq] at h
  obtain ⟨hne, rfl⟩ := emplaceBack_eq_ok h
  have hkey : cKey ⟨key.1, false, val.type, val.data, val.dataString⟩ = key.1 := cStr_eq_self key.2
  refine ⟨⟨⟨hne, val.type_ne, 1, fun _ => rfl, val.count⟩, key.2, fun hreserved => ?_⟩, ?_⟩
  · dsimp only at hreserved
    obtain ⟨v, rfl, hpow⟩ := ggufCheckReservedKeys_eq_ok hcheck hreserved
    refine ⟨rfl, rfl, ?_⟩
    show (leNat (leBytes 4 v.toNat)).isPowerOfTwo
    rw [leNat_leBytes_of_lt v.toNat_lt]
    exact hpow
  · rw [put, hkey]

theorem ggufTypeSize_dvd (type : GgufType) (h : ggufTypeSize type ≠ 0) : ggufTypeSize type ∣ 2 ^ 64 := by
  revert h
  cases type <;> decide

theorem type_ne_of_size {type : GgufType} (h : ggufTypeSize type ≠ 0) : type ≠ .array ∧ type ≠ .string := by
  constructor
  · rintro rfl
    exact h rfl
  · rintro rfl
    exact h rfl

theorem ggufSetArrData_eq_ok {ctx ctx' : GgufContext} {key : CString} {type : GgufType} {data : ℕ → UInt8} {n : ℕ}
    (h : ggufSetArrData ctx key type data n = .ok ctx') :
    ∃ e, IsEntry e ∧ e.key = key.1 ∧ e.isArray = true ∧ e.type = type ∧
      ctx' = { ctx with kv := put cKey e ctx.kv } := by
  rw [ggufSetArrData, bind_eq_ok_iff] at h
  obtain ⟨_, hcheck, h⟩ := h
  obtain ⟨ctx1, hemp, h⟩ := (bind_eq_ok_iff).mp h
  split at h
  · cases h
  · rename_i hsize
    obtain ⟨_, -, h⟩ := (bind_eq_ok_iff).mp h
    obtain rfl := ok.inj h
    rw [ggufRemoveKey_eq] at hemp
    obtain ⟨hne, rfl⟩ := emplaceBack_eq_ok hemp
    rw [ggufCheckReservedKeysArr, ggmlAssert_eq_ok, decide_eq_true_iff] at hcheck
    obtain ⟨harray, hstring⟩ := type_ne_of_size hsize
    obtain ⟨m, hm⟩ : ggufTypeSize type ∣ n * ggufTypeSize type % 2 ^ 64 :=
      (Nat.dvd_mod_iff (ggufTypeSize_dvd type hsize)).mpr (Nat.dvd_mul_left _ _)
    refine ⟨_, ⟨⟨hne, harray, m, by simp, ?_⟩, key.2, fun h => (hcheck h).elim⟩, rfl, rfl, rfl, ?_⟩
    · rw [if_neg hstring]
      exact ⟨rfl, by rw [slice_length, hm, Nat.mul_comm]⟩
    · rw [put, show cKey ⟨key.1, true, type, _, []⟩ = key.1 from cStr_eq_self key.2]

theorem ggufSetArrStr_eq_ok {ctx ctx' : GgufContext} {key : CString} {data : List CString}
    (h : ggufSetArrStr ctx key data = .ok ctx') :
    ∃ e, IsEntry e ∧ e.key = key.1 ∧ e.isArray = true ∧ e.type = .string ∧
      ctx' = { ctx with kv := put cKey e ctx.kv } := by
  rw [ggufSetArrStr, bind_eq_ok_iff] at h
  obtain ⟨_, hcheck, h⟩ := h
  rw [ggufRemoveKey_eq] at h
  obtain ⟨hne, rfl⟩ := emplaceBack_eq_ok h
  rw [ggufCheckReservedKeysArr, ggmlAssert_eq_ok, decide_eq_true_iff] at hcheck
  refine ⟨_, ⟨⟨hne, by simp, data.length, by simp, ?_⟩, key.2, fun h => (hcheck h).elim⟩, rfl, rfl, rfl, ?_⟩
  · rw [if_pos rfl]
    exact ⟨rfl, by simp⟩
  · rw [put, show cKey ⟨key.1, true, .string, [], _⟩ = key.1 from cStr_eq_self key.2]

theorem getVal_eq_ok {type : GgufType} {kv : GgufKv} {b : List UInt8} (h : getVal type kv 0 = .ok b) :
    ggufTypeSize type ≤ kv.data.length ∧ b = kv.data.take (ggufTypeSize type) := by
  rw [getVal, bind_eq_ok_iff] at h
  obtain ⟨_, -, h⟩ := h
  obtain ⟨_, -, h⟩ := (bind_eq_ok_iff).mp h
  obtain ⟨_, hle, h⟩ := (bind_eq_ok_iff).mp h
  rw [ggmlAssert_eq_ok, decide_eq_true_iff, Nat.zero_add, Nat.one_mul] at hle
  refine ⟨hle, ?_⟩
  rw [Nat.zero_mul, drop_zero] at h
  exact (ok.inj h).symm

theorem scalarOf_eq_ok {kv : GgufKv} {val : Scalar} (h : scalarOf kv = .ok val) :
    val.type = kv.type ∧ (kv.type = .uint32 → val.data = kv.data.take 4) := by
  unfold scalarOf at h
  split at h
  case h_5 htype =>
    obtain ⟨b, hb, h⟩ := (bind_eq_ok_iff).mp h
    obtain ⟨hle, rfl⟩ := getVal_eq_ok hb
    obtain rfl := ok.inj h
    refine ⟨htype.symm, fun _ => ?_⟩
    have hlen : (kv.data.take 4).length = 4 := length_take_of_le hle
    have hlt := leNat_lt (kv.data.take 4)
    rw [hlen] at hlt
    show leBytes 4 (UInt32.ofNat (leNat (kv.data.take 4))).toNat = _
    rw [UInt32.toNat_ofNat_of_lt' hlt]
    nth_rewrite 1 [← hlen]
    exact leBytes_leNat _
  case h_13 => cases h
  all_goals
    rename_i htype
    obtain ⟨b, hb, h⟩ := (bind_eq_ok_iff).mp h
    obtain rfl := ok.inj h
    exact ⟨htype.symm, fun h => by rw [htype] at h; cases h⟩

theorem copyKv_eq_ok {ctx ctx' : GgufContext} {kv : GgufKv} (h : copyKv ctx kv = .ok ctx') :
    ∃ e, IsEntry e ∧ e.key = cStr kv.key ∧ e.isArray = kv.isArray ∧ e.type = kv.type ∧
      (kv.isArray = false → kv.type = .uint32 → e.data = kv.data.take 4) ∧
      ctx' = { ctx with kv := put cKey e ctx.kv } := by
  unfold copyKv at h
  split at h
  · rename_i hA
    obtain ⟨ne, -, h⟩ := (bind_eq_ok_iff).mp h
    split at h
    · rename_i htype
      obtain ⟨e, he, hkey, heA, hetype, rfl⟩ := ggufSetArrStr_eq_ok h
      exact ⟨e, he, hkey, by rw [heA, hA], by rw [hetype, htype], by simp [hA], rfl⟩
    · cases h
    · obtain ⟨e, he, hkey, heA, hetype, rfl⟩ := ggufSetArrData_eq_ok h
      exact ⟨e, he, hkey, by rw [heA, hA], hetype, by simp [hA], rfl⟩
  · rename_i hA
    obtain ⟨val, hval, h⟩ := (bind_eq_ok_iff).mp h
    obtain ⟨htype, hdata⟩ := scalarOf_eq_ok hval
    obtain ⟨he, rfl⟩ := setVal_eq_ok h
    exact ⟨_, he, rfl, by simpa using hA, htype, fun _ => hdata, rfl⟩

/-! ### What a call does to the pairs -/

/-- Entries put one after the other, all of them in `P`. -/
inductive Puts (P : GgufKv → Prop) : GgufContext → GgufContext → Prop
  | refl (ctx : GgufContext) : Puts P ctx ctx
  | put {ctx ctx' : GgufContext} (e : GgufKv) (hP : P e) (he : IsEntry e)
      (rest : Puts P { ctx with kv := put cKey e ctx.kv } ctx') : Puts P ctx ctx'

def Op.Entry : Op → GgufKv → Prop
  | .setVal key val, e => e = ⟨key.1, false, val.type, val.data, val.dataString⟩
  | .setArrData key _ _ _, e => e.key = key.1 ∧ e.isArray = true
  | .setArrStr key _, e => e.key = key.1 ∧ e.isArray = true
  | .setKv src, e => ∃ kv ∈ src.kv, e.key = cStr kv.key ∧ e.isArray = kv.isArray ∧ e.type = kv.type ∧
      (kv.isArray = false → kv.type = .uint32 → e.data = kv.data.take 4)
  | _, _ => False

def Op.PutsEntries : Op → Prop
  | .setVal _ _ => True
  | .setArrData _ _ _ _ => True
  | .setArrStr _ _ => True
  | .setKv _ => True
  | _ => False

theorem foldlM_copyKv_puts {P : GgufKv → Prop} {l : List GgufKv}
    (hP : ∀ kv ∈ l, ∀ e, e.key = cStr kv.key ∧ e.isArray = kv.isArray ∧ e.type = kv.type ∧
      (kv.isArray = false → kv.type = .uint32 → e.data = kv.data.take 4) → P e)
    {ctx ctx' : GgufContext} (h : l.foldlM copyKv ctx = .ok ctx') : Puts P ctx ctx' := by
  induction l generalizing ctx with
  | nil =>
    obtain rfl := ok.inj h
    exact .refl _
  | cons kv l ih =>
    rw [foldlM_cons] at h
    obtain ⟨ctx1, hcopy, h⟩ := (bind_eq_ok_iff).mp h
    obtain ⟨e, he, hkey, hA, htype, hdata, rfl⟩ := copyKv_eq_ok hcopy
    refine .put e (hP kv (mem_cons_self ..) e ⟨hkey, hA, htype, hdata⟩) he (ih (fun kv' hkv' => ?_) h)
    exact hP kv' (mem_cons_of_mem _ hkv')

theorem step_puts {ctx ctx' : GgufContext} {op : Op} (h : step ctx op = .ok ctx') (hop : op.PutsEntries) :
    Puts op.Entry ctx ctx' := by
  cases op with
  | setVal key val =>
    obtain ⟨he, rfl⟩ := setVal_eq_ok h
    exact .put _ rfl he (.refl _)
  | setArrData key type data n =>
    obtain ⟨e, he, hkey, hA, -, rfl⟩ := ggufSetArrData_eq_ok h
    exact .put e ⟨hkey, hA⟩ he (.refl _)
  | setArrStr key data =>
    obtain ⟨e, he, hkey, hA, -, rfl⟩ := ggufSetArrStr_eq_ok h
    exact .put e ⟨hkey, hA⟩ he (.refl _)
  | setKv src => exact foldlM_copyKv_puts (fun kv hkv e he => ⟨kv, hkv, he⟩) h
  | removeKey key => exact hop.elim
  | addTensor tensor => exact hop.elim
  | setTensorType name type => exact hop.elim
  | setTensorData name data => exact hop.elim

/-! ### Offsets -/

/-- The tensors lie one after the other from `s` on, with offsets in words. -/
def Packed (a : ℕ) : ℕ → List GgufTensorInfo → Prop
  | _, [] => True
  | s, ti :: rest => ti.offset = s % 2 ^ 64 ∧ Packed a (s + paddedSize a ti) rest

def totalSize (a : ℕ) (info : List GgufTensorInfo) : ℕ := (info.map (paddedSize a)).sum

theorem packed_append {a s : ℕ} {l m : List GgufTensorInfo} :
    Packed a s (l ++ m) ↔ Packed a s l ∧ Packed a (s + totalSize a l) m := by
  induction l generalizing s with
  | nil => simp [Packed, totalSize]
  | cons ti l ih =>
    rw [cons_append, Packed, Packed, ih, and_assoc]
    simp [totalSize, Nat.add_assoc]

theorem nextOffset_eq {a s : ℕ} {ti : GgufTensorInfo} (h : ti.offset = s % 2 ^ 64) :
    nextOffset a ti = (s + paddedSize a ti) % 2 ^ 64 := by
  rw [nextOffset, h, Nat.mod_add_mod, paddedSize]

theorem packed_addTensor {a : ℕ} {info : List GgufTensorInfo} (h : Packed a 0 info) (t : GgmlTensor) :
    Packed a 0 (info ++ [⟨t, match info.getLast? with
      | none => 0
      | some last => nextOffset a last⟩]) := by
  refine (packed_append).mpr ⟨h, ?_, trivial⟩
  rcases eq_nil_or_concat info with rfl | ⟨l, last, rfl⟩
  · rfl
  · rw [concat_eq_append, getLast?_append_of_ne_nil _ (cons_ne_nil _ _), getLast?_singleton]
    rw [concat_eq_append] at h
    have hlast := ((packed_append).mp h).2.1
    dsimp only
    rw [nextOffset_eq hlast, totalSize, totalSize, map_append, sum_append]
    simp

theorem packed_updateOffsets {a s : ℕ} {prev : GgufTensorInfo} (h : prev.offset = s % 2 ^ 64)
    (rest : List GgufTensorInfo) : Packed a (s + paddedSize a prev) (updateOffsets a prev rest) := by
  induction rest generalizing s prev with
  | nil => trivial
  | cons ti rest ih =>
    have hoff : nextOffset a prev = (s + paddedSize a prev) % 2 ^ 64 := nextOffset_eq h
    exact ⟨hoff, ih hoff⟩

/-- **A new type of a tensor**: the offsets after it are computed again. -/
theorem packed_retype {a s : ℕ} {info : List GgufTensorInfo} (h : Packed a s info) (type : GgmlType) (i : ℕ) :
    Packed a s (retype a type i info) := by
  induction info generalizing s i with
  | nil => cases i <;> trivial
  | cons ti rest ih =>
    cases i with
    | zero =>
      refine ⟨h.1, packed_updateOffsets ?_ rest⟩
      exact h.1
    | succ i => exact ⟨h.1, ih h.2 i⟩

theorem packed_modify {a s : ℕ} {info : List GgufTensorInfo} (h : Packed a s info) (i : ℕ)
    (data : Option (ℕ → UInt8)) :
    Packed a s (info.modify i fun ti => { ti with t := { ti.t with data := data } }) := by
  induction info generalizing s i with
  | nil => cases i <;> trivial
  | cons ti rest ih =>
    cases i with
    | zero => exact h
    | succ i => exact ⟨h.1, ih h.2 i⟩

theorem updateOffsets_names {a : ℕ} {prev : GgufTensorInfo} {rest : List GgufTensorInfo} :
    (updateOffsets a prev rest).map (fun ti => ti.t.name) = rest.map fun ti => ti.t.name := by
  induction rest generalizing prev with
  | nil => rfl
  | cons ti rest ih => rw [updateOffsets, map_cons, ih, map_cons]

theorem retype_names {a : ℕ} {type : GgmlType} {i : ℕ} {info : List GgufTensorInfo} :
    (retype a type i info).map (fun ti => ti.t.name) = info.map fun ti => ti.t.name := by
  induction info generalizing i with
  | nil => cases i <;> rfl
  | cons ti rest ih =>
    cases i with
    | zero => rw [retype, map_cons, updateOffsets_names, map_cons]
    | succ i => rw [retype, map_cons, ih, map_cons]

theorem modify_names {i : ℕ} {info : List GgufTensorInfo} {data : Option (ℕ → UInt8)} :
    (info.modify i fun ti => { ti with t := { ti.t with data := data } }).map (fun ti => ti.t.name)
      = info.map fun ti => ti.t.name := by
  induction info generalizing i with
  | nil => cases i <;> rfl
  | cons ti rest ih =>
    cases i with
    | zero => rfl
    | succ i => rw [modify_succ_cons, map_cons, ih, map_cons]

/-! ### Coherent contexts -/

/-- **A coherent context.** -/
structure Coherent (ctx : GgufContext) : Prop where
  version : ctx.version = 2 ∨ ctx.version = 3
  kv : ∀ e ∈ ctx.kv, StorableKv e
  keys : ctx.kv.Pairwise fun e e' => e.key ≠ e'.key
  alignment : alignmentOf ctx.kv = .ok ctx.alignment
  pow : ctx.alignment.isPowerOfTwo
  names : (ctx.info.map fun ti => ti.t.name).Nodup
  packed : Packed ctx.alignment 0 ctx.info

theorem coherent_empty : Coherent ggufInitEmpty where
  version := .inr rfl
  kv := by simp [ggufInitEmpty]
  keys := List.Pairwise.nil
  alignment := rfl
  pow := ⟨5, rfl⟩
  names := nodup_nil
  packed := trivial

theorem coherent_put {ctx : GgufContext} (h : Coherent ctx) {e : GgufKv} (he : IsEntry e)
    (hlone : Assoc.Lone cKey e.key ctx.kv)
    (halign : e.key = ggufKeyGeneralAlignment → leNat e.data = ctx.alignment) :
    Coherent { ctx with kv := put cKey e ctx.kv } := by
  have hlone' : Assoc.Lone cKey (cKey e) ctx.kv := he.cKey_eq.symm ▸ hlone
  refine ⟨h.version, ?_, ?_, ?_, h.pow, h.names, h.packed⟩
  · intro e' he'
    rcases mem_of_mem_put he' with rfl | he'
    · exact he.storable
    · exact h.kv e' he'
  · refine pairwise_append.mpr ⟨h.keys.sublist remove_sublist, pairwise_singleton _ _, ?_⟩
    intro e1 he1 e2 he2
    rw [mem_singleton.mp he2]
    intro heq
    refine ne_of_mem_remove hlone' he1 ?_
    show cStr e1.key = cStr e.key
    rw [heq]
  · by_cases hkey : e.key = ggufKeyGeneralAlignment
    · obtain ⟨hA, htype, -⟩ := he.reserved hkey
      refine (alignmentOf_eq_ok_iff).mpr (.inr ⟨e, ?_, htype, ?_, (halign hkey).symm⟩)
      · rw [← hkey, ← he.cKey_eq]
        exact lookup_put_self hlone'
      · obtain ⟨n, hn, hcount⟩ := he.storable.count
        rw [htype, if_neg (by simp), hn hA] at hcount
        exact hcount.2
    · have hne : cKey e ≠ ggufKeyGeneralAlignment := he.cKey_eq.symm ▸ hkey
      have halign' := (alignmentOf_eq_ok_iff).mp h.alignment
      rw [← lookup_put_of_ne hne] at halign'
      exact (alignmentOf_eq_ok_iff).mpr halign'

theorem coherent_remove {ctx : GgufContext} (h : Coherent ctx) (key : CString)
    (halign : key.1 = ggufKeyGeneralAlignment →
      Assoc.Lone cKey key.1 ctx.kv ∧
        (ggufFindKey ctx.kv key.1 = none ∨ ctx.alignment = ggufDefaultAlignment)) :
    Coherent (ggufRemoveKey ctx key) := by
  rw [ggufRemoveKey_eq]
  refine ⟨h.version, ?_, h.keys.sublist remove_sublist, ?_, h.pow, h.names, h.packed⟩
  · exact fun e he => h.kv e (remove_sublist.subset he)
  · have halign' := (alignmentOf_eq_ok_iff).mp h.alignment
    refine (alignmentOf_eq_ok_iff).mpr ?_
    by_cases hkey : key.1 = ggufKeyGeneralAlignment
    · obtain ⟨hlone, hnone | hdefault⟩ := halign hkey
      · rw [← lookup_eq_none_iff, hkey] at hnone
        rw [hnone] at halign'
        obtain ⟨-, ha⟩ | ⟨e, he, -⟩ := halign'
        · exact .inl ⟨hkey ▸ lookup_remove_self hlone, ha⟩
        · cases he
      · exact .inl ⟨hkey ▸ lookup_remove_self hlone, hdefault⟩
    · rw [← lookup_remove_of_ne hkey] at halign'
      exact halign'

theorem coherent_puts {P : GgufKv → Prop} {ctx ctx' : GgufContext} (h : Puts P ctx ctx') (hctx : Coherent ctx)
    (hlone : ∀ e, P e → IsEntry e → Assoc.Lone cKey e.key ctx.kv)
    (halign : ∀ e, P e → IsEntry e → e.key = ggufKeyGeneralAlignment → leNat e.data = ctx.alignment) :
    Coherent ctx' := by
  induction h with
  | refl ctx => exact hctx
  | put e hP he _ ih =>
    refine ih (coherent_put hctx he (hlone e hP he) (halign e hP he)) (fun e' hP' he' => ?_) halign
    exact lone_put (hlone e' hP' he')

theorem coherent_info {ctx : GgufContext} (h : Coherent ctx) {info : List GgufTensorInfo}
    (hnames : (info.map fun ti => ti.t.name).Nodup) (hpacked : Packed ctx.alignment 0 info) :
    Coherent { ctx with info := info } :=
  ⟨h.version, h.kv, h.keys, h.alignment, h.pow, hnames, hpacked⟩

theorem ggufAddTensor_eq_ok {ctx ctx' : GgufContext} {tensor : GgmlTensor} (h : ggufAddTensor ctx tensor = .ok ctx') :
    (∀ ti ∈ ctx.info, ti.t.name ≠ tensor.name) ∧
      ctx' = { ctx with info := ctx.info ++ [⟨tensor, match ctx.info.getLast? with
        | none => 0
        | some last => nextOffset ctx.alignment last⟩] } := by
  unfold ggufAddTensor at h
  split at h
  · cases h
  · rename_i hnone
    refine ⟨fun ti hti heq => ?_, (ok.inj h).symm⟩
    have hmem := findIdx?_eq_none_iff.mp hnone ti hti
    simp [heq] at hmem

theorem ggufSetTensorType_eq_ok {ctx ctx' : GgufContext} {name : CString} {type : GgmlType}
    (h : ggufSetTensorType ctx name type = .ok ctx') :
    ∃ i, ctx' = { ctx with info := retype ctx.alignment type i ctx.info } := by
  unfold ggufSetTensorType at h
  split at h
  · cases h
  · rename_i i _
    split at h
    · cases h
    · obtain ⟨_, -, h⟩ := (bind_eq_ok_iff).mp h
      exact ⟨i, (ok.inj h).symm⟩

theorem ggufSetTensorData_eq_ok {ctx ctx' : GgufContext} {name : CString} {data : Option (ℕ → UInt8)}
    (h : ggufSetTensorData ctx name data = .ok ctx') :
    ∃ i, ctx' = { ctx with info := ctx.info.modify i fun ti => { ti with t := { ti.t with data := data } } } := by
  unfold ggufSetTensorData at h
  split at h
  · cases h
  · rename_i i _
    exact ⟨i, (ok.inj h).symm⟩

theorem coherent_addTensor {ctx ctx' : GgufContext} (h : Coherent ctx) {tensor : GgmlTensor}
    (hstep : ggufAddTensor ctx tensor = .ok ctx') : Coherent ctx' := by
  obtain ⟨hfresh, rfl⟩ := ggufAddTensor_eq_ok hstep
  refine coherent_info h ?_ (packed_addTensor h.packed tensor)
  rw [map_append, nodup_append]
  refine ⟨h.names, nodup_singleton _, fun name hname name' hname' => ?_⟩
  obtain ⟨ti, hti, rfl⟩ := mem_map.mp hname
  rw [mem_singleton.mp hname']
  exact hfresh ti hti

theorem coherent_setTensorType {ctx ctx' : GgufContext} (h : Coherent ctx) {name : CString} {type : GgmlType}
    (hstep : ggufSetTensorType ctx name type = .ok ctx') : Coherent ctx' := by
  obtain ⟨i, rfl⟩ := ggufSetTensorType_eq_ok hstep
  refine coherent_info h ?_ (packed_retype h.packed type i)
  rw [retype_names]
  exact h.names

theorem coherent_setTensorData {ctx ctx' : GgufContext} (h : Coherent ctx) {name : CString}
    {data : Option (ℕ → UInt8)} (hstep : ggufSetTensorData ctx name data = .ok ctx') : Coherent ctx' := by
  obtain ⟨i, rfl⟩ := ggufSetTensorData_eq_ok hstep
  refine coherent_info h ?_ (packed_modify h.packed i data)
  rw [modify_names]
  exact h.names

/-! ### Calls that keep a context coherent -/

/-- **When a call keeps the alignment right**: it puts a key that at most one pair has as a C string, and it sets or
copies `general.alignment` only to the value that the context uses, and removes it only if that is the default. -/
def StepOk (ctx : GgufContext) : Op → Prop
  | .setVal key val => Assoc.Lone cKey key.1 ctx.kv ∧
      (key.1 = ggufKeyGeneralAlignment → leNat val.data = ctx.alignment)
  | .setArrData key _ _ _ => Assoc.Lone cKey key.1 ctx.kv
  | .setArrStr key _ => Assoc.Lone cKey key.1 ctx.kv
  | .removeKey key => key.1 = ggufKeyGeneralAlignment → Assoc.Lone cKey key.1 ctx.kv ∧
      (ggufFindKey ctx.kv key.1 = none ∨ ctx.alignment = ggufDefaultAlignment)
  | .setKv src => ∀ kv ∈ src.kv, Assoc.Lone cKey (cStr kv.key) ctx.kv ∧
      (cStr kv.key = ggufKeyGeneralAlignment → leNat (kv.data.take 4) = ctx.alignment)
  | .addTensor _ => True
  | .setTensorType _ _ => True
  | .setTensorData _ _ => True

theorem coherent_step {ctx ctx' : GgufContext} {op : Op} (h : Coherent ctx) (hok : StepOk ctx op)
    (hstep : step ctx op = .ok ctx') : Coherent ctx' := by
  cases op with
  | setVal key val =>
    refine coherent_puts (step_puts hstep trivial) h ?_ ?_
    · rintro e rfl -
      exact hok.1
    · rintro e rfl - hkey
      exact hok.2 hkey
  | setArrData key type data n =>
    refine coherent_puts (step_puts hstep trivial) h ?_ ?_
    · rintro e ⟨hkey, -⟩ -
      exact hkey ▸ hok
    · rintro e ⟨-, hA⟩ he hkey
      rw [(he.reserved hkey).1] at hA
      cases hA
  | setArrStr key data =>
    refine coherent_puts (step_puts hstep trivial) h ?_ ?_
    · rintro e ⟨hkey, -⟩ -
      exact hkey ▸ hok
    · rintro e ⟨-, hA⟩ he hkey
      rw [(he.reserved hkey).1] at hA
      cases hA
  | removeKey key =>
    obtain rfl := ok.inj hstep
    exact coherent_remove h key hok
  | setKv src =>
    refine coherent_puts (step_puts hstep trivial) h ?_ ?_
    · rintro e ⟨kv, hkv, hkey, -⟩ -
      exact hkey ▸ (hok kv hkv).1
    · rintro e ⟨kv, hkv, hkey, hA, htype, hdata⟩ he hreserved
      obtain ⟨hA', htype', -⟩ := he.reserved hreserved
      rw [hdata (hA ▸ hA') (htype ▸ htype')]
      exact (hok kv hkv).2 (hkey ▸ hreserved)
  | addTensor tensor => exact coherent_addTensor h hstep
  | setTensorType name type => exact coherent_setTensorType h hstep
  | setTensorData name data => exact coherent_setTensorData h hstep

/-! ### Keys without NUL -/

def NulFree (kv : List GgufKv) : Prop := ∀ e ∈ kv, 0 ∉ e.key

theorem nulFree_puts {P : GgufKv → Prop} {ctx ctx' : GgufContext} (h : Puts P ctx ctx') (hctx : NulFree ctx.kv) :
    NulFree ctx'.kv := by
  induction h with
  | refl ctx => exact hctx
  | put e _ he _ ih =>
    refine ih fun e' he' => ?_
    rcases mem_of_mem_put he' with rfl | he'
    · exact he.nul
    · exact hctx e' he'

theorem nulFree_step {ctx ctx' : GgufContext} {op : Op} (h : NulFree ctx.kv) (hstep : step ctx op = .ok ctx') :
    NulFree ctx'.kv := by
  cases op with
  | setVal key val => exact nulFree_puts (step_puts hstep trivial) h
  | setArrData key type data n => exact nulFree_puts (step_puts hstep trivial) h
  | setArrStr key data => exact nulFree_puts (step_puts hstep trivial) h
  | setKv src => exact nulFree_puts (step_puts hstep trivial) h
  | removeKey key =>
    obtain rfl := ok.inj hstep
    rw [ggufRemoveKey_eq]
    exact fun e he => h e (remove_sublist.subset he)
  | addTensor tensor =>
    obtain ⟨-, rfl⟩ := ggufAddTensor_eq_ok hstep
    exact h
  | setTensorType name type =>
    obtain ⟨i, rfl⟩ := ggufSetTensorType_eq_ok hstep
    exact h
  | setTensorData name data =>
    obtain ⟨i, rfl⟩ := ggufSetTensorData_eq_ok hstep
    exact h

theorem lone_of_nulFree {kv : List GgufKv} (h : kv.Pairwise fun e e' => e.key ≠ e'.key) (hnul : NulFree kv)
    (key : List UInt8) : Assoc.Lone cKey key kv := by
  refine lone_of_pairwise (h.imp_of_mem fun {e e'} he he' hne => ?_)
  rw [cKey, cKey, cStr_eq_self (hnul e he), cStr_eq_self (hnul e' he')]
  exact hne

/-- The calls that do not touch `general.alignment`. -/
def Op.AvoidsAlignment : Op → Prop
  | .setVal key _ => key.1 ≠ ggufKeyGeneralAlignment
  | .setArrData key _ _ _ => key.1 ≠ ggufKeyGeneralAlignment
  | .setArrStr key _ => key.1 ≠ ggufKeyGeneralAlignment
  | .removeKey key => key.1 ≠ ggufKeyGeneralAlignment
  | .setKv src => ∀ kv ∈ src.kv, cStr kv.key ≠ ggufKeyGeneralAlignment
  | .addTensor _ => True
  | .setTensorType _ _ => True
  | .setTensorData _ _ => True

theorem stepOk_of_avoids {ctx : GgufContext} {op : Op} (h : Coherent ctx) (hnul : NulFree ctx.kv)
    (hop : op.AvoidsAlignment) : StepOk ctx op := by
  have hlone := lone_of_nulFree h.keys hnul
  cases op with
  | setVal key val => exact ⟨hlone _, fun hkey => (hop hkey).elim⟩
  | setArrData key type data n => exact hlone _
  | setArrStr key data => exact hlone _
  | removeKey key => exact fun hkey => (hop hkey).elim
  | setKv src => exact fun kv hkv => ⟨hlone _, fun hkey => (hop kv hkv hkey).elim⟩
  | addTensor tensor => trivial
  | setTensorType name type => trivial
  | setTensorData name data => trivial

/-! ### Runs -/

theorem run_rule {I : GgufContext → Prop} {ops : List Op}
    (hI : ∀ ctx op ctx', op ∈ ops → I ctx → step ctx op = .ok ctx' → I ctx') {ctx ctx' : GgufContext} (h : I ctx)
    (hrun : run ctx ops = .ok ctx') : I ctx' := by
  induction ops generalizing ctx with
  | nil =>
    obtain rfl := ok.inj hrun
    exact h
  | cons op ops ih =>
    rw [run, foldlM_cons] at hrun
    obtain ⟨ctx1, hstep, hrun⟩ := (bind_eq_ok_iff).mp hrun
    exact ih (fun c o c' ho => hI c o c' (mem_cons_of_mem _ ho)) (hI ctx op ctx1 (mem_cons_self ..) h hstep) hrun

theorem coherent_run {ops : List Op} (hops : ∀ op ∈ ops, op.AvoidsAlignment) {ctx : GgufContext}
    (hrun : run ggufInitEmpty ops = .ok ctx) : Coherent ctx := by
  have h : Coherent ctx ∧ NulFree ctx.kv := by
    refine @run_rule (fun ctx => Coherent ctx ∧ NulFree ctx.kv) ops ?_ _ _ ⟨coherent_empty, by simp [NulFree, ggufInitEmpty]⟩ hrun
    rintro ctx op ctx' hop ⟨hctx, hnul⟩ hstep
    exact ⟨coherent_step hctx (stepOk_of_avoids hctx hnul (hops op hop)) hstep, nulFree_step hnul hstep⟩
  exact h.1

end Gguf
