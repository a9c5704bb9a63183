import LlamaRafaelia.Gguf.Faults
import LlamaRafaelia.Gguf.Writer

/-!
# GGUF: a file that was written is read back

What the writer writes for a coherent context is a file of the format, and the reader returns the pairs and the tensors
that were written.

* `kvRecord_kvBytes`, `infoRecord_writeTensorMeta` - **what is written is a record of the format**;
* `reads_fileBytes` - **the file of a coherent context is read back**;
* `write_then_read` - **the same for every run of the setters** that does not touch `general.alignment`.

How much memory reading takes is bounded by `64` times the size of the metadata, and the size of the data section when
it is loaded (`readMemory`).
-/

namespace Gguf

open List ByteReader

/-! ### Strides -/

theorem contiguousDim_eq {ne nb s : ℕ} (hs : s < 2 ^ 64) (b : Bool) :
    contiguousDim ne nb (b, s) = (b && decide (ne = 1 ∨ nb = s), s * ne % 2 ^ 64) := by
  rw [contiguousDim]
  by_cases hne : ne = 1
  · rw [if_pos hne, hne, Nat.mul_one, Nat.mod_eq_of_lt hs]
    simp
  · rw [if_neg hne]
    simp [hne]

theorem contiguous_iff (t : GgmlTensor) :
    ggmlIsContiguous t = true ↔ (t.ne.d0 = ggmlBlckSize t.type ∨ t.nb.d0 = ggmlTypeSize t.type) ∧
      (t.ne.d1 = 1 ∨ t.nb.d1 = (strides t.type t.ne).d1) ∧ (t.ne.d2 = 1 ∨ t.nb.d2 = (strides t.type t.ne).d2) ∧
      (t.ne.d3 = 1 ∨ t.nb.d3 = (strides t.type t.ne).d3) := by
  have hword : ∀ x, x % 2 ^ 64 < 2 ^ 64 := fun x => Nat.mod_lt x (by decide)
  rw [ggmlIsContiguous]
  rw [contiguousDim_eq (hword _), contiguousDim_eq (hword _), contiguousDim_eq (hword _)]
  simp only [Bool.and_eq_true, decide_eq_true_eq, and_assoc]
  rfl

/-- The description that is read back: strides are computed again, and there is no data. -/
def readBack (ti : GgufTensorInfo) : GgufTensorInfo :=
  ⟨⟨ti.t.name, ti.t.type, ti.t.ne, strides ti.t.type ti.t.ne, none⟩, ti.offset⟩

/-- What the reader asks of a tensor: whole blocks, a number of elements that passes the check, and for a type with
blocks the stride of its first dimension, which `ggml_is_contiguous` does not look at when there is one block. -/
structure Readable (t : GgmlTensor) : Prop where
  blck : t.ne.d0 % ggmlBlckSize t.type = 0
  nelements : NelementsOk t.ne
  stride : 1 < ggmlBlckSize t.type → t.nb.d0 = ggmlTypeSize t.type

theorem mul_stride {ne nb nb' : ℕ} (h : ne = 1 ∨ nb = nb') : (ne - 1) * nb = (ne - 1) * nb' := by
  rcases h with rfl | rfl
  · simp
  · rfl

/-- **The byte size of a contiguous tensor** is the same with the strides that the reader computes. -/
theorem nbytes_readBack {ti : GgufTensorInfo} (hcont : ggmlIsContiguous ti.t = true) (h : Readable ti.t) :
    ggmlNbytes (readBack ti).t = ggmlNbytes ti.t := by
  obtain ⟨h0, h1, h2, h3⟩ := (contiguous_iff ti.t).mp hcont
  have hrest := congrArg₂ (· + ·) (congrArg₂ (· + ·) (mul_stride h1) (mul_stride h2)) (mul_stride h3)
  rw [ggmlNbytes, ggmlNbytes]
  dsimp only [readBack]
  rw [hrest]
  by_cases hone : ggmlBlckSize ti.t.type = 1
  · rw [hone] at h0
    simp only [hone, if_true, mul_stride h0]
    rfl
  · have hblck := ggmlBlckSize_pos ti.t.type
    rw [h.stride (by omega)]
    rfl

/-! ### Records -/

/-- Objects of up to `n` bytes can be made. -/
def Roomy (mem : Memory) (n : ℕ) : Prop := ∀ k ≤ n, mem.has k = true

theorem Roomy.mono {mem : Memory} {n m : ℕ} (h : Roomy mem n) (hle : m ≤ n) : Roomy mem m :=
  fun k hk => h k (hk.trans hle)

theorem Roomy.lt {mem : Memory} {n : ℕ} (h : Roomy mem n) : n < 2 ^ 63 := mem.max n (h n le_rfl)

def BoolBytes (e : GgufKv) : Prop := e.type = .bool → ∀ b ∈ e.data, b = 0 ∨ b = 1

theorem map_boolByte {l : List UInt8} (h : ∀ b ∈ l, b = 0 ∨ b = 1) : l.map boolByte = l := by
  have hid : ∀ b ∈ l, boolByte b = id b := by
    intro b hb
    rcases h b hb with rfl | rfl
    · rfl
    · rfl
  rw [map_congr_left hid, map_id]

theorem stringBytes_length (s : List UInt8) : (stringBytes s).length = 8 + s.length := by
  rw [stringBytes, length_append, leBytes_length]

theorem le_flatMap_length {α : Type} {f : α → List UInt8} {l : List α} {x : α} (h : x ∈ l) :
    (f x).length ≤ (l.flatMap f).length := by
  obtain ⟨s, t, rfl⟩ := append_of_mem h
  rw [flatMap_append, flatMap_cons, length_append, length_append]
  omega

theorem mul_length_le_flatMap {α : Type} {f : α → List UInt8} {c : ℕ} {l : List α} (h : ∀ x ∈ l, c ≤ (f x).length) :
    l.length * c ≤ (l.flatMap f).length := by
  induction l with
  | nil => simp
  | cons x l ih =>
    have hx := h x (mem_cons_self ..)
    have hl := ih fun y hy => h y (mem_cons_of_mem _ hy)
    rw [length_cons, Nat.succ_mul, flatMap_cons, length_append]
    omega

theorem kvBytes_length (e : GgufKv) : 12 + e.key.length + e.valueBytes.length ≤ (kvBytes e).length := by
  have htype : 4 ≤ (typeBytes e.isArray e.type e.count).length := by
    rw [typeBytes]
    split <;> simp
  rw [kvBytes, headBytes, length_append, length_append, stringBytes_length]
  omega

section

variable {mem : Memory}

theorem values_valueBytes {e : GgufKv} (h : StorableKv e) (hbool : BoolBytes e) (hmem : Roomy mem e.valueBytes.length) :
    e.count ≤ e.valueBytes.length ∧ e.data.length ≤ e.valueBytes.length ∧
      vectorBytes e.type e.count ≤ 4 * e.valueBytes.length + 8 ∧
      Values mem e.type e.count e.valueBytes (e.data, e.dataString) := by
  obtain ⟨-, hcount⟩ := h.count_eq
  have hne := h.type_ne
  rw [GgufKv.valueBytes] at hmem ⊢
  cases htype : e.type with
  | string =>
    rw [htype, if_pos rfl] at hcount
    rw [htype] at hmem
    dsimp only at hmem ⊢
    have hstrings : e.dataString.length * 8 ≤ (e.dataString.flatMap stringBytes).length :=
      mul_length_le_flatMap fun s _ => by rw [stringBytes_length]; omega
    have hsize : sizeofString = 32 := rfl
    refine ⟨by omega, by simp [hcount.1], ?_, hcount.1, hcount.2, rfl, fun s hs => hmem _ ?_⟩
    · rw [vectorBytes, hsize]
      omega
    · have hle : (stringBytes s).length ≤ (e.dataString.flatMap stringBytes).length := le_flatMap_length hs
      rw [stringBytes_length] at hle
      omega
  | bool =>
    rw [htype, if_neg (by simp), show ggufTypeSize .bool = 1 from rfl, Nat.mul_one] at hcount
    dsimp only
    rw [map_boolByte (hbool htype)]
    refine ⟨by omega, le_rfl, ?_, by omega, ?_⟩
    · rw [vectorBytes]
      omega
    · rw [map_boolByte (hbool htype), hcount.1]
  | array => exact (hne htype).elim
  | _ =>
    rw [htype, if_neg (by simp)] at hcount
    obtain ⟨hnil, hpos, hlen⟩ := hcount
    dsimp only
    have hle : e.count ≤ e.data.length := hlen ▸ Nat.le_mul_of_pos_right _ hpos
    refine ⟨hle, le_rfl, ?_, hlen, by rw [hnil]⟩
    show e.count * _ ≤ _
    rw [← hlen]
    omega

theorem kvRecord_kvBytes {kv : List GgufKv} {e : GgufKv} (h : StorableKv e) (hbool : BoolBytes e)
    (hfresh : ∀ e' ∈ kv, e'.key ≠ e.key) (hmem : Roomy mem (4 * (kvBytes e).length)) :
    KvRecord mem kv (kvBytes e) (kv ++ [e]) := by
  have hlen := kvBytes_length e
  have hlt := hmem.lt
  obtain ⟨hcount, hdata, hvector, hvalues⟩ := values_valueBytes h hbool (hmem.mono (by omega))
  refine ⟨e, e.count, e.valueBytes, rfl, ⟨hmem _ (by omega), hfresh, h.type_ne, by omega, h.count_eq.1⟩,
    ⟨fun _ => hmem _ (by omega), hvalues⟩, h.key_ne, fun _ => hmem _ (by omega), rfl⟩

theorem records_kvBytes {kv : List GgufKv} (h : ∀ e ∈ kv, StorableKv e) (hbool : ∀ e ∈ kv, BoolBytes e)
    (hkeys : kv.Pairwise fun e e' => e.key ≠ e'.key) (hmem : Roomy mem (4 * (kv.flatMap kvBytes).length)) :
    Records (KvRecord mem) kv.length [] (kv.flatMap kvBytes) kv := by
  have hrecords := @Records.ofList GgufKv GgufKv (KvRecord mem) kvBytes id kv [] fun pre e post hkv => by
    have he : e ∈ kv := by rw [hkv]; simp
    rw [nil_append, map_id]
    refine kvRecord_kvBytes (h e he) (hbool e he) (fun e' he' => ?_) (hmem.mono ?_)
    · rw [hkv] at hkeys
      exact (pairwise_append.mp hkeys).2.2 e' he' e (mem_cons_self ..)
    · have := @le_flatMap_length _ kvBytes _ _ he
      omega
  rw [map_id] at hrecords
  exact hrecords

theorem ggmlSetName_self (name : TensorName) : ggmlSetName name.1 = name := by
  have hmax : ggmlMaxName = 64 := rfl
  have hlt := name.2.1
  refine Subtype.ext ?_
  show (cStr name.1).take (ggmlMaxName - 1) = name.1
  rw [cStr_eq_self name.2.2, take_of_length_le (by omega)]

theorem isShape_ggmlNDims {t : GgmlTensor} (h : NelementsOk t.ne) : IsShape (ggmlNDims t) t.ne := by
  obtain ⟨h1, h2, h3⟩ := h.ne_zero
  have hlt : ∀ x d, x < int64Max / d → x < 2 ^ 63 ∧ d < 2 ^ 63 := by
    intro x d hx
    have hmax : int64Max = 2 ^ 63 - 1 := rfl
    have hle := Nat.div_le_self int64Max d
    refine ⟨by omega, ?_⟩
    by_contra hd
    rw [Nat.div_eq_of_lt (by omega)] at hx
    omega
  refine ⟨?_, ?_, ?_⟩
  · rw [ggmlNDims, ggmlMaxDims]
    split_ifs <;> omega
  · simp only [Dims.toList, mem_cons, not_mem_nil, or_false, forall_eq_or_imp, forall_eq]
    exact ⟨(hlt _ _ h.1).1, (hlt _ _ h.1).2, (hlt _ _ h.2.1).2, (hlt _ _ h.2.2).2⟩
  · rw [ggmlNDims]
    split_ifs with hd3 hd2 hd1
    · simp [Dims.toList]
    · simp only [Dims.toList, drop_succ_cons, drop_zero, mem_cons, not_mem_nil, or_false, forall_eq]
      omega
    · simp only [Dims.toList, drop_succ_cons, drop_zero, mem_cons, not_mem_nil, or_false,
        forall_eq_or_imp, forall_eq]
      omega
    · simp only [Dims.toList, drop_succ_cons, drop_zero, mem_cons, not_mem_nil, or_false,
        forall_eq_or_imp, forall_eq]
      omega

theorem writeTensorMeta_length (ti : GgufTensorInfo) :
    32 + ti.t.name.1.length ≤ (writeTensorMeta ti).length := by
  have hdims : 1 ≤ ggmlNDims ti.t := by
    rw [ggmlNDims]
    split_ifs <;> omega
  have hshape : 12 ≤ (shapeBytes (ggmlNDims ti.t) ti.t.ne).length := by
    rw [shapeBytes, length_append, leBytes_length, flatMap_length_of_rows (leBytes_length 8), length_take]
    simp only [Dims.toList, length_cons, length_nil]
    omega
  rw [writeTensorMeta, length_append, length_append, length_append, stringBytes_length, leBytes_length,
    leBytes_length]
  omega

/-- **What is written for a tensor description is a record of the format.** -/
theorem infoRecord_writeTensorMeta {info : List GgufTensorInfo} {ti : GgufTensorInfo} (h : Readable ti.t)
    (hoff : ti.offset < 2 ^ 64) (hfresh : ∀ ti' ∈ info, ti'.t.name ≠ ti.t.name)
    (hmem : Roomy mem (writeTensorMeta ti).length) : InfoRecord mem info (writeTensorMeta ti) (info ++ [readBack ti]) := by
  have hlen := writeTensorMeta_length ti
  refine ⟨ti.t.name.1, ggmlNDims ti.t, ti.t.ne, ti.t.type, ti.offset, rfl, ⟨hmem _ (by omega), ti.t.name.2.1, ?_⟩,
    isShape_ggmlNDims h.nelements, h.nelements, h.blck, hoff, ?_⟩
  · rw [ggmlSetName_self]
    exact hfresh
  · rw [ggmlSetName_self]
    rfl

theorem records_writeTensorMeta {info : List GgufTensorInfo} (h : ∀ ti ∈ info, Readable ti.t)
    (hoff : ∀ ti ∈ info, ti.offset < 2 ^ 64) (hnames : (info.map fun ti => ti.t.name).Nodup)
    (hmem : Roomy mem (info.flatMap writeTensorMeta).length) :
    Records (InfoRecord mem) info.length [] (info.flatMap writeTensorMeta) (info.map readBack) := by
  refine @Records.ofList _ _ (InfoRecord mem) writeTensorMeta readBack info [] fun pre ti post hinfo => ?_
  have hti : ti ∈ info := by rw [hinfo]; simp
  rw [nil_append]
  refine infoRecord_writeTensorMeta (h ti hti) (hoff ti hti) (fun ti' hti' => ?_) (hmem.mono (le_flatMap_length hti))
  obtain ⟨ti'', hmem'', rfl⟩ := mem_map.mp hti'
  rw [hinfo, map_append, nodup_append] at hnames
  exact hnames.2.2 _ (mem_map_of_mem hmem'') _ (mem_cons_self ..)

/-! ### The metadata -/

def readContext (ctx : GgufContext) : GgufContext :=
  ⟨ctx.version, ctx.kv, ctx.info.map readBack, ctx.alignment, 0, 0, none⟩

theorem packed_offset_lt {a s : ℕ} {info : List GgufTensorInfo} (h : Packed a s info) :
    ∀ ti ∈ info, ti.offset < 2 ^ 64 := by
  induction info generalizing s with
  | nil => simp
  | cons ti rest ih =>
    intro ti' hti'
    rcases mem_cons.mp hti' with rfl | hti'
    · rw [h.1]
      exact Nat.mod_lt _ (by decide)
    · exact ih h.2 ti' hti'

theorem metaBytes_length (ctx : GgufContext) :
    24 + ctx.kv.length * 12 + ctx.info.length * 32 ≤ (metaBytes ctx).length ∧
      (ctx.kv.flatMap kvBytes).length ≤ (metaBytes ctx).length ∧
      (ctx.info.flatMap writeTensorMeta).length ≤ (metaBytes ctx).length := by
  have hheader : (headerBytes ctx.version ctx.info.length ctx.kv.length).length = 24 := by
    simp [headerBytes, ggufMagic]
  have hkv : ctx.kv.length * 12 ≤ (ctx.kv.flatMap kvBytes).length :=
    mul_length_le_flatMap fun e _ => by
      have := kvBytes_length e
      omega
  have hinfo : ctx.info.length * 32 ≤ (ctx.info.flatMap writeTensorMeta).length :=
    mul_length_le_flatMap fun ti _ => by
      have := writeTensorMeta_length ti
      omega
  rw [metaBytes, length_append, length_append, hheader]
  omega

/-- **The metadata of a coherent context is metadata of the format.** -/
theorem metaBytes_metaBytes {ctx : GgufContext} (h : Coherent ctx) (hbool : ∀ e ∈ ctx.kv, BoolBytes e)
    (hinfo : ∀ ti ∈ ctx.info, Readable ti.t) (hmem : Roomy mem (64 * (metaBytes ctx).length)) :
    MetaBytes mem (metaBytes ctx) (readContext ctx) := by
  obtain ⟨hlen, hkvlen, hinfolen⟩ := metaBytes_length ctx
  have hlt := hmem.lt
  have hlength : (ctx.info.map readBack).length = ctx.info.length := length_map ..
  have hkv := records_kvBytes h.kv hbool h.keys (hmem.mono (by omega))
  refine ⟨ctx.kv.flatMap kvBytes, ctx.info.flatMap writeTensorMeta, ?_, ⟨h.version, ?_, ?_⟩,
    hkv, h.alignment, h.pow, ?_, rfl, rfl, rfl⟩
  · dsimp only [readContext]
    rw [hlength]
    rfl
  · dsimp only [readContext]
    rw [hlength]
    have hmax : sizeMax / sizeofGgufTensorInfo = 53624256028225440 := by decide
    omega
  · dsimp only [readContext]
    have hmax : sizeMax / sizeofGgufKv = 209622091746699450 := by decide
    omega
  · dsimp only [readContext]
    rw [hlength]
    exact records_writeTensorMeta hinfo (packed_offset_lt h.packed) h.names (hmem.mono (by omega))

/-! ### The data section -/

/-- **The offsets that the setters keep** are those that the reader asks for. -/
theorem dataSize_readBack {a s : ℕ} {info : List GgufTensorInfo} (hpacked : Packed a s info)
    (hcont : ∀ ti ∈ info, ggmlIsContiguous ti.t = true) (h : ∀ ti ∈ info, Readable ti.t)
    (hle : s + totalSize a info ≤ sizeMax) :
    dataSize a s (info.map readBack) = some (s + totalSize a info) := by
  induction info generalizing s with
  | nil => rfl
  | cons ti info ih =>
    have hti : ti ∈ ti :: info := mem_cons_self ..
    have hpad : paddedSize a (readBack ti) = paddedSize a ti := by
      rw [paddedSize, nbytes_readBack (hcont ti hti) (h ti hti), paddedSize]
    have htotal : totalSize a (ti :: info) = paddedSize a ti + totalSize a info := by
      rw [totalSize, map_cons, sum_cons, totalSize]
    have hmax : sizeMax = 2 ^ 64 - 1 := rfl
    rw [htotal] at hle ⊢
    rw [map_cons, dataSize_cons, hpad]
    refine ⟨?_, by omega, ?_⟩
    · show ti.offset = s
      rw [hpacked.1, Nat.mod_eq_of_lt (by omega)]
    · rw [ih hpacked.2 (fun x hx => hcont x (mem_cons_of_mem _ hx)) (fun x hx => h x (mem_cons_of_mem _ hx))
        (by omega), Nat.add_assoc]

theorem poolSize_bounds {total : ℕ} (h : total + 16 ≤ 2 ^ 64) :
    total ≤ poolSize total ∧ 0 < poolSize total ∧ poolSize total ≤ total + 16 ∧
      (0 < total → poolSize total = (total + 15) / 16 * 16) := by
  have halign : ggmlMemAlign = 16 := rfl
  rw [poolSize, Nat.mod_eq_of_lt (by omega), halign]
  rcases Nat.eq_zero_or_pos total with rfl | hpos
  · decide
  · rw [if_neg hpos.ne', ggmlPad_of_le ⟨4, rfl⟩ h]
    omega

theorem not_fatalLoad_noAlloc {n size available : ℕ} (hmem : Roomy mem (n * ggmlTensorOverhead + 16)) :
    ¬FatalLoad mem true n size available := by
  have hlt := hmem.lt
  obtain ⟨hle, hpos, hbound, -⟩ := poolSize_bounds (show n * ggmlTensorOverhead + 16 ≤ 2 ^ 64 by omega)
  rw [FatalLoad, if_pos rfl]
  dsimp only
  rintro (hzero | hno | ⟨-, hfull⟩)
  · omega
  · rw [hmem _ hbound] at hno
    cases hno
  · omega

theorem not_fatalLoad_data {n size available : ℕ} (hmem : Roomy mem ((n + 1) * ggmlTensorOverhead + size + 16)) :
    ¬FatalLoad mem false n size available := by
  have hlt := hmem.lt
  have hoverhead : ggmlTensorOverhead = 368 := rfl
  obtain ⟨hle, hpos, hbound, hpool⟩ :=
    poolSize_bounds (show (n + 1) * ggmlTensorOverhead + size + 16 ≤ 2 ^ 64 by omega)
  have hblob : blobEnd size = (336 + size + 15) / 16 * 16 + 32 := by
    rw [blobEnd, show ggmlTensorSize = 336 from rfl, show ggmlMemAlign = 16 from rfl, show ggmlObjectSize = 32 from rfl,
      Nat.mod_eq_of_lt (show 336 + size < 2 ^ 64 by omega), ggmlPad_of_le ⟨4, rfl⟩ (by omega), Nat.mod_eq_of_lt (by omega)]
    omega
  specialize hpool (by rw [hoverhead]; omega)
  have hsum : blobEnd size + n * ggmlTensorOverhead ≤ poolSize ((n + 1) * ggmlTensorOverhead + size) := by
    rw [hblob, hpool, hoverhead]
    omega
  rw [FatalLoad, if_neg (by simp)]
  dsimp only
  rintro (hzero | hno | hfull | hread | ⟨-, -, hfull⟩)
  · omega
  · rw [hmem _ hbound] at hno
    cases hno
  · omega
  · have hmin := Nat.min_le_right available size
    rw [Nat.add_mul] at hle
    omega
  · omega

def loadResult (params : GgufInitParams) (ctx : GgufContext) (data : List UInt8) : Loaded :=
  if params.noAlloc then ⟨ctx, some (ctx.info.map (loadedTensor true))⟩
  else ⟨{ ctx with data := some (data.take ctx.size) }, some (ctx.info.map (loadedTensor false))⟩

theorem createTensors_eq_ok {noAlloc : Bool} {pool : GgmlContext} {info : List GgufTensorInfo}
    (hlt : pool.memSize < 2 ^ 64) (h : ¬Overfull pool.memSize pool.used info.length) :
    createTensors noAlloc pool info = .ok (info.map (loadedTensor noAlloc)) := by
  cases hcreate : createTensors noAlloc pool info with
  | ok tensors => rw [createTensors_eq hcreate]
  | error f => exact (h ((createTensors_eq_error_iff hlt).mp ⟨f, hcreate⟩)).elim

theorem loadData_eq_ok {params : GgufInitParams} {ctx : GgufContext} {data : List UInt8}
    (h : ¬FatalLoad mem params.noAlloc ctx.info.length ctx.size data.length) (hdata : ctx.size ≤ data.length) :
    loadData mem params ctx data = .ok (some (loadResult params ctx data)) := by
  rw [FatalLoad] at h
  rw [loadData, loadResult]
  cases hno : params.noAlloc with
  | true =>
    rw [hno, if_pos rfl] at h
    simp only [not_or, Bool.not_eq_false] at h
    obtain ⟨hne, hmem, hfull⟩ := h
    simp only [if_true]
    refine (Except.bind_eq_ok_iff).mpr ⟨_, (ggmlInit_eq_ok_iff).mpr ⟨hne, hmem, rfl⟩, ?_⟩
    have hlt := (mem.max _ hmem).trans (by decide : 2 ^ 63 < 2 ^ 64)
    exact (Except.bind_eq_ok_iff).mpr ⟨_, @createTensors_eq_ok _ ⟨_, _⟩ _ hlt hfull, rfl⟩
  | false =>
    rw [hno, if_neg (by simp)] at h
    simp only [not_or, Bool.not_eq_false, not_and] at h
    obtain ⟨hne, hmem, hblob, hread, hfull⟩ := h
    have hlt := (mem.max _ hmem).trans (by decide : 2 ^ 63 < 2 ^ 64)
    simp only [Bool.false_eq_true, if_false]
    refine (Except.bind_eq_ok_iff).mpr ⟨_, (ggmlInit_eq_ok_iff).mpr ⟨hne, hmem, rfl⟩, ?_⟩
    rw [ggmlNewTensorImpl_blob, if_neg hblob, if_neg fun hshort => hread (Nat.lt_add_right _ hshort)]
    refine (Except.bind_eq_ok_iff).mpr ⟨_, rfl, ?_⟩
    rw [if_neg hread, if_neg (Nat.not_lt.mpr hdata)]
    exact (Except.bind_eq_ok_iff).mpr ⟨_, @createTensors_eq_ok _ ⟨_, _⟩ _ hlt (hfull hdata), rfl⟩

/-! ### Reading the file back -/

def readMemory (params : GgufInitParams) (ctx : GgufContext) : ℕ :=
  64 * (metaBytes ctx).length + if params.ctx && !params.noAlloc then totalSize ctx.alignment ctx.info else 0

/-- A context whose file can be written and read back, on a machine where each tensor can be copied: booleans are 0 or
1, tensors are contiguous, have data and pass the reader's checks, and the data section is not larger than a word. -/
structure Complete (mem : Memory) (ctx : GgufContext) : Prop where
  bools : ∀ e ∈ ctx.kv, BoolBytes e
  stored : ∀ ti ∈ ctx.info, Stored mem ti.t
  readable : ∀ ti ∈ ctx.info, Readable ti.t
  total : totalSize ctx.alignment ctx.info ≤ sizeMax

def finalContext (ctx : GgufContext) : GgufContext :=
  { readContext ctx with
    offset := (metaBytes ctx).length + zeros ctx.alignment (metaBytes ctx).length
    size := totalSize ctx.alignment ctx.info }

def readResult (params : GgufInitParams) (ctx : GgufContext) : Loaded :=
  if params.ctx then loadResult params (finalContext ctx) (ctx.info.flatMap (dataBytes ctx.alignment))
  else ⟨finalContext ctx, none⟩

theorem reads_fileBytes {mem' : Memory} {ctx : GgufContext} (h : Coherent ctx) (hctx : Complete mem' ctx)
    {params : GgufInitParams} (hmem : Roomy mem (readMemory params ctx)) :
    ggufInitFromFileImpl mem params (fileBytes ctx) = .ok (some (readResult params ctx)) := by
  have hroom : Roomy mem (64 * (metaBytes ctx).length) := hmem.mono (Nat.le_add_right _ _)
  have hlt := hroom.lt
  have ha := alignmentOf_lt h.alignment
  obtain ⟨hlen, -, -⟩ := metaBytes_length ctx
  have hread := reads_readMeta.apply (metaBytes_metaBytes h hctx.bools hctx.readable hroom)
  have hoffset : ggmlPad (metaBytes ctx).length (readContext ctx).alignment
      = (metaBytes ctx).length + zeros ctx.alignment (metaBytes ctx).length := (add_zeros h.pow (by omega)).symm
  have hzeros : zeros ctx.alignment (metaBytes ctx).length < ctx.alignment :=
    Nat.mod_lt _ (Nat.pos_of_isPowerOfTwo h.pow)
  have hsize : dataSize (readContext ctx).alignment 0 (readContext ctx).info
      = some (totalSize ctx.alignment ctx.info) := by
    have hpacked := dataSize_readBack h.packed (fun ti hti => (hctx.stored ti hti).contiguous) hctx.readable
      (by rw [Nat.zero_add]; exact hctx.total)
    rw [Nat.zero_add] at hpacked
    exact hpacked
  have hdata : (fileBytes ctx).drop ((metaBytes ctx).length + zeros ctx.alignment (metaBytes ctx).length)
      = ctx.info.flatMap (dataBytes ctx.alignment) := by
    rw [fileBytes, ← append_assoc]
    exact drop_left' (by simp)
  have hdatalen := flatMap_dataBytes_length h.pow (by omega) hctx.stored
  rw [ggufInitFromFileImpl, fileBytes, hread]
  dsimp only
  rw [length_append, Nat.add_sub_cancel, hoffset, if_neg (by omega), hsize]
  dsimp only
  rw [← fileBytes, hdata, readResult]
  cases hp : params.ctx with
  | false => rfl
  | true =>
    simp only [if_true]
    refine loadData_eq_ok ?_ hdatalen.ge
    have hlength : (readContext ctx).info.length = ctx.info.length := length_map ..
    have hoverhead : ggmlTensorOverhead = 368 := rfl
    rw [readMemory, hp] at hmem
    dsimp only
    rw [hlength]
    cases hno : params.noAlloc with
    | true => exact not_fatalLoad_noAlloc (hroom.mono (by rw [hoverhead]; omega))
    | false =>
      refine not_fatalLoad_data (hmem.mono ?_)
      rw [hno]
      simp only [Bool.not_false, Bool.and_self, if_true, hoverhead]
      omega

/-! ### The same content -/

/-- **What was written is what was read**: the pairs in their order; names, types, shapes and offsets of the tensors;
the bytes of each tensor in the file, at its offset in the data section, and in the blob when it is loaded. -/
structure SameContent (params : GgufInitParams) (ctx : GgufContext) (file : List UInt8) (l : Loaded) : Prop where
  kv : l.ctx.kv = ctx.kv
  tensors : (l.ctx.info.map fun ti => (ti.t.name, ti.t.type, ti.t.ne, ti.offset))
    = ctx.info.map fun ti => (ti.t.name, ti.t.type, ti.t.ne, ti.offset)
  data : ∀ ti ∈ ctx.info, ∀ d, ti.t.data = some d →
    (file.drop (l.ctx.offset + ti.offset)).take (ggmlNbytes ti.t) = slice d 0 (ggmlNbytes ti.t)
  blob : params.ctx = true → params.noAlloc = false → ∃ blob, l.ctx.data = some blob ∧
    (l.tensors = some (ctx.info.map fun ti =>
      ⟨ti.t.name, ti.t.type, ti.t.ne, strides ti.t.type ti.t.ne, some ti.offset⟩)) ∧
    ∀ ti ∈ ctx.info, ∀ d, ti.t.data = some d →
      (blob.drop ti.offset).take (ggmlNbytes ti.t) = slice d 0 (ggmlNbytes ti.t)

theorem dataBytes_at {a : ℕ} (ha : a.isPowerOfTwo) (hle : a ≤ 2 ^ 63) {info : List GgufTensorInfo}
    (hpacked : Packed a 0 info) (hstored : ∀ ti ∈ info, Stored mem ti.t) (htotal : totalSize a info ≤ sizeMax)
    {ti : GgufTensorInfo} (hti : ti ∈ info) {d : ℕ → UInt8} (hd : ti.t.data = some d) :
    ((info.flatMap (dataBytes a)).drop ti.offset).take (ggmlNbytes ti.t) = slice d 0 (ggmlNbytes ti.t) := by
  obtain ⟨pre, post, rfl⟩ := append_of_mem hti
  have hmax : sizeMax = 2 ^ 64 - 1 := rfl
  have hpre : (pre.flatMap (dataBytes a)).length = totalSize a pre :=
    flatMap_dataBytes_length ha hle fun x hx => hstored x (mem_append_left _ hx)
  have hoff : ti.offset = totalSize a pre := by
    have hplace := ((packed_append).mp hpacked).2.1
    rw [totalSize, map_append, sum_append, ← totalSize] at htotal
    rw [hplace, Nat.zero_add, Nat.mod_eq_of_lt (by omega)]
  rw [flatMap_append, hoff, drop_left' hpre, flatMap_cons, dataBytes, hd, append_assoc]
  exact take_left' (slice_length ..)

theorem readResult_ctx (params : GgufInitParams) (ctx : GgufContext) :
    (readResult params ctx).ctx.kv = ctx.kv ∧ (readResult params ctx).ctx.info = ctx.info.map readBack ∧
      (readResult params ctx).ctx.offset
        = (metaBytes ctx).length + zeros ctx.alignment (metaBytes ctx).length := by
  rw [readResult, loadResult]
  split
  · split
    · exact ⟨rfl, rfl, rfl⟩
    · exact ⟨rfl, rfl, rfl⟩
  · exact ⟨rfl, rfl, rfl⟩

theorem sameContent_readResult {ctx : GgufContext} (h : Coherent ctx) (hctx : Complete mem ctx)
    (params : GgufInitParams) : SameContent params ctx (fileBytes ctx) (readResult params ctx) := by
  have ha := alignmentOf_lt h.alignment
  obtain ⟨hkv, hinfo, hoffset⟩ := readResult_ctx params ctx
  have hat : ∀ ti ∈ ctx.info, ∀ d, ti.t.data = some d →
      ((ctx.info.flatMap (dataBytes ctx.alignment)).drop ti.offset).take (ggmlNbytes ti.t)
        = slice d 0 (ggmlNbytes ti.t) :=
    fun ti hti d hd => dataBytes_at h.pow (by omega) h.packed hctx.stored hctx.total hti hd
  refine ⟨hkv, ?_, ?_, ?_⟩
  · rw [hinfo, map_map]
    rfl
  · intro ti hti d hd
    rw [hoffset, ← drop_drop, fileBytes, ← append_assoc, drop_left' (by simp)]
    exact hat ti hti d hd
  · intro hp hno
    have hlen := flatMap_dataBytes_length h.pow (by omega) hctx.stored
    refine ⟨ctx.info.flatMap (dataBytes ctx.alignment), ?_, ?_, hat⟩
    · rw [readResult, hp, if_pos rfl, loadResult, hno, if_neg (by simp)]
      exact congrArg some (take_of_length_le hlen.le)
    · rw [readResult, hp, if_pos rfl, loadResult, hno, if_neg (by simp)]
      dsimp only [finalContext, readContext]
      rw [map_map]
      refine congrArg some (map_congr_left fun ti _ => ?_)
      rw [Function.comp_apply, loadedTensor, readBack, ggmlSetName_self]
      rfl

end

/-! ### Runs -/

/-- **A context that was built without touching `general.alignment` is written without a fault, and what is read back
is the same.** -/
theorem write_then_read {mem : Memory} {ops : List Op} (hops : ∀ op ∈ ops, op.AvoidsAlignment) {ctx : GgufContext}
    (hrun : run ggufInitEmpty ops = .ok ctx) (hctx : Complete mem ctx) :
    ∃ file, ggufWriteToFile mem ctx false = .ok file ∧
      ∀ mem' params, Roomy mem' (readMemory params ctx) →
        ∃ l, ggufInitFromFileImpl mem' params file = .ok (some l) ∧ SameContent params ctx file l := by
  have h := coherent_run hops hrun
  refine ⟨fileBytes ctx, ggufWriteToFile_eq_ok h hctx.stored, fun mem' params hmem => ?_⟩
  exact ⟨readResult params ctx, reads_fileBytes h hctx hmem, sameContent_readResult h hctx params⟩

def row (name : TensorName) (type : GgmlType) (ne : ℕ) (data : Option (ℕ → UInt8)) : GgmlTensor :=
  ⟨name, type, ⟨ne, 1, 1, 1⟩, strides type ⟨ne, 1, 1, 1⟩, data⟩

/-- Three calls: a number, an array of strings, a tensor of 64 numbers that is then quantized. -/
def smallOps : List Op :=
  [.setVal ⟨[0x6b], by decide⟩ (.u16 7), .setArrStr ⟨[0x6c], by decide⟩ [⟨[0x61, 0x62], by decide⟩, ⟨[], by decide⟩],
    .addTensor (row ⟨[0x74], by decide⟩ .f32 64 (some fun i => UInt8.ofNat i)), .setTensorType ⟨[0x74], by decide⟩ .q4_0]

def smallContext : GgufContext :=
  { ggufInitEmpty with
    kv := [⟨[0x6b], false, .uint16, [7, 0], []⟩, ⟨[0x6c], true, .string, [], [[0x61, 0x62], []]⟩]
    info := [⟨row ⟨[0x74], by decide⟩ .q4_0 64 (some fun i => UInt8.ofNat i), 0⟩] }

theorem complete_smallContext : Complete terabyte smallContext where
  bools := by simp [smallContext, BoolBytes]
  stored := by
    intro ti hti
    obtain rfl := mem_singleton.mp hti
    exact ⟨by decide, by decide, rfl⟩
  readable := by
    intro ti hti
    obtain rfl := mem_singleton.mp hti
    refine ⟨by decide, ?_, fun _ => rfl⟩
    show _ ∧ _ ∧ _
    decide
  total := by decide

theorem write_then_read_small : ∃ file, ggufWriteToFile terabyte smallContext false = .ok file ∧
    ∀ mem' params, Roomy mem' (readMemory params smallContext) →
      ∃ l, ggufInitFromFileImpl mem' params file = .ok (some l) ∧ SameContent params smallContext file l :=
  @write_then_read terabyte smallOps (by simp [smallOps, Op.AvoidsAlignment, ggufKeyGeneralAlignment]) smallContext rfl
    complete_smallContext

/-- A contiguous tensor without data is not written, and a contiguous tensor that ends within a block is written and
not read back. -/
theorem incomplete_contexts_fail :
    ggmlIsContiguous (row ⟨[0x74], by decide⟩ .f32 4 none) = true ∧
      (do
        let ctx ← run ggufInitEmpty [.addTensor (row ⟨[0x74], by decide⟩ .f32 4 none)]
        ggufWriteToFile terabyte ctx false) = .error .assertion ∧
      ggmlIsContiguous (row ⟨[0x74], by decide⟩ .q4_0 16 (some fun _ => 0)) = true ∧
      (do
        let ctx ← run ggufInitEmpty [.addTensor (row ⟨[0x74], by decide⟩ .q4_0 16 (some fun _ => 0))]
        let file ← ggufWriteToFile terabyte ctx false
        let l ← ggufInitFromFileImpl terabyte ⟨false, false⟩ file
        return l.isSome) = .ok false :=
  ⟨by decide, rfl, by decide, rfl⟩

end Gguf
