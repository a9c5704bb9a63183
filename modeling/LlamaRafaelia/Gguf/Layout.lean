import LlamaRafaelia.Gguf.Format
import LlamaRafaelia.Gguf.Sizes

/-!
# GGUF: the layout of an accepted file

What holds of a context that `gguf_init_from_file_impl` returns.

* `sound_exact` - **an accepted file is sound exactly when the sizes of its tensors do not wrap** in the 64-bit words
  that they are computed in.
-/

namespace Gguf

open List ByteReader

section

variable {mem : Memory}

/-! ### What the loops check -/

/-- What is checked of a tensor description. -/
structure IsInfo (ti : GgufTensorInfo) : Prop where
  nb_eq : ti.t.nb = strides ti.t.type ti.t.ne
  blck : ti.t.ne.d0 % ggmlBlckSize ti.t.type = 0
  nelements : NelementsOk ti.t.ne
  lt : ∀ d ∈ ti.t.ne.toList, d < 2 ^ 63

theorem keys_distinct {n : ℕ} {b : List UInt8} {kv : List GgufKv} (h : Records (KvRecord mem) n [] b kv) :
    kv.Pairwise fun e e' => e.key ≠ e'.key := by
  refine h.invariant (fun kv => kv.Pairwise fun e e' => e.key ≠ e'.key) ?_ List.Pairwise.nil
  rintro kv b kv' hkv ⟨e, n, v, -, hhead, -, -, -, rfl⟩
  refine pairwise_append.mpr ⟨hkv, pairwise_singleton _ _, ?_⟩
  intro e' he' e'' he''
  rw [mem_singleton.mp he'']
  exact hhead.fresh e' he'

theorem names_distinct {n : ℕ} {b : List UInt8} {info : List GgufTensorInfo}
    (h : Records (InfoRecord mem) n [] b info) : info.Pairwise fun ti ti' => ti.t.name ≠ ti'.t.name := by
  refine h.invariant (fun info => info.Pairwise fun ti ti' => ti.t.name ≠ ti'.t.name) ?_ List.Pairwise.nil
  rintro info b info' hinfo ⟨name, nDims, ne, type, offset, -, hname, -, -, -, -, rfl⟩
  refine pairwise_append.mpr ⟨hinfo, pairwise_singleton _ _, ?_⟩
  intro ti hti ti' hti'
  rw [mem_singleton.mp hti']
  exact hname.fresh ti hti

theorem isInfo_of_records {n : ℕ} {b : List UInt8} {info : List GgufTensorInfo}
    (h : Records (InfoRecord mem) n [] b info) : ∀ ti ∈ info, IsInfo ti := by
  refine h.invariant (fun info => ∀ ti ∈ info, IsInfo ti) ?_ (by simp)
  rintro info b info' hinfo ⟨name, nDims, ne, type, offset, -, -, hshape, hok, hblck, -, rfl⟩ ti hti
  rcases mem_append.mp hti with hti | hti
  · exact hinfo ti hti
  · obtain rfl := mem_singleton.mp hti
    exact ⟨rfl, hblck, hok, hshape.lt⟩

theorem NelementsOk.ne_zero {ne : Dims} (h : NelementsOk ne) : ne.d1 ≠ 0 ∧ ne.d2 ≠ 0 ∧ ne.d3 ≠ 0 := by
  obtain ⟨h1, h2, h3⟩ := h
  refine ⟨?_, ?_, ?_⟩
  · intro h
    simp [h] at h1
  · intro h
    simp [h] at h2
  · intro h
    simp [h] at h3

theorem ggufGetValU32_eq_ok_iff {kv : List GgufKv} {i a : ℕ} :
    ggufGetValU32 kv i = .ok a ↔
      ∃ e, kv[i]? = some e ∧ e.type = .uint32 ∧ e.data.length = 4 ∧ a = leNat e.data := by
  rw [ggufGetValU32]
  cases hi : kv[i]? with
  | none => simp
  | some e =>
    simp only [Option.some.injEq]
    constructor
    · intro h
      obtain ⟨ne, hne, h⟩ := (Except.bind_eq_ok_iff).mp h
      obtain ⟨_, hone, h⟩ := (Except.bind_eq_ok_iff).mp h
      obtain ⟨b, hb, h⟩ := (Except.bind_eq_ok_iff).mp h
      rw [ggmlAssert_eq_ok, decide_eq_true_iff] at hone
      obtain ⟨_, htype, hb⟩ := (Except.bind_eq_ok_iff).mp hb
      rw [ggmlAssert_eq_ok, decide_eq_true_iff] at htype
      obtain ⟨_, -, hb⟩ := (Except.bind_eq_ok_iff).mp hb
      obtain ⟨_, -, hb⟩ := (Except.bind_eq_ok_iff).mp hb
      obtain rfl := Except.ok.inj hb
      obtain rfl := Except.ok.inj h
      have hlen : e.data.length = 4 := by
        rw [getNe, htype, if_neg (by decide), if_neg (by decide)] at hne
        obtain ⟨_, hmod, hne⟩ := (Except.bind_eq_ok_iff).mp hne
        obtain ⟨_, -, hne⟩ := (Except.bind_eq_ok_iff).mp hne
        rw [ggmlAssert_eq_ok, decide_eq_true_iff] at hmod
        have hdiv : e.data.length / ggufTypeSize .uint32 = ne := Except.ok.inj hne
        have : ggufTypeSize .uint32 = 4 := rfl
        rw [this] at hmod hdiv
        omega
      refine ⟨e, rfl, htype, hlen, ?_⟩
      rw [Nat.zero_mul, drop_zero, take_of_length_le (by rw [hlen]; decide)]
    · rintro ⟨e', rfl, htype, hlen, rfl⟩
      have hne : getNe e = .ok 1 := by
        simp [getNe, htype, hlen, ggufTypeSize, ggmlAssert, bind, Except.bind, pure, Except.pure]
      have hval : getVal .uint32 e 0 = .ok e.data := by
        have htake : e.data.take 4 = e.data := take_of_length_le hlen.le
        simp [getVal, htype, hlen, ggufTypeSize, ggmlAssert, bind, Except.bind, pure, Except.pure, htake]
      rw [hne, hval]
      rfl

theorem alignmentOf_lt {kv : List GgufKv} {a : ℕ} (h : alignmentOf kv = .ok a) : a < 2 ^ 32 := by
  rw [alignmentOf] at h
  split at h
  · obtain rfl := Except.ok.inj h
    decide
  · obtain ⟨e, -, -, hlen, rfl⟩ := (ggufGetValU32_eq_ok_iff).mp h
    have hlt := leNat_lt e.data
    rw [hlen] at hlt
    exact hlt

/-! ### The running size -/

def paddedSize (a : ℕ) (ti : GgufTensorInfo) : ℕ := ggmlPad (ggmlNbytes ti.t) a

theorem dataSize_cons {a s size : ℕ} {ti : GgufTensorInfo} {rest : List GgufTensorInfo} :
    dataSize a s (ti :: rest) = some size ↔
      ti.offset = s ∧ paddedSize a ti ≤ sizeMax - s ∧ dataSize a (s + paddedSize a ti) rest = some size := by
  rw [dataSize]
  by_cases hoff : ti.offset = s
  · rw [if_neg (by simpa using hoff)]
    dsimp only
    rw [← paddedSize]
    split <;> simp [hoff] <;> omega
  · rw [if_pos hoff]
    simp [hoff]

theorem dataSize_bounds {a s size : ℕ} {info : List GgufTensorInfo} (h : dataSize a s info = some size)
    (hs : s ≤ sizeMax) : s ≤ size ∧ size ≤ sizeMax := by
  induction info generalizing s with
  | nil =>
    obtain rfl := Option.some.inj h
    exact ⟨le_rfl, hs⟩
  | cons ti rest ih =>
    obtain ⟨-, hle, h⟩ := (dataSize_cons).mp h
    obtain ⟨h1, h2⟩ := ih h (by omega)
    exact ⟨by omega, h2⟩

theorem offset_bounds {a s size : ℕ} {info : List GgufTensorInfo} (h : dataSize a s info = some size)
    (hs : s ≤ sizeMax) : ∀ ti ∈ info, s ≤ ti.offset ∧ ti.offset + paddedSize a ti ≤ size := by
  induction info generalizing s with
  | nil => simp
  | cons ti rest ih =>
    obtain ⟨hoff, hle, h⟩ := (dataSize_cons).mp h
    have hnext := dataSize_bounds h (by omega)
    intro ti' hti'
    rcases mem_cons.mp hti' with rfl | hti'
    · omega
    · have := ih h (by omega) ti' hti'
      omega

theorem dvd_offset {a s size : ℕ} {info : List GgufTensorInfo} (ha : a.isPowerOfTwo) (hle : a ≤ 2 ^ 64)
    (h : dataSize a s info = some size) (hs : a ∣ s) : ∀ ti ∈ info, a ∣ ti.offset := by
  induction info generalizing s with
  | nil => simp
  | cons ti rest ih =>
    obtain ⟨hoff, -, h⟩ := (dataSize_cons).mp h
    intro ti' hti'
    rcases mem_cons.mp hti' with rfl | hti'
    · rw [hoff]
      exact hs
    · exact ih h (Nat.dvd_add hs (dvd_ggmlPad ha hle)) ti' hti'

theorem padded_ordered {a s size : ℕ} {info : List GgufTensorInfo} (h : dataSize a s info = some size)
    (hs : s ≤ sizeMax) : info.Pairwise fun ti ti' => ti.offset + paddedSize a ti ≤ ti'.offset := by
  induction info generalizing s with
  | nil => exact List.Pairwise.nil
  | cons ti rest ih =>
    obtain ⟨hoff, hle, h⟩ := (dataSize_cons).mp h
    refine List.Pairwise.cons (fun ti' hti' => ?_) (ih h (by omega))
    have := (offset_bounds h (by omega) ti' hti').1
    omega

theorem le_paddedSize {a s size : ℕ} {info : List GgufTensorInfo} {f : GgufTensorInfo → ℕ}
    (h : dataSize a s info = some size) (hin : ∀ ti ∈ info, ti.offset + f ti ≤ size)
    (hord : info.Pairwise fun ti ti' => ti.offset + f ti ≤ ti'.offset) : ∀ ti ∈ info, f ti ≤ paddedSize a ti := by
  induction info generalizing s with
  | nil => simp
  | cons ti rest ih =>
    obtain ⟨hoff, -, h⟩ := (dataSize_cons).mp h
    obtain ⟨hhead, htail⟩ := pairwise_cons.mp hord
    intro ti' hti'
    rcases mem_cons.mp hti' with rfl | hti'
    · cases rest with
      | nil =>
        have hsize : s + paddedSize a ti' = size := Option.some.inj h
        have := hin ti' (mem_cons_self ..)
        omega
      | cons next rest =>
        have hnext := ((dataSize_cons).mp h).1
        have := hhead next (mem_cons_self ..)
        omega
    · exact ih h (fun x hx => hin x (mem_cons_of_mem _ hx)) htail ti' hti'

/-! ### Accepted files -/

/-- The tensor of the new `ggml_context` for a description. -/
def loadedTensor (noAlloc : Bool) (ti : GgufTensorInfo) : LoadedTensor :=
  ⟨ggmlSetName ti.t.name.1, ti.t.type, ti.t.ne, strides ti.t.type ti.t.ne, if noAlloc then none else some ti.offset⟩

theorem createTensors_eq {noAlloc : Bool} {pool : GgmlContext} {info : List GgufTensorInfo}
    {tensors : List LoadedTensor} (h : createTensors noAlloc pool info = .ok tensors) :
    tensors = info.map (loadedTensor noAlloc) := by
  induction info generalizing pool tensors with
  | nil =>
    obtain rfl := Except.ok.inj h
    rfl
  | cons ti rest ih =>
    rw [createTensors] at h
    obtain ⟨pool', -, h⟩ := (Except.bind_eq_ok_iff).mp h
    obtain ⟨l, hl, h⟩ := (Except.bind_eq_ok_iff).mp h
    obtain rfl := Except.ok.inj h
    rw [ih hl]
    rfl

/-- What loading adds to the context: nothing, or tensors without data, or the blob and tensors that point into it. -/
inductive LoadedFrom (ctx : GgufContext) : Loaded → Prop
  | metadata : LoadedFrom ctx ⟨ctx, none⟩
  | noAlloc : LoadedFrom ctx ⟨ctx, some (ctx.info.map (loadedTensor true))⟩
  | data (blob : List UInt8) (h : blob.length = ctx.size) :
      LoadedFrom ctx ⟨{ ctx with data := some blob }, some (ctx.info.map (loadedTensor false))⟩

theorem loadData_eq_some {params : GgufInitParams} {ctx : GgufContext} {data : List UInt8} {l : Loaded}
    (h : loadData mem params ctx data = .ok (some l)) : LoadedFrom ctx l := by
  rw [loadData] at h
  split at h
  · obtain ⟨pool, -, h⟩ := (Except.bind_eq_ok_iff).mp h
    obtain ⟨tensors, ht, h⟩ := (Except.bind_eq_ok_iff).mp h
    obtain rfl := Option.some.inj (Except.ok.inj h)
    rw [createTensors_eq ht]
    exact .noAlloc
  · obtain ⟨pool, -, h⟩ := (Except.bind_eq_ok_iff).mp h
    obtain ⟨pool', -, h⟩ := (Except.bind_eq_ok_iff).mp h
    split at h
    · cases h
    split at h
    · cases h
    · rename_i hlen
      obtain ⟨tensors, ht, h⟩ := (Except.bind_eq_ok_iff).mp h
      obtain rfl := Option.some.inj (Except.ok.inj h)
      rw [createTensors_eq ht]
      exact .data _ (length_take_of_le (Nat.le_of_not_lt hlen))

/-- **An accepted file** starts with metadata of the format, its tensors lie one after the other, and the context says
so. -/
theorem accepted {params : GgufInitParams} {file : List UInt8} {l : Loaded}
    (h : ggufInitFromFileImpl mem params file = .ok (some l)) :
    ∃ b rest ctx offset size, file = b ++ rest ∧ MetaBytes mem b ctx ∧ dataSize ctx.alignment 0 ctx.info = some size ∧
      LoadedFrom { ctx with offset := offset, size := size } l := by
  rw [ggufInitFromFileImpl] at h
  cases hmeta : readMeta mem file with
  | fail => simp [hmeta] at h
  | crash e => simp [hmeta] at h
  | ok ctx rest =>
    simp only [hmeta] at h
    obtain ⟨b, hfile, hb⟩ := (reads_readMeta _ _ _).mp hmeta
    split at h
    · cases h
    · split at h
      · cases h
      · rename_i size hsize
        refine ⟨b, rest, ctx, ggmlPad (file.length - rest.length) ctx.alignment, size, hfile, hb, hsize, ?_⟩
        split at h
        · exact loadData_eq_some h
        · obtain rfl := Option.some.inj (Except.ok.inj h)
          exact .metadata

/-! ### Soundness -/

/-- **What a user of the context relies on**, in unbounded integers. -/
structure Sound (l : Loaded) : Prop where
  /-- the byte sizes are right -/
  bytes : ∀ ti ∈ l.ctx.info, byteSize ti.t.type ti.t.ne = ggmlNbytes ti.t
  /-- the names are distinct -/
  names : l.ctx.info.Pairwise fun ti ti' => ti.t.name ≠ ti'.t.name
  /-- the keys are distinct -/
  keys : l.ctx.kv.Pairwise fun e e' => e.key ≠ e'.key
  /-- the tensors are aligned -/
  aligned : ∀ ti ∈ l.ctx.info, l.ctx.alignment ∣ ti.offset
  /-- they lie in order and do not overlap -/
  ordered : l.ctx.info.Pairwise fun ti ti' => ti.offset + byteSize ti.t.type ti.t.ne ≤ ti'.offset
  /-- they lie within the data section -/
  inside : ∀ ti ∈ l.ctx.info, ti.offset + byteSize ti.t.type ti.t.ne ≤ l.ctx.size
  /-- data pointers address bytes of the blob -/
  pointers : ∀ tensors, l.tensors = some tensors → ∀ t ∈ tensors, ∀ p, t.dataAt = some p →
    ∃ blob, l.ctx.data = some blob ∧ blob.length = l.ctx.size ∧ p + byteSize t.type t.ne ≤ blob.length

/-- The sizes of the tensor do not wrap: neither its padded byte size nor, for a type with blocks, the product of its
first dimension and the type size. -/
def NoWrap (alignment : ℕ) (ti : GgufTensorInfo) : Prop :=
  byteSize ti.t.type ti.t.ne + alignment ≤ 2 ^ 64 ∧
    (1 < ggmlBlckSize ti.t.type → ti.t.ne.d0 * ggmlTypeSize ti.t.type < 2 ^ 64)

theorem noWrap_iff {a : ℕ} {ti : GgufTensorInfo} (hti : IsInfo ti) (ha : a.isPowerOfTwo) (hlt : a ≤ 2 ^ 63) :
    NoWrap a ti ↔
      byteSize ti.t.type ti.t.ne = ggmlNbytes ti.t ∧ byteSize ti.t.type ti.t.ne ≤ paddedSize a ti := by
  have hd0 : ti.t.ne.d0 < 2 ^ 63 := hti.lt _ (by simp [Dims.toList])
  have hpos := Nat.pos_of_isPowerOfTwo ha
  obtain ⟨h1, h2, h3⟩ := hti.nelements.ne_zero
  have hwords := byteSize_eq_nbytes_iff hti.nb_eq hti.blck hd0 h1 h2 h3
  constructor
  · rintro ⟨hle, hrow⟩
    have heq := hwords.mpr ⟨by omega, hrow⟩
    refine ⟨heq, ?_⟩
    rw [paddedSize, ← heq]
    exact le_ggmlPad ha hle
  · rintro ⟨heq, hle⟩
    obtain ⟨hbytes, hrow⟩ := hwords.mp heq
    rw [paddedSize, ← heq] at hle
    exact ⟨(nbytes_le_pad_iff ha hlt hbytes).mp hle, hrow⟩

theorem LoadedFrom.fields {ctx : GgufContext} {l : Loaded} (h : LoadedFrom ctx l) :
    l.ctx.info = ctx.info ∧ l.ctx.kv = ctx.kv ∧ l.ctx.alignment = ctx.alignment ∧ l.ctx.size = ctx.size := by
  cases h <;> exact ⟨rfl, rfl, rfl, rfl⟩

theorem LoadedFrom.pointer {ctx : GgufContext} {l : Loaded} (h : LoadedFrom ctx l) {tensors : List LoadedTensor}
    (ht : l.tensors = some tensors) {t : LoadedTensor} (hmem : t ∈ tensors) {p : ℕ} (hp : t.dataAt = some p) :
    ∃ blob, l.ctx.data = some blob ∧ blob.length = l.ctx.size ∧
      ∃ ti ∈ ctx.info, t.type = ti.t.type ∧ t.ne = ti.t.ne ∧ p = ti.offset := by
  cases h with
  | metadata => cases ht
  | noAlloc =>
    obtain rfl := Option.some.inj ht
    obtain ⟨ti, -, rfl⟩ := mem_map.mp hmem
    cases hp
  | data blob hlen =>
    obtain rfl := Option.some.inj ht
    obtain ⟨ti, hti, rfl⟩ := mem_map.mp hmem
    exact ⟨blob, rfl, hlen, ti, hti, rfl, rfl, (Option.some.inj hp).symm⟩

/-- **An accepted file is sound exactly when no size wraps.** -/
theorem sound_exact {params : GgufInitParams} {file : List UInt8} {l : Loaded}
    (h : ggufInitFromFileImpl mem params file = .ok (some l)) :
    Sound l ↔ ∀ ti ∈ l.ctx.info, NoWrap l.ctx.alignment ti := by
  obtain ⟨b, rest, ctx, offset, size, -, hmeta, hsize, hfrom⟩ := accepted h
  obtain ⟨bk, bi, -, -, hkv, halign, hpow, hinfo, -⟩ := hmeta
  obtain ⟨hi, hk, ha, hs⟩ := hfrom.fields
  dsimp only at hi hk ha hs
  have hlt := alignmentOf_lt halign
  have hvalid := isInfo_of_records hinfo
  have hle : ctx.alignment ≤ 2 ^ 63 := by omega
  rw [hi, ha]
  constructor
  · intro hsound ti hti
    have hin := hsound.inside
    have hord := hsound.ordered
    rw [hi, hs] at hin
    rw [hi] at hord
    rw [noWrap_iff (hvalid ti hti) hpow hle]
    refine ⟨hsound.bytes ti (hi ▸ hti), ?_⟩
    exact @le_paddedSize _ _ _ _ (fun ti => byteSize ti.t.type ti.t.ne) hsize hin hord ti hti
  · intro hwrap
    have hexact := fun ti hti => (noWrap_iff (hvalid ti hti) hpow hle).mp (hwrap ti hti)
    have hinside : ∀ ti ∈ ctx.info, ti.offset + byteSize ti.t.type ti.t.ne ≤ size := by
      intro ti hti
      have := (offset_bounds hsize (Nat.zero_le _) ti hti).2
      have := (hexact ti hti).2
      omega
    refine ⟨?_, ?_, ?_, ?_, ?_, ?_, ?_⟩
    · rw [hi]
      exact fun ti hti => (hexact ti hti).1
    · rw [hi]
      exact names_distinct hinfo
    · rw [hk]
      exact keys_distinct hkv
    · rw [hi, ha]
      exact dvd_offset hpow (by omega) hsize (Nat.dvd_zero _)
    · rw [hi]
      refine (padded_ordered hsize (Nat.zero_le _)).imp_of_mem fun {ti ti'} hti _ hle => ?_
      have := (hexact ti hti).2
      omega
    · rw [hi, hs]
      exact hinside
    · intro tensors ht t hmem p hp
      obtain ⟨blob, hblob, hlen, ti, hti, htype, hne, rfl⟩ := hfrom.pointer ht hmem hp
      refine ⟨blob, hblob, hlen, ?_⟩
      rw [hlen, hs, htype, hne]
      exact hinside ti hti

end

/-! ### Two files -/

instance (alignment : ℕ) (ti : GgufTensorInfo) : Decidable (NoWrap alignment ti) :=
  inferInstanceAs (Decidable (_ ∧ (_ → _)))

/-- A machine that has objects of less than `2 ^ 40` bytes. -/
def terabyte : Memory := ⟨fun n => decide (n < 2 ^ 40), by decide, fun n h => by
  have := of_decide_eq_true h
  omega⟩

def accepts (r : Except Fault (Option Loaded)) (test : Loaded → Bool) : Bool :=
  match r with
  | .ok (some l) => test l
  | _ => false

theorem exists_of_accepts {r : Except Fault (Option Loaded)} {test : Loaded → Bool} (h : accepts r test = true) :
    ∃ l, r = .ok (some l) ∧ test l = true := by
  unfold accepts at h
  split at h
  · rename_i l
    exact ⟨l, rfl, h⟩
  · cases h

/-- The metadata of a file without pairs and with one tensor of type `f32` and one dimension. -/
def oneTensorMeta (ne : ℕ) : List UInt8 :=
  headerBytes 3 1 0 ++ (stringBytes [0x74] ++ (shapeBytes 1 ⟨ne, 1, 1, 1⟩ ++
    (leBytes 4 GgmlType.f32.code ++ leBytes 8 0)))

def fourNumbers : List UInt8 := oneTensorMeta 4 ++ List.replicate 39 0

/-- A file of 57 bytes with a tensor of `2 ^ 64` bytes. -/
def hugeTensor : List UInt8 := oneTensorMeta (2 ^ 62)

theorem sound_exact_four : ∃ l, ggufInitFromFileImpl terabyte ⟨true, false⟩ fourNumbers = .ok (some l) ∧ Sound l := by
  have hrun : accepts (ggufInitFromFileImpl terabyte ⟨true, false⟩ fourNumbers)
      (fun l => l.ctx.info.all fun ti => decide (NoWrap l.ctx.alignment ti)) = true := by decide +kernel
  obtain ⟨l, hl, htest⟩ := exists_of_accepts hrun
  refine ⟨l, hl, (sound_exact hl).mpr fun ti hti => ?_⟩
  simpa using all_eq_true.mp htest ti hti

/-- The huge tensor is accepted, with a byte size of 0 and a blob of 0 bytes. -/
theorem hugeTensor_unsound :
    ∃ l, ggufInitFromFileImpl terabyte ⟨true, false⟩ hugeTensor = .ok (some l) ∧ ¬Sound l := by
  have hrun : accepts (ggufInitFromFileImpl terabyte ⟨true, false⟩ hugeTensor)
      (fun l => l.ctx.info.any fun ti => decide (byteSize ti.t.type ti.t.ne ≠ ggmlNbytes ti.t)) = true := by
    decide +kernel
  obtain ⟨l, hl, htest⟩ := exists_of_accepts hrun
  refine ⟨l, hl, fun hsound => ?_⟩
  obtain ⟨ti, hti, hne⟩ := any_eq_true.mp htest
  exact of_decide_eq_true hne (hsound.bytes ti hti)

end Gguf
