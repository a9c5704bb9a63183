import LlamaRafaelia.Gguf.Layout

/-!
# GGUF: the files that end the process

`gguf_init_from_file_impl` is meant to return `nullptr` for a file that it cannot read.  This module says exactly which
files end the process instead.

* `crashes_readMeta` - **the metadata**: a fatal pair, an entry `general.alignment` of the wrong kind, or a fatal tensor
  description, after metadata that is read without complaint;
* `loadData_eq_error_iff` - **the data**: a buffer that cannot be allocated, or whose size wrapped and which does not
  hold what is put into it;
* `returns_exact` - **the function returns exactly for the files that are no hazard**.
-/

namespace Gguf

open ByteReader

/-! ### The metadata -/

/-- An entry `general.alignment` that `gguf_get_val_u32` does not accept: it is not a single number of 32 bits. -/
def BadAlignment (kv : List GgufKv) : Prop :=
  ∃ i e, ggufFindKey kv ggufKeyGeneralAlignment = some i ∧ kv[i]? = some e ∧
    ¬(e.type = .uint32 ∧ e.data.length = 4)

theorem alignmentOf_eq_error_iff {kv : List GgufKv} : (∃ f, alignmentOf kv = .error f) ↔ BadAlignment kv := by
  rw [alignmentOf, BadAlignment]
  cases hfind : ggufFindKey kv ggufKeyGeneralAlignment with
  | none => simp
  | some i =>
    have hlt : i < kv.length := (List.findIdx?_eq_some_iff_getElem.mp hfind).1
    show (∃ f, ggufGetValU32 kv i = .error f) ↔ _
    constructor
    · rintro ⟨f, hf⟩
      refine ⟨i, kv[i], rfl, List.getElem?_eq_getElem hlt, ?_⟩
      rintro ⟨htype, hlen⟩
      have hok := (ggufGetValU32_eq_ok_iff).mpr ⟨kv[i], List.getElem?_eq_getElem hlt, htype, hlen, rfl⟩
      rw [hok] at hf
      cases hf
    · rintro ⟨j, e, hj, he, hbad⟩
      obtain rfl := Option.some.inj hj
      cases hval : ggufGetValU32 kv i with
      | error f => exact ⟨f, rfl⟩
      | ok a =>
        obtain ⟨e', he', htype, hlen, -⟩ := (ggufGetValU32_eq_ok_iff).mp hval
        rw [he, Option.some.injEq] at he'
        exact (hbad (he' ▸ ⟨htype, hlen⟩)).elim

/-- The metadata from the first pair on that ends the process. -/
inductive FatalMeta (mem : Memory) (nTensors nKv : ℕ) : List UInt8 → Prop
  /-- a fatal pair after `i` pairs -/
  | pair {i : ℕ} {b rest : List UInt8} {kv : List GgufKv} (hi : i < nKv) (hkv : Records (KvRecord mem) i [] b kv)
      (h : FatalKv mem kv rest) : FatalMeta mem nTensors nKv (b ++ rest)
  /-- an alignment of the wrong kind, after all the pairs -/
  | alignment {b rest : List UInt8} {kv : List GgufKv} (hkv : Records (KvRecord mem) nKv [] b kv)
      (h : BadAlignment kv) : FatalMeta mem nTensors nKv (b ++ rest)
  /-- a fatal tensor description after `i` of them -/
  | tensor {i a : ℕ} {b b' rest : List UInt8} {kv : List GgufKv} {info : List GgufTensorInfo}
      (hkv : Records (KvRecord mem) nKv [] b kv) (ha : alignmentOf kv = .ok a) (hpow : a.isPowerOfTwo) (hi : i < nTensors)
      (hinfo : Records (InfoRecord mem) i [] b' info) (h : FatalInfo mem info rest) :
      FatalMeta mem nTensors nKv (b ++ (b' ++ rest))

section

variable {mem : Memory}

theorem harmless_length {n m : ℕ} (h : n = m) : Harmless (liftExcept (ggmlAssert (decide (n = m)))) := by
  refine (crashes_liftExcept _).congr fun bs => ?_
  rw [ggmlAssert_eq_error]
  simp [h]

theorem crashes_readMeta :
    Crashes (readMeta mem) fun bs => ∃ version nTensors nKv rest, bs = headerBytes version nTensors nKv ++ rest ∧
      IsHeader version nTensors nKv ∧ FatalMeta mem nTensors nKv rest := by
  refine (Harmless.bind reads_readHeader harmless_readHeader fun h =>
    Crashes.bindOf (Reads.repeatN reads_readKv h.2.2 []) (Crashes.repeatN reads_readKv crashes_readKv h.2.2 [])
      fun b kv hkv => Harmless.bind (reads_liftExcept _) (harmless_length (kvRecords_length hkv)) fun _ =>
        Crashes.bind (reads_readAlignment kv) (crashes_readAlignment kv) fun alignment =>
          Crashes.bindOf (Reads.repeatN reads_readInfo h.2.1 []) (Crashes.repeatN reads_readInfo crashes_readInfo h.2.1 [])
            fun b info hinfo => Harmless.bind (reads_liftExcept _) (harmless_length (infoRecords_length hinfo)) fun _ =>
              Harmless.pure (⟨h.1, kv, info, alignment, 0, 0, none⟩ : GgufContext)).congr ?_
  intro bs
  constructor
  · rintro ⟨b, ⟨version, nTensors, nKv⟩, rest, rfl, ⟨rfl, hheader⟩, h⟩
    refine ⟨version, nTensors, nKv, rest, rfl, hheader, ?_⟩
    obtain ⟨i, hi, b, kv, r, rfl, hkv, h⟩ | ⟨b, kv, r, rfl, hkv, b1, _, r1, rfl, ⟨rfl, -⟩, h⟩ := h
    · exact .pair hi hkv h
    · obtain h | ⟨b2, a, r2, rfl, ⟨rfl, ha, hpow⟩, h⟩ := h
      · exact .alignment hkv ((alignmentOf_eq_error_iff).mp h)
      · obtain ⟨i, hi, b3, info, r3, rfl, hinfo, h⟩ | h := h
        · rw [List.nil_append, List.nil_append]
          exact .tensor hkv ha hpow hi hinfo h
        · simp at h
  · rintro ⟨version, nTensors, nKv, rest, rfl, hheader, h⟩
    refine ⟨_, (version, nTensors, nKv), rest, rfl, ⟨rfl, hheader⟩, ?_⟩
    cases h with
    | pair hi hkv h => exact .inl ⟨_, hi, _, _, _, rfl, hkv, h⟩
    | alignment hkv h =>
      exact .inr ⟨_, _, _, rfl, hkv, [], (), _, rfl, ⟨rfl, (ggmlAssert_eq_ok).mpr (by simp [kvRecords_length hkv])⟩,
        .inl ((alignmentOf_eq_error_iff).mpr h)⟩
    | tensor hkv ha hpow hi hinfo h =>
      exact .inr ⟨_, _, _, rfl, hkv, [], (), _, rfl, ⟨rfl, (ggmlAssert_eq_ok).mpr (by simp [kvRecords_length hkv])⟩,
        .inr ⟨[], _, _, rfl, ⟨rfl, ha, hpow⟩, .inl ⟨_, hi, _, _, _, rfl, hinfo, h⟩⟩⟩

end

/-! ### The data -/

/-- The size of the buffer for objects of `total` bytes, in words. -/
def poolSize (total : ℕ) : ℕ :=
  ggmlPad (if total % 2 ^ 64 = 0 then ggmlMemAlign else total % 2 ^ 64) ggmlMemAlign

/-- Where the blob of `size` bytes ends in the buffer, in words. -/
def blobEnd (size : ℕ) : ℕ :=
  (ggmlPad ((ggmlTensorSize + size) % 2 ^ 64) ggmlMemAlign + ggmlObjectSize) % 2 ^ 64

/-- Some of `n` tensors does not fit into a buffer of `pool` bytes, from `used` on. -/
def Overfull (pool used n : ℕ) : Prop := 0 < n ∧ pool < used + n * ggmlTensorOverhead

/-- **Loading that ends the process**: the buffer cannot be allocated, or it does not hold the blob or what there is of it
in the `available` bytes, or (when these are enough to read the blob) it does not hold the tensors. -/
def FatalLoad (mem : Memory) (noAlloc : Bool) (n size available : ℕ) : Prop :=
  if noAlloc then
    let pool := poolSize (n * ggmlTensorOverhead)
    pool = 0 ∨ mem.has pool = false ∨ Overfull pool 0 n
  else
    let pool := poolSize ((n + 1) * ggmlTensorOverhead + size)
    pool = 0 ∨ mem.has pool = false ∨ pool < blobEnd size ∨ pool < ggmlTensorOverhead + min available size ∨
      size ≤ available ∧ Overfull pool (blobEnd size) n

section

variable {mem : Memory}

theorem ggmlInit_eq_ok_iff {total : ℕ} {pool : GgmlContext} :
    ggmlInit mem (total % 2 ^ 64) = .ok pool ↔
      poolSize total ≠ 0 ∧ mem.has (poolSize total) = true ∧ pool = ⟨poolSize total, 0⟩ := by
  rw [ggmlInit, ← poolSize, Except.bind_eq_ok_iff]
  constructor
  · rintro ⟨_, hassert, h⟩
    rw [ggmlAssert_eq_ok, Bool.and_eq_true, decide_eq_true_iff] at hassert
    exact ⟨hassert.1, hassert.2, (Except.ok.inj h).symm⟩
  · rintro ⟨hne, hmem, rfl⟩
    exact ⟨(), (ggmlAssert_eq_ok).mpr (by simp [hne, hmem]), rfl⟩

theorem ggmlInit_eq_error_iff {total : ℕ} :
    (∃ f, ggmlInit mem (total % 2 ^ 64) = .error f) ↔ poolSize total = 0 ∨ mem.has (poolSize total) = false := by
  cases hinit : ggmlInit mem (total % 2 ^ 64) with
  | ok pool =>
    obtain ⟨hne, hmem, -⟩ := (ggmlInit_eq_ok_iff).mp hinit
    simp [hne, hmem]
  | error f =>
    refine iff_of_true ⟨f, rfl⟩ ?_
    by_contra hnot
    simp only [not_or, Bool.not_eq_false] at hnot
    rw [(ggmlInit_eq_ok_iff).mpr ⟨hnot.1, hnot.2, rfl⟩] at hinit
    cases hinit

theorem ggmlNewTensorImpl_eq {pool : GgmlContext} {size used : ℕ}
    (hused : (pool.used + ggmlPad ((ggmlTensorSize + size) % 2 ^ 64) ggmlMemAlign + ggmlObjectSize) % 2 ^ 64 = used) :
    ggmlNewTensorImpl pool size = if pool.memSize < used then .error .assertion
      else if pool.memSize < pool.used + ggmlTensorOverhead then .error .outOfBounds
      else .ok ⟨pool.memSize, used⟩ := by
  have hused' : (pool.used + ggmlObjectSize + ggmlPad ((ggmlTensorSize + size) % 2 ^ 64) ggmlMemAlign) % 2 ^ 64
      = used := by rw [← hused, Nat.add_right_comm]
  rw [ggmlNewTensorImpl, ggmlNewObject, hused, hused']
  by_cases hfull : pool.memSize < used
  · rw [if_pos hfull, if_pos hfull]
  · rw [if_neg hfull, if_neg hfull]

/-- A tensor without data is created exactly if it fits. -/
theorem ggmlNewTensorImpl_zero {pool : GgmlContext} (hlt : pool.memSize < 2 ^ 64) :
    ((∃ f, ggmlNewTensorImpl pool 0 = .error f) ↔ pool.memSize < pool.used + ggmlTensorOverhead) ∧
      (¬ pool.memSize < pool.used + ggmlTensorOverhead →
        ggmlNewTensorImpl pool 0 = .ok ⟨pool.memSize, pool.used + ggmlTensorOverhead⟩) := by
  have hpad : ggmlPad ((ggmlTensorSize + 0) % 2 ^ 64) ggmlMemAlign = ggmlTensorSize := by decide
  have hused : (pool.used + ggmlPad ((ggmlTensorSize + 0) % 2 ^ 64) ggmlMemAlign + ggmlObjectSize) % 2 ^ 64
      = (pool.used + ggmlTensorOverhead) % 2 ^ 64 := by
    rw [hpad, ggmlTensorOverhead, Nat.add_comm ggmlObjectSize, Nat.add_assoc]
  have hmod := Nat.mod_le (pool.used + ggmlTensorOverhead) (2 ^ 64)
  rw [ggmlNewTensorImpl_eq hused]
  by_cases hfull : pool.memSize < pool.used + ggmlTensorOverhead
  · refine ⟨iff_of_true ?_ hfull, fun hno => (hno hfull).elim⟩
    by_cases htest : pool.memSize < (pool.used + ggmlTensorOverhead) % 2 ^ 64
    · exact ⟨_, if_pos htest⟩
    · exact ⟨_, by rw [if_neg htest, if_pos hfull]⟩
  · rw [if_neg (by omega), if_neg hfull, Nat.mod_eq_of_lt (by omega)]
    exact ⟨iff_of_false (fun ⟨f, hf⟩ => (by cases hf)) hfull, fun _ => rfl⟩

theorem ggmlNewTensorImpl_blob (pool size : ℕ) :
    ggmlNewTensorImpl ⟨pool, 0⟩ size = if pool < blobEnd size then .error .assertion
      else if pool < ggmlTensorOverhead then .error .outOfBounds else .ok ⟨pool, blobEnd size⟩ := by
  have hused : (0 + ggmlPad ((ggmlTensorSize + size) % 2 ^ 64) ggmlMemAlign + ggmlObjectSize) % 2 ^ 64 = blobEnd size := by
    rw [blobEnd, Nat.zero_add]
  have heq := @ggmlNewTensorImpl_eq ⟨pool, 0⟩ size _ hused
  rwa [Nat.zero_add] at heq

theorem createTensors_eq_error_iff {noAlloc : Bool} {pool : GgmlContext} {info : List GgufTensorInfo}
    (hlt : pool.memSize < 2 ^ 64) :
    (∃ f, createTensors noAlloc pool info = .error f) ↔ Overfull pool.memSize pool.used info.length := by
  induction info generalizing pool with
  | nil => simp [createTensors, Overfull]
  | cons ti rest ih =>
    obtain ⟨herr, hok⟩ := ggmlNewTensorImpl_zero hlt
    rw [createTensors, Except.bind_eq_error_iff, herr, Overfull, List.length_cons, Nat.add_mul, Nat.one_mul]
    by_cases hfull : pool.memSize < pool.used + ggmlTensorOverhead
    · exact iff_of_true (.inl hfull) ⟨Nat.succ_pos _, by omega⟩
    · have hih := @ih ⟨pool.memSize, pool.used + ggmlTensorOverhead⟩ hlt
      rw [hok hfull]
      constructor
      · rintro (h | ⟨pool', hpool, h⟩)
        · exact (hfull h).elim
        · obtain rfl := Except.ok.inj hpool
          obtain hrest | ⟨l, -, f, hf⟩ := (Except.bind_eq_error_iff).mp h
          · obtain ⟨-, hover⟩ := hih.mp hrest
            exact ⟨Nat.succ_pos _, by dsimp only at hover; omega⟩
          · cases hf
      · rintro ⟨-, hover⟩
        refine .inr ⟨_, rfl, (Except.bind_eq_error_iff).mpr (.inl (hih.mpr ⟨?_, by dsimp only; omega⟩))⟩
        refine Nat.pos_of_ne_zero fun hzero => ?_
        rw [hzero] at hover
        omega

/-- **Loading ends the process exactly when the buffer fails.** -/
theorem loadData_eq_error_iff {params : GgufInitParams} {ctx : GgufContext} {data : List UInt8} :
    (∃ f, loadData mem params ctx data = .error f) ↔
      FatalLoad mem params.noAlloc ctx.info.length ctx.size data.length := by
  rw [loadData, FatalLoad]
  cases params.noAlloc with
  | true =>
    simp only [if_true]
    rw [Except.bind_eq_error_iff, ggmlInit_eq_error_iff, or_assoc]
    refine or_congr_right' fun hne => or_congr_right' fun hmem => ?_
    rw [Bool.not_eq_false] at hmem
    have hlt := (mem.max _ hmem).trans (by decide : 2 ^ 63 < 2 ^ 64)
    constructor
    · rintro ⟨pool, hpool, h⟩
      obtain ⟨-, -, rfl⟩ := (ggmlInit_eq_ok_iff).mp hpool
      obtain h | ⟨l, -, f, hf⟩ := (Except.bind_eq_error_iff).mp h
      · exact (createTensors_eq_error_iff hlt).mp h
      · cases hf
    · intro h
      exact ⟨_, (ggmlInit_eq_ok_iff).mpr ⟨hne, hmem, rfl⟩,
        (Except.bind_eq_error_iff).mpr (.inl ((@createTensors_eq_error_iff _ ⟨_, _⟩ _ hlt).mpr h))⟩
  | false =>
    simp only [Bool.false_eq_true, if_false]
    rw [Except.bind_eq_error_iff, ggmlInit_eq_error_iff, or_assoc]
    refine or_congr_right' fun hne => or_congr_right' fun hmem => ?_
    rw [Bool.not_eq_false] at hmem
    have hlt := (mem.max _ hmem).trans (by decide : 2 ^ 63 < 2 ^ 64)
    constructor
    · rintro ⟨pool, hpool, h⟩
      obtain ⟨-, -, rfl⟩ := (ggmlInit_eq_ok_iff).mp hpool
      rw [ggmlNewTensorImpl_blob, Except.bind_eq_error_iff] at h
      split at h
      · next hfull => exact .inl hfull
      split at h
      · next hshort => exact .inr (.inl (Nat.lt_add_right _ hshort))
      obtain ⟨f, hf⟩ | ⟨pool, hpool, h⟩ := h
      · cases hf
      obtain rfl := Except.ok.inj hpool
      split at h
      · next hread => exact .inr (.inl hread)
      split at h
      · obtain ⟨f, hf⟩ := h
        cases hf
      · next hlen =>
        obtain h | ⟨l, -, f, hf⟩ := (Except.bind_eq_error_iff).mp h
        · exact .inr (.inr ⟨Nat.le_of_not_lt hlen, (createTensors_eq_error_iff hlt).mp h⟩)
        · cases hf
    · intro h
      refine ⟨_, (ggmlInit_eq_ok_iff).mpr ⟨hne, hmem, rfl⟩, ?_⟩
      rw [ggmlNewTensorImpl_blob, Except.bind_eq_error_iff]
      by_cases hfull : poolSize ((ctx.info.length + 1) * ggmlTensorOverhead + ctx.size) < blobEnd ctx.size
      · rw [if_pos hfull]
        exact .inl ⟨_, rfl⟩
      by_cases hshort : poolSize ((ctx.info.length + 1) * ggmlTensorOverhead + ctx.size) < ggmlTensorOverhead
      · rw [if_neg hfull, if_pos hshort]
        exact .inl ⟨_, rfl⟩
      rw [if_neg hfull, if_neg hshort]
      refine .inr ⟨_, rfl, ?_⟩
      obtain h | hread | ⟨hlen, h⟩ := h
      · exact (hfull h).elim
      · exact ⟨_, if_pos hread⟩
      · split
        · exact ⟨_, rfl⟩
        · rw [if_neg (Nat.not_lt.mpr hlen), Except.bind_eq_error_iff]
          exact .inl ((@createTensors_eq_error_iff _ ⟨_, _⟩ _ hlt).mpr h)

end

/-! ### The whole function -/

/-- **A file that ends the process**: its metadata does, or it is accepted and loading it does. -/
inductive Hazard (mem : Memory) (params : GgufInitParams) (file : List UInt8) : Prop
  | metadata {version nTensors nKv : ℕ} {rest : List UInt8} (hfile : file = headerBytes version nTensors nKv ++ rest)
      (hheader : IsHeader version nTensors nKv) (h : FatalMeta mem nTensors nKv rest)
  | load {b rest : List UInt8} {ctx : GgufContext} {size : ℕ} (hfile : file = b ++ rest) (hmeta : MetaBytes mem b ctx)
      (hoffset : ggmlPad b.length ctx.alignment < 2 ^ 63) (hsize : dataSize ctx.alignment 0 ctx.info = some size)
      (hctx : params.ctx = true)
      (h : FatalLoad mem params.noAlloc ctx.info.length size (file.length - ggmlPad b.length ctx.alignment))

theorem init_eq_error_iff {mem : Memory} {params : GgufInitParams} {file : List UInt8} :
    (∃ f, ggufInitFromFileImpl mem params file = .error f) ↔ Hazard mem params file := by
  constructor
  · rintro ⟨f, h⟩
    rw [ggufInitFromFileImpl] at h
    cases hmeta : readMeta mem file with
    | fail => simp [hmeta] at h
    | crash e =>
      obtain ⟨version, nTensors, nKv, rest, hfile, hheader, hfatal⟩ := (crashes_readMeta file).mp ⟨e, hmeta⟩
      exact .metadata hfile hheader hfatal
    | ok ctx rest =>
      obtain ⟨b, rfl, hb⟩ := (reads_readMeta _ _ _).mp hmeta
      simp only [hmeta, List.length_append, Nat.add_sub_cancel] at h
      split at h
      · cases h
      · rename_i hoffset
        split at h
        · cases h
        · rename_i size hsize
          split at h
          · rename_i hctx
            have hload := (loadData_eq_error_iff).mp ⟨f, h⟩
            rw [List.length_drop] at hload
            exact .load rfl hb (Nat.lt_of_not_le hoffset) hsize hctx hload
          · cases h
  · rintro (⟨hfile, hheader, hfatal⟩ | ⟨rfl, hb, hoffset, hsize, hctx, hfatal⟩)
    · obtain ⟨e, he⟩ := (crashes_readMeta file).mpr ⟨_, _, _, _, hfile, hheader, hfatal⟩
      exact ⟨e, by rw [ggufInitFromFileImpl, he]⟩
    · have hread := reads_readMeta.apply hb
      rw [ggufInitFromFileImpl, hread]
      dsimp only
      rw [List.length_append, Nat.add_sub_cancel, if_neg (Nat.not_le.mpr hoffset), hsize]
      dsimp only
      rw [if_pos hctx]
      refine (loadData_eq_error_iff).mpr ?_
      rw [List.length_drop]
      exact hfatal

/-- **The function returns exactly for the files that are no hazard.** -/
theorem returns_exact (mem : Memory) (params : GgufInitParams) (file : List UInt8) :
    (∃ r, ggufInitFromFileImpl mem params file = .ok r) ↔ ¬Hazard mem params file := by
  rw [← init_eq_error_iff]
  cases ggufInitFromFileImpl mem params file with
  | ok r => simp
  | error f => simp

def zeroDimension : List UInt8 := headerBytes 3 1 0 ++ (stringBytes [0x74] ++ shapeBytes 2 ⟨1, 0, 1, 1⟩)

def emptyKey : List UInt8 := headerBytes 3 0 1 ++ (headBytes [] false .uint8 1 ++ [7])

/-- A file with a string of `2 ^ 63` bytes, that ends after its length. -/
def hugeString : List UInt8 := headerBytes 3 0 1 ++ (headBytes [0x6b] false .string 1 ++ leBytes 8 (2 ^ 63))

/-- A file whose entry `general.alignment` is a number of 64 bits. -/
def wideAlignment : List UInt8 :=
  headerBytes 3 0 1 ++ (headBytes ggufKeyGeneralAlignment false .uint64 1 ++ leBytes 8 32)

/-- Four files of less than 100 bytes that end the process, each in its own way. -/
theorem malformed_files_crash :
    ggufInitFromFileImpl terabyte ⟨false, false⟩ zeroDimension = .error .divByZero ∧
      ggufInitFromFileImpl terabyte ⟨false, false⟩ emptyKey = .error .assertion ∧
      ggufInitFromFileImpl terabyte ⟨false, false⟩ hugeString = .error .exception ∧
      ggufInitFromFileImpl terabyte ⟨false, false⟩ wideAlignment = .error .assertion :=
  ⟨rfl, rfl, rfl, rfl⟩

end Gguf
