import LlamaRafaelia.Gguf.Context

/-!
# GGUF: writing a file

`gguf_write_out` with the writer for files.  What was written so far is a list of bytes.  The header, the pairs
(`writeKv`) and the tensor descriptions (`writeTensorMeta`) come first, then zeros up to the alignment (`pad`), then
the data (`writeTensorData`).

* `writeKv_eq_ok`, `pad_eq` - **what is written for a pair, and how many zeros**;
* `writeData_eq_ok` - **the data of the tensors**: nothing is asserted in vain when the offsets are one after the other.
-/

namespace Gguf

open List Except Nat

/-! ### Pairs -/

/-- The value of a pair, in `gguf_writer_base::write(const gguf_kv &)`. -/
def writeValue (kv : GgufKv) (ne : ℕ) : Except Fault (List UInt8) :=
  match kv.type with
  | .bool => do
    let l ← (List.range ne).mapM (getVal .bool kv)
    return l.flatMap fun b => b.map boolByte
  | .string => do
    let l ← (List.range ne).mapM (getValString kv)
    return l.flatMap stringBytes
  | .array => .error .assertion
  | _ => return kv.data

/-- `gguf_writer_base::write(const gguf_kv &)`. -/
def writeKv (kv : GgufKv) : Except Fault (List UInt8) := do
  let ne ← getNe kv
  let value ← writeValue kv ne
  return headBytes kv.key kv.isArray kv.type ne ++ value

def writeKvs (out : List UInt8) (kv : List GgufKv) : Except Fault (List UInt8) :=
  kv.foldlM (fun out e => do
    let b ← writeKv e
    return out ++ b) out

/-! ### Tensors -/

/-- `gguf_writer_base::write_tensor_meta`. -/
def writeTensorMeta (ti : GgufTensorInfo) : List UInt8 :=
  stringBytes ti.t.name.1 ++
    (shapeBytes (ggmlNDims ti.t) ti.t.ne ++ (leBytes 4 ti.t.type.code ++ leBytes 8 ti.offset))

/-- `written_bytes`, a 64-bit word. -/
def writtenBytes (out : List UInt8) : ℕ := out.length % 2 ^ 64

/-- The loop of `gguf_writer_base::pad`, for at most `fuel` rounds. -/
def padLoop (alignment : ℕ) : ℕ → List UInt8 → List UInt8
  | 0, out => out
  | fuel + 1, out => if writtenBytes out % alignment ≠ 0 then padLoop alignment fuel (out ++ [0]) else out

/-- `gguf_writer_base::pad`: zeros up to a multiple of the alignment. -/
def pad (alignment : ℕ) (out : List UInt8) : List UInt8 := padLoop alignment alignment out

/-- `gguf_writer_file::write_tensor_data`.  The data is copied into a `std::vector` first. -/
def writeTensorData (mem : Memory) (offsetData alignment : ℕ) (out : List UInt8) (ti : GgufTensorInfo) :
    Except Fault (List UInt8) := do
  ggmlAssert (decide ((writtenBytes out + (2 ^ 64 - offsetData)) % 2 ^ 64 = ti.offset))
  ggmlAssert (ggmlIsContiguous ti.t)
  let nbytes := ggmlNbytes ti.t
  if mem.has nbytes then
    match ti.t.data with
    | none => .error .assertion
    | some data => return pad alignment (out ++ slice data 0 nbytes)
  else .error .exception

/-! ### The file -/

/-- The part of `gguf_write_out` before the data section. -/
def writeMeta (ctx : GgufContext) : Except Fault (List UInt8) := do
  let out ← writeKvs (headerBytes ctx.version ctx.info.length ctx.kv.length) ctx.kv
  return ctx.info.foldl (fun out ti => out ++ writeTensorMeta ti) out

/-- `gguf_write_to_file`: the bytes of the file. -/
def ggufWriteToFile (mem : Memory) (ctx : GgufContext) (onlyMeta : Bool) : Except Fault (List UInt8) := do
  let out ← writeMeta ctx
  let out := pad ctx.alignment out
  if onlyMeta then return out
  else ctx.info.foldlM (writeTensorData mem (writtenBytes out) ctx.alignment) out

/-! ### What is written for a pair -/

def GgufKv.count (e : GgufKv) : ℕ :=
  if e.type = .string then e.dataString.length else e.data.length / ggufTypeSize e.type

def GgufKv.valueBytes (e : GgufKv) : List UInt8 :=
  match e.type with
  | .bool => e.data.map boolByte
  | .string => e.dataString.flatMap stringBytes
  | _ => e.data

def kvBytes (e : GgufKv) : List UInt8 := headBytes e.key e.isArray e.type e.count ++ e.valueBytes

theorem StorableKv.count_eq {e : GgufKv} (h : StorableKv e) :
    (e.isArray = false → e.count = 1) ∧
      if e.type = .string then e.data = [] ∧ e.dataString.length = e.count
      else e.dataString = [] ∧ 0 < ggufTypeSize e.type ∧ e.data.length = e.count * ggufTypeSize e.type := by
  obtain ⟨n, hone, hcount⟩ := h.count
  by_cases hstr : e.type = .string
  · rw [if_pos hstr] at hcount ⊢
    have hn : e.count = n := by rw [GgufKv.count, if_pos hstr, hcount.2]
    rw [hn]
    exact ⟨hone, hcount⟩
  · rw [if_neg hstr] at hcount ⊢
    have hpos : 0 < ggufTypeSize e.type := by
      have htype := h.type_ne
      revert hstr htype
      cases e.type <;> decide
    have hn : e.count = n := by rw [GgufKv.count, if_neg hstr, hcount.2, Nat.mul_div_cancel _ hpos]
    rw [hn]
    exact ⟨hone, hcount.1, hpos, hcount.2⟩

theorem getNe_eq_ok {e : GgufKv} (h : StorableKv e) : getNe e = .ok e.count := by
  obtain ⟨hone, hcount⟩ := h.count_eq
  rw [getNe]
  by_cases hstr : e.type = .string
  · rw [if_pos hstr] at hcount ⊢
    have hassert : (e.isArray || decide (e.dataString.length = 1)) = true := by
      cases hA : e.isArray with
      | true => rfl
      | false => simp [hcount.2, hone hA]
    refine (bind_eq_ok_iff).mpr ⟨(), (ggmlAssert_eq_ok).mpr hassert, ?_⟩
    rw [hcount.2]
    rfl
  · rw [if_neg hstr] at hcount ⊢
    obtain ⟨-, hpos, hlen⟩ := hcount
    have hdiv : e.data.length / ggufTypeSize e.type = e.count := by rw [hlen, Nat.mul_div_cancel _ hpos]
    have hassert : (e.isArray || decide (e.data.length / ggufTypeSize e.type = 1)) = true := by
      cases hA : e.isArray with
      | true => rfl
      | false => simp [hdiv, hone hA]
    rw [if_neg hpos.ne']
    refine (bind_eq_ok_iff).mpr ⟨(), (ggmlAssert_eq_ok).mpr (by simp [hlen]), ?_⟩
    refine (bind_eq_ok_iff).mpr ⟨(), (ggmlAssert_eq_ok).mpr hassert, ?_⟩
    rw [hdiv]
    rfl

theorem getVal_bool {e : GgufKv} (htype : e.type = .bool) {i : ℕ} (hi : i < e.data.length) :
    getVal .bool e i = .ok [e.data.getD i 0] := by
  have hdrop : (e.data.drop i).take 1 = [e.data.getD i 0] := by
    rw [drop_eq_getElem_cons hi, take_succ_cons, take_zero, getD_eq_getElem _ _ hi]
  refine (bind_eq_ok_iff).mpr ⟨(), (ggmlAssert_eq_ok).mpr (by simp [htype]), ?_⟩
  refine (bind_eq_ok_iff).mpr ⟨(), (ggmlAssert_eq_ok).mpr (by simp [ggufTypeSize, mod_one]), ?_⟩
  refine (bind_eq_ok_iff).mpr ⟨(), (ggmlAssert_eq_ok).mpr (by
    rw [decide_eq_true_iff, show ggufTypeSize .bool = 1 from rfl, mul_one]
    exact hi), ?_⟩
  rw [show ggufTypeSize .bool = 1 from rfl, mul_one, hdrop]
  rfl

theorem getValString_eq_ok {e : GgufKv} (htype : e.type = .string) {i : ℕ} (hi : i < e.dataString.length) :
    getValString e i = .ok (e.dataString.getD i []) := by
  refine (bind_eq_ok_iff).mpr ⟨(), (ggmlAssert_eq_ok).mpr (by simp [htype]), ?_⟩
  rw [getElem?_eq_getElem hi, getD_eq_getElem _ _ hi]
  rfl

theorem map_range_getD {α : Type} (l : List α) (d : α) : (List.range l.length).map (fun i => l.getD i d) = l := by
  refine ext_getElem (by simp) fun i h1 h2 => ?_
  simp [getElem?_eq_getElem h2]

theorem writeValue_eq_ok {e : GgufKv} (h : StorableKv e) : writeValue e e.count = .ok e.valueBytes := by
  obtain ⟨-, hcount⟩ := h.count_eq
  have hne := h.type_ne
  rw [writeValue, GgufKv.valueBytes]
  cases htype : e.type with
  | bool =>
    rw [htype, if_neg (by simp), show ggufTypeSize .bool = 1 from rfl, mul_one] at hcount
    rw [← hcount.2.2]
    have hmap := mapM_eq_ok fun i hi => getVal_bool htype (List.mem_range.mp hi)
    have hbytes : (List.range e.data.length).map (fun i => [e.data.getD i 0]) = e.data.map fun b => [b] := by
      nth_rewrite 3 [← map_range_getD e.data 0]
      rw [map_map]
      rfl
    rw [hbytes] at hmap
    refine (bind_eq_ok_iff).mpr ⟨_, hmap, congrArg ok ?_⟩
    rw [flatMap_map, map_eq_flatMap]
    rfl
  | string =>
    rw [htype, if_pos rfl] at hcount
    rw [← hcount.2]
    have hmap := mapM_eq_ok fun i hi => getValString_eq_ok htype (List.mem_range.mp hi)
    refine (bind_eq_ok_iff).mpr ⟨_, hmap, ?_⟩
    rw [map_range_getD]
    rfl
  | array => exact (hne htype).elim
  | _ => rfl

theorem writeKv_eq_ok {e : GgufKv} (h : StorableKv e) : writeKv e = .ok (kvBytes e) :=
  (bind_eq_ok_iff).mpr ⟨_, getNe_eq_ok h, (bind_eq_ok_iff).mpr ⟨_, writeValue_eq_ok h, rfl⟩⟩

theorem writeKvs_eq_ok {kv : List GgufKv} (h : ∀ e ∈ kv, StorableKv e) (out : List UInt8) :
    writeKvs out kv = .ok (out ++ kv.flatMap kvBytes) := by
  induction kv generalizing out with
  | nil =>
    rw [flatMap_nil, append_nil]
    rfl
  | cons e kv ih =>
    have hstep : (do
        let b ← writeKv e
        return out ++ b : Except Fault (List UInt8)) = .ok (out ++ kvBytes e) :=
      (bind_eq_ok_iff).mpr ⟨_, writeKv_eq_ok (h e (mem_cons_self ..)), rfl⟩
    rw [writeKvs, foldlM_cons]
    refine (bind_eq_ok_iff).mpr ⟨_, hstep, ?_⟩
    rw [flatMap_cons, ← append_assoc]
    exact ih (fun e' he' => h e' (mem_cons_of_mem _ he')) _

/-! ### How many zeros -/

def zeros (a n : ℕ) : ℕ := (a - n % a) % a

theorem dvd_add_zeros {a n : ℕ} (ha : 0 < a) : a ∣ n + zeros a n := by
  have hlt := Nat.mod_lt n ha
  refine Nat.dvd_of_mod_eq_zero ?_
  rw [zeros, Nat.add_mod_mod, ← Nat.mod_add_mod, Nat.add_sub_cancel' hlt.le, Nat.mod_self]

theorem zeros_eq_zero_iff {a n : ℕ} (ha : 0 < a) : zeros a n = 0 ↔ n % a = 0 := by
  have hlt := mod_lt n ha
  rw [zeros]
  constructor
  · intro h
    by_contra hne
    rw [mod_eq_of_lt (by omega)] at h
    omega
  · intro h
    rw [h, Nat.sub_zero, Nat.mod_self]

theorem zeros_succ {a n : ℕ} (ha : 0 < a) (hn : n % a ≠ 0) : zeros a n = zeros a (n + 1) + 1 := by
  have hlt := mod_lt n ha
  have hnext : (n + 1) % a = (n % a + 1) % a := (mod_add_mod n a 1).symm
  rw [zeros, zeros, hnext]
  generalize n % a = r at *
  rw [mod_eq_of_lt (by omega)]
  by_cases hlast : r + 1 = a
  · rw [hlast, Nat.mod_self, Nat.sub_zero, Nat.mod_self]
    omega
  · rw [mod_eq_of_lt (show r + 1 < a by omega), mod_eq_of_lt (show a - (r + 1) < a by omega)]
    omega

theorem padLoop_eq {a : ℕ} (ha : 0 < a) (hdvd : a ∣ 2 ^ 64) {fuel : ℕ} {out : List UInt8}
    (hfuel : zeros a out.length ≤ fuel) : padLoop a fuel out = out ++ List.replicate (zeros a out.length) 0 := by
  have hword : writtenBytes out % a = out.length % a := mod_mod_of_dvd _ hdvd
  induction fuel generalizing out with
  | zero =>
    rw [le_zero.mp hfuel, replicate_zero, append_nil]
    rfl
  | succ fuel ih =>
    rw [padLoop, hword]
    by_cases hzero : out.length % a = 0
    · rw [if_neg (by simpa using hzero), (zeros_eq_zero_iff ha).mpr hzero, replicate_zero, append_nil]
    · have hsucc := zeros_succ ha hzero
      have hlen : (out ++ [0]).length = out.length + 1 := by simp
      rw [if_pos hzero, ih (by rw [hlen]; omega) (mod_mod_of_dvd _ hdvd), hlen, hsucc, append_assoc,
        replicate_succ]
      rfl

theorem pad_eq {a : ℕ} (ha : a.isPowerOfTwo) (hle : a ≤ 2 ^ 64) (out : List UInt8) :
    pad a out = out ++ List.replicate (zeros a out.length) 0 := by
  have hpos := pos_of_isPowerOfTwo ha
  refine padLoop_eq hpos ?_ (mod_lt _ hpos).le
  obtain ⟨k, rfl⟩ := ha
  exact Nat.pow_dvd_pow 2 ((Nat.pow_le_pow_iff_right (by decide)).mp hle)

theorem add_zeros {a n : ℕ} (ha : a.isPowerOfTwo) (h : n + a ≤ 2 ^ 64) : n + zeros a n = ggmlPad n a := by
  have hpos := pos_of_isPowerOfTwo ha
  have hsplit := div_add_mod n a
  have hlt := Nat.mod_lt n hpos
  rw [ggmlPad_of_le ha h, zeros]
  generalize n / a = q at *
  generalize n % a = r at *
  subst hsplit
  rcases Nat.eq_zero_or_pos r with rfl | hr
  · have hdiv : (a * q + 0 + a - 1) / a = q := by
      rw [Nat.add_zero, Nat.add_sub_assoc hpos, Nat.mul_add_div hpos, Nat.div_eq_of_lt (by omega), Nat.add_zero]
    rw [hdiv, Nat.sub_zero, Nat.mod_self, Nat.mul_comm]
    rfl
  · have hdiv : (a * q + r + a - 1) / a = q + 1 := by
      have hsum : a * q + r + a - 1 = a * (q + 1) + (r - 1) := by
        rw [mul_succ]
        omega
      rw [hsum, mul_add_div hpos, div_eq_of_lt (by omega), add_zero]
    rw [hdiv, mod_eq_of_lt (by omega), succ_mul, mul_comm]
    omega

/-! ### The data of the tensors -/

def dataBytes (a : ℕ) (ti : GgufTensorInfo) : List UInt8 :=
  slice (ti.t.data.getD fun _ => 0) 0 (ggmlNbytes ti.t) ++ List.replicate (zeros a (ggmlNbytes ti.t)) 0

/-- What the writer asks of a tensor apart from its place. -/
structure Stored (mem : Memory) (t : GgmlTensor) : Prop where
  contiguous : ggmlIsContiguous t = true
  memory : mem.has (ggmlNbytes t) = true
  data : t.data.isSome = true

section

variable {mem : Memory} {a : ℕ}

theorem dataBytes_length (ha : a.isPowerOfTwo) (hle : a ≤ 2 ^ 63) {ti : GgufTensorInfo} (h : Stored mem ti.t) :
    (dataBytes a ti).length = paddedSize a ti := by
  have hlt := mem.max _ h.memory
  rw [dataBytes, length_append, slice_length, length_replicate, paddedSize]
  exact add_zeros ha (by omega)

theorem flatMap_dataBytes_length (ha : a.isPowerOfTwo) (hle : a ≤ 2 ^ 63) {info : List GgufTensorInfo}
    (h : ∀ ti ∈ info, Stored mem ti.t) : (info.flatMap (dataBytes a)).length = totalSize a info := by
  rw [length_flatMap, totalSize]
  congr 1
  exact map_congr_left fun ti hti => dataBytes_length ha hle (h ti hti)

theorem writeTensorData_eq_ok (ha : a.isPowerOfTwo) (hle : a ≤ 2 ^ 63) {base s : ℕ} {out : List UInt8}
    (hlen : out.length = base + s) (hdvd : a ∣ out.length) {ti : GgufTensorInfo} (hoff : ti.offset = s % 2 ^ 64)
    (h : Stored mem ti.t) : writeTensorData mem (base % 2 ^ 64) a out ti = .ok (out ++ dataBytes a ti) := by
  obtain ⟨data, hdata⟩ := Option.isSome_iff_exists.mp h.data
  have hplace : (writtenBytes out + (2 ^ 64 - base % 2 ^ 64)) % 2 ^ 64 = ti.offset := by
    rw [writtenBytes, hlen, hoff]
    omega
  have hzeros : zeros a (out ++ slice data 0 (ggmlNbytes ti.t)).length = zeros a (ggmlNbytes ti.t) := by
    obtain ⟨q, hq⟩ := hdvd
    rw [length_append, slice_length, hq, zeros, zeros, mul_add_mod]
  refine (bind_eq_ok_iff).mpr ⟨(), (ggmlAssert_eq_ok).mpr (decide_eq_true hplace), ?_⟩
  refine (bind_eq_ok_iff).mpr ⟨(), (ggmlAssert_eq_ok).mpr h.contiguous, ?_⟩
  dsimp only
  rw [if_pos h.memory, hdata]
  dsimp only
  rw [pad_eq ha (by omega), hzeros, dataBytes, hdata, append_assoc]
  rfl

/-- **The data of the tensors**, written one after the other: every assertion holds. -/
theorem writeData_eq_ok (ha : a.isPowerOfTwo) (hle : a ≤ 2 ^ 63) {base s : ℕ} {out : List UInt8}
    (hlen : out.length = base + s) (hdvd : a ∣ out.length) {info : List GgufTensorInfo} (hpacked : Packed a s info)
    (h : ∀ ti ∈ info, Stored mem ti.t) :
    info.foldlM (writeTensorData mem (base % 2 ^ 64) a) out = .ok (out ++ info.flatMap (dataBytes a)) := by
  induction info generalizing out s with
  | nil =>
    rw [flatMap_nil, append_nil]
    rfl
  | cons ti info ih =>
    obtain ⟨hoff, hpacked⟩ := hpacked
    have hti := h ti (mem_cons_self ..)
    have hnext : (out ++ dataBytes a ti).length = base + (s + paddedSize a ti) := by
      rw [length_append, dataBytes_length ha hle hti, hlen, add_assoc]
    have hdvd' : a ∣ (out ++ dataBytes a ti).length := by
      rw [length_append, dataBytes_length ha hle hti]
      exact Nat.dvd_add hdvd (dvd_ggmlPad ha (by omega))
    rw [foldlM_cons]
    refine (bind_eq_ok_iff).mpr ⟨_, writeTensorData_eq_ok ha hle hlen hdvd hoff hti, ?_⟩
    rw [flatMap_cons, ← append_assoc]
    exact ih hnext hdvd' hpacked fun ti' hti' => h ti' (mem_cons_of_mem _ hti')

end

/-! ### The whole file -/

def metaBytes (ctx : GgufContext) : List UInt8 :=
  headerBytes ctx.version ctx.info.length ctx.kv.length ++
    (ctx.kv.flatMap kvBytes ++ ctx.info.flatMap writeTensorMeta)

def fileBytes (ctx : GgufContext) : List UInt8 :=
  metaBytes ctx ++ (List.replicate (zeros ctx.alignment (metaBytes ctx).length) 0 ++
    ctx.info.flatMap (dataBytes ctx.alignment))

theorem foldl_writeTensorMeta (info : List GgufTensorInfo) (out : List UInt8) :
    info.foldl (fun out ti => out ++ writeTensorMeta ti) out = out ++ info.flatMap writeTensorMeta := by
  induction info generalizing out with
  | nil => simp
  | cons ti info ih => rw [foldl_cons, ih, flatMap_cons, append_assoc]

theorem writeMeta_eq_ok {ctx : GgufContext} (h : ∀ e ∈ ctx.kv, StorableKv e) : writeMeta ctx = .ok (metaBytes ctx) := by
  refine (bind_eq_ok_iff).mpr ⟨_, writeKvs_eq_ok h _, ?_⟩
  rw [foldl_writeTensorMeta, metaBytes, append_assoc]
  rfl

/-- **A coherent context is written without a fault**, when its tensors are contiguous and have data. -/
theorem ggufWriteToFile_eq_ok {mem : Memory} {ctx : GgufContext} (h : Coherent ctx)
    (hinfo : ∀ ti ∈ ctx.info, Stored mem ti.t) : ggufWriteToFile mem ctx false = .ok (fileBytes ctx) := by
  have hlt := alignmentOf_lt h.alignment
  have hpos := pos_of_isPowerOfTwo h.pow
  refine (bind_eq_ok_iff).mpr ⟨_, writeMeta_eq_ok h.kv, ?_⟩
  dsimp only
  rw [if_neg (by simp), pad_eq h.pow (by omega), writtenBytes]
  have hdvd : ctx.alignment ∣ (metaBytes ctx ++ List.replicate (zeros ctx.alignment (metaBytes ctx).length) 0).length := by
    rw [length_append, length_replicate]
    exact dvd_add_zeros hpos
  rw [writeData_eq_ok h.pow (by omega) (add_zero _).symm hdvd h.packed hinfo, fileBytes, append_assoc]

end Gguf
