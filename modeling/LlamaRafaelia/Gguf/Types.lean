import LlamaRafaelia.Lib.Bytes
import Mathlib.Data.List.Nodup
import Mathlib.Data.List.TakeWhile
import Mathlib.Data.Nat.Bitwise

/-!
# GGUF: the data model

A GGUF file holds a list of key/value pairs, a list of tensor descriptions and one blob with the tensors' bytes.
This module has the types of `gguf.h`, `ggml.h` and `gguf.cpp` that the reader, the setters and the writer share:

Numbers of the source that are 64-bit words are natural numbers here, reduced modulo `2 ^ 64` where the source
computes in words.  `std::string` and `std::vector<int8_t>` are lists of bytes.

* `ggmlPad`, `ggmlNbytes`, `ggmlNDims`, `ggmlIsContiguous`, computed in 64-bit words as the source does.
-/

namespace Gguf

open List

/-! ### Constants -/

/-- `SIZE_MAX`. -/
def sizeMax : ℕ := 2 ^ 64 - 1

/-- `INT64_MAX`. -/
def int64Max : ℕ := 2 ^ 63 - 1

/-- `GGML_MAX_NAME`. -/
def ggmlMaxName : ℕ := 64

/-- `GGML_MAX_DIMS`. -/
def ggmlMaxDims : ℕ := 4

/-- `GGML_MEM_ALIGN`. -/
def ggmlMemAlign : ℕ := 16

/-- `GGML_OBJECT_SIZE`, the size of a `ggml_object`. -/
def ggmlObjectSize : ℕ := 32

/-- `GGML_TENSOR_SIZE`, the size of a `ggml_tensor`. -/
def ggmlTensorSize : ℕ := 336

/-- `ggml_tensor_overhead`. -/
def ggmlTensorOverhead : ℕ := ggmlObjectSize + ggmlTensorSize

/-- The size of a `gguf_kv`. -/
def sizeofGgufKv : ℕ := 88

/-- The size of a `gguf_tensor_info`. -/
def sizeofGgufTensorInfo : ℕ := 344

/-- The size of a `std::string`. -/
def sizeofString : ℕ := 32

/-- `GGUF_MAGIC`. -/
def ggufMagic : List UInt8 := [0x47, 0x47, 0x55, 0x46]

/-- `GGUF_VERSION`. -/
def ggufVersion : ℕ := 3

/-- `GGUF_DEFAULT_ALIGNMENT`. -/
def ggufDefaultAlignment : ℕ := 32

/-- `GGUF_KEY_GENERAL_ALIGNMENT`: the bytes of `general.alignment`. -/
def ggufKeyGeneralAlignment : List UInt8 :=
  [0x67, 0x65, 0x6e, 0x65, 0x72, 0x61, 0x6c, 0x2e, 0x61, 0x6c, 0x69, 0x67, 0x6e, 0x6d, 0x65, 0x6e, 0x74]

/-! ### Types of values -/

/-- `gguf_type`. -/
inductive GgufType where
  | uint8 | int8 | uint16 | int16 | uint32 | int32 | float32 | bool | string | array | uint64 | int64 | float64
deriving DecidableEq

namespace GgufType

def code : GgufType → ℕ
  | uint8 => 0 | int8 => 1 | uint16 => 2 | int16 => 3 | uint32 => 4 | int32 => 5 | float32 => 6
  | bool => 7 | string => 8 | array => 9 | uint64 => 10 | int64 => 11 | float64 => 12

def all : List GgufType :=
  [uint8, int8, uint16, int16, uint32, int32, float32, bool, string, array, uint64, int64, float64]

def ofCode (c : ℕ) : Option GgufType := all.find? fun t => t.code = c

end GgufType

/-- `gguf_type_size`; the sizes of strings and arrays are undefined, and the table holds 0 for them. -/
def ggufTypeSize : GgufType → ℕ
  | .uint8 => 1 | .int8 => 1 | .uint16 => 2 | .int16 => 2 | .uint32 => 4 | .int32 => 4 | .float32 => 4
  | .bool => 1 | .string => 0 | .array => 0 | .uint64 => 8 | .int64 => 8 | .float64 => 8

/-! ### Types of tensor elements -/

/-- `ggml_type`.  The codes whose types were removed have a block size of 0 in `type_traits`. -/
inductive GgmlType where
  | f32 | f16 | q4_0 | q4_1 | q5_0 | q5_1 | q8_0 | q8_1 | q2_K | q3_K | q4_K | q5_K | q6_K | q8_K
  | iq2_xxs | iq2_xs | iq3_xxs | iq1_s | iq4_nl | iq3_s | iq2_s | iq4_xs | i8 | i16 | i32 | i64 | f64
  | iq1_m | bf16 | tq1_0 | tq2_0 | mxfp4
deriving DecidableEq

namespace GgmlType

def code : GgmlType → ℕ
  | f32 => 0 | f16 => 1 | q4_0 => 2 | q4_1 => 3 | q5_0 => 6 | q5_1 => 7 | q8_0 => 8 | q8_1 => 9
  | q2_K => 10 | q3_K => 11 | q4_K => 12 | q5_K => 13 | q6_K => 14 | q8_K => 15
  | iq2_xxs => 16 | iq2_xs => 17 | iq3_xxs => 18 | iq1_s => 19 | iq4_nl => 20 | iq3_s => 21 | iq2_s => 22
  | iq4_xs => 23 | i8 => 24 | i16 => 25 | i32 => 26 | i64 => 27 | f64 => 28 | iq1_m => 29 | bf16 => 30
  | tq1_0 => 34 | tq2_0 => 35 | mxfp4 => 39

def all : List GgmlType :=
  [f32, f16, q4_0, q4_1, q5_0, q5_1, q8_0, q8_1, q2_K, q3_K, q4_K, q5_K, q6_K, q8_K, iq2_xxs, iq2_xs, iq3_xxs,
    iq1_s, iq4_nl, iq3_s, iq2_s, iq4_xs, i8, i16, i32, i64, f64, iq1_m, bf16, tq1_0, tq2_0, mxfp4]

/-- The type with a given code.  There is none for a code outside the enumeration or of a removed type. -/
def ofCode (c : ℕ) : Option GgmlType := all.find? fun t => t.code = c

end GgmlType

/-- `ggml_blck_size`: the number of elements in a block. -/
def ggmlBlckSize : GgmlType → ℕ
  | .f32 => 1 | .f16 => 1 | .bf16 => 1 | .f64 => 1 | .i8 => 1 | .i16 => 1 | .i32 => 1 | .i64 => 1
  | .q4_0 => 32 | .q4_1 => 32 | .q5_0 => 32 | .q5_1 => 32 | .q8_0 => 32 | .q8_1 => 32 | .iq4_nl => 32
  | .mxfp4 => 32
  | .q2_K => 256 | .q3_K => 256 | .q4_K => 256 | .q5_K => 256 | .q6_K => 256 | .q8_K => 256
  | .iq2_xxs => 256 | .iq2_xs => 256 | .iq3_xxs => 256 | .iq1_s => 256 | .iq3_s => 256 | .iq2_s => 256
  | .iq4_xs => 256 | .iq1_m => 256 | .tq1_0 => 256 | .tq2_0 => 256

/-- `ggml_type_size`: the number of bytes of a block. -/
def ggmlTypeSize : GgmlType → ℕ
  | .f32 => 4 | .f16 => 2 | .bf16 => 2 | .f64 => 8 | .i8 => 1 | .i16 => 2 | .i32 => 4 | .i64 => 8
  | .q4_0 => 18 | .q4_1 => 20 | .q5_0 => 22 | .q5_1 => 24 | .q8_0 => 34 | .q8_1 => 36 | .iq4_nl => 18
  | .mxfp4 => 17
  | .q2_K => 84 | .q3_K => 110 | .q4_K => 144 | .q5_K => 176 | .q6_K => 210 | .q8_K => 292
  | .iq2_xxs => 66 | .iq2_xs => 74 | .iq3_xxs => 98 | .iq1_s => 50 | .iq3_s => 110 | .iq2_s => 82
  | .iq4_xs => 136 | .iq1_m => 56 | .tq1_0 => 54 | .tq2_0 => 66

/-! ### Strings -/

/-- `std::string::c_str`, read as a C string: the bytes before the first NUL. -/
def cStr (s : List UInt8) : List UInt8 := s.takeWhile fun c => decide (c ≠ 0)

def CString : Type := { s : List UInt8 // 0 ∉ s }

instance : DecidableEq CString := inferInstanceAs (DecidableEq { s : List UInt8 // 0 ∉ s })

/-- The name of a tensor: `char name[GGML_MAX_NAME]`, ended by a NUL. -/
def TensorName : Type := { s : List UInt8 // s.length < ggmlMaxName ∧ 0 ∉ s }

instance : DecidableEq TensorName :=
  inferInstanceAs (DecidableEq { s : List UInt8 // s.length < ggmlMaxName ∧ 0 ∉ s })

theorem zero_notMem_cStr (s : List UInt8) : 0 ∉ cStr s := fun h => by
  simpa using mem_takeWhile_imp h

/-- A string as the C string that `c_str` gives. -/
def toCString (s : List UInt8) : CString := ⟨cStr s, zero_notMem_cStr s⟩

/-- `ggml_set_name`: the name is cut at its first NUL and after 63 bytes. -/
def ggmlSetName (s : List UInt8) : TensorName :=
  ⟨(cStr s).take (ggmlMaxName - 1), by
    have : ((cStr s).take (ggmlMaxName - 1)).length ≤ ggmlMaxName - 1 := length_take_le _ _
    have : ggmlMaxName = 64 := rfl
    omega, fun h => zero_notMem_cStr s (mem_of_mem_take h)⟩

/-! ### Tensors -/

/-- One number for each of the `GGML_MAX_DIMS` dimensions: `ne` or `nb` of a tensor. -/
structure Dims where
  d0 : ℕ
  d1 : ℕ
  d2 : ℕ
  d3 : ℕ
deriving DecidableEq

/-- The fields of `ggml_tensor` that GGUF uses.  `data` is the memory from the data pointer on, or from the
tensor's place in its backend buffer; `none` is the null pointer. -/
structure GgmlTensor where
  name : TensorName
  type : GgmlType
  ne : Dims
  nb : Dims
  data : Option (ℕ → UInt8)

/-- The strides of a contiguous tensor, as `gguf_init_from_file_impl`, `gguf_set_tensor_type` and
`ggml_new_tensor_impl` compute them. -/
def strides (type : GgmlType) (ne : Dims) : Dims :=
  let nb0 := ggmlTypeSize type
  let nb1 := nb0 * (ne.d0 / ggmlBlckSize type) % 2 ^ 64
  let nb2 := nb1 * ne.d1 % 2 ^ 64
  let nb3 := nb2 * ne.d2 % 2 ^ 64
  ⟨nb0, nb1, nb2, nb3⟩

/-- `GGML_PAD` on 64-bit words: `(x + n - 1) & ~(n - 1)`. -/
def ggmlPad (x n : ℕ) : ℕ := (x + n - 1) % 2 ^ 64 &&& (2 ^ 64 - n)

/-- `ggml_nbytes`. -/
def ggmlNbytes (t : GgmlTensor) : ℕ :=
  if t.ne.d0 = 0 ∨ t.ne.d1 = 0 ∨ t.ne.d2 = 0 ∨ t.ne.d3 = 0 then 0
  else
    let rest := (t.ne.d1 - 1) * t.nb.d1 + (t.ne.d2 - 1) * t.nb.d2 + (t.ne.d3 - 1) * t.nb.d3
    if ggmlBlckSize t.type = 1 then (ggmlTypeSize t.type + (t.ne.d0 - 1) * t.nb.d0 + rest) % 2 ^ 64
    else (t.ne.d0 * t.nb.d0 % 2 ^ 64 / ggmlBlckSize t.type + rest) % 2 ^ 64

/-- `ggml_n_dims`: trailing dimensions of one element do not count. -/
def ggmlNDims (t : GgmlTensor) : ℕ :=
  if 1 < t.ne.d3 then 4 else if 1 < t.ne.d2 then 3 else if 1 < t.ne.d1 then 2 else 1

/-- One dimension of the loop of `ggml_is_contiguous_n`: the answer so far and the stride that the next dimension
with more than one element has to have. -/
def contiguousDim (ne nb : ℕ) (state : Bool × ℕ) : Bool × ℕ :=
  if ne = 1 then state else (state.1 && decide (nb = state.2), state.2 * ne % 2 ^ 64)

/-- `ggml_is_contiguous`. -/
def ggmlIsContiguous (t : GgmlTensor) : Bool :=
  let size := ggmlTypeSize t.type
  let blck := ggmlBlckSize t.type
  let first := decide (t.ne.d0 = blck ∨ t.nb.d0 = size)
  (contiguousDim t.ne.d3 t.nb.d3 <| contiguousDim t.ne.d2 t.nb.d2 <| contiguousDim t.ne.d1 t.nb.d1
    (first, size * (t.ne.d0 / blck) % 2 ^ 64)).1

/-! ### The context -/

/-- `gguf_kv`. -/
structure GgufKv where
  key : List UInt8
  isArray : Bool
  type : GgufType
  data : List UInt8
  dataString : List (List UInt8)
deriving DecidableEq

/-- `gguf_tensor_info`. -/
structure GgufTensorInfo where
  t : GgmlTensor
  offset : ℕ

/-- `gguf_context`.  `data` is the blob that was read, `none` while nothing was. -/
structure GgufContext where
  version : ℕ
  kv : List GgufKv
  info : List GgufTensorInfo
  alignment : ℕ
  offset : ℕ
  size : ℕ
  data : Option (List UInt8)

/-- What can end the process: a failed `GGML_ASSERT` (or `GGML_ABORT`), an integer division by zero, an exception
that nobody catches, a write outside of a buffer. -/
inductive Fault where
  | assertion
  | divByZero
  | exception
  | outOfBounds
deriving DecidableEq

/-! ### Facts about codes and sizes -/

namespace GgufType

theorem mem_all (t : GgufType) : t ∈ all := by cases t <;> decide

theorem code_injective {t t' : GgufType} (h : t.code = t'.code) : t = t' := by
  revert h
  cases t <;> cases t' <;> decide

theorem code_lt (t : GgufType) : t.code < 2 ^ 32 := by cases t <;> decide

theorem ofCode_eq_some_iff {c : ℕ} {t : GgufType} : ofCode c = some t ↔ t.code = c := by
  constructor
  · intro h
    simpa using find?_some h
  · rintro rfl
    have hsome : (ofCode t.code).isSome := find?_isSome.mpr ⟨t, mem_all t, by simp⟩
    obtain ⟨t', ht'⟩ := Option.isSome_iff_exists.mp hsome
    have hcode : t'.code = t.code := by simpa using find?_some ht'
    rw [ht', code_injective hcode]

end GgufType

namespace GgmlType

theorem mem_all (t : GgmlType) : t ∈ all := by cases t <;> decide

theorem code_lt (t : GgmlType) : t.code < 2 ^ 32 := by cases t <;> decide

theorem code_injective : Function.Injective code := by
  have h : (all.map code).Nodup := by decide
  intro t t' heq
  exact inj_on_of_nodup_map h (mem_all t) (mem_all t') heq

theorem ofCode_eq_some_iff {c : ℕ} {t : GgmlType} : ofCode c = some t ↔ t.code = c := by
  constructor
  · intro h
    simpa using find?_some h
  · rintro rfl
    have hsome : (ofCode t.code).isSome := find?_isSome.mpr ⟨t, mem_all t, by simp⟩
    obtain ⟨t', ht'⟩ := Option.isSome_iff_exists.mp hsome
    have hcode : t'.code = t.code := by simpa using find?_some ht'
    rw [ht', code_injective hcode]

end GgmlType

theorem ggmlBlckSize_pos (t : GgmlType) : 0 < ggmlBlckSize t := by cases t <;> decide

theorem ggmlBlckSize_dvd (t : GgmlType) : ggmlBlckSize t ∣ 2 ^ 64 := by cases t <;> decide

theorem ggmlTypeSize_lt (t : GgmlType) : 1 < ggmlBlckSize t → ggmlTypeSize t < 2 * ggmlBlckSize t := by
  cases t <;> decide

/-! ### Padding -/

theorem and_clear_low {y k : ℕ} (hy : y < 2 ^ 64) (hk : k ≤ 64) : y &&& (2 ^ 64 - 2 ^ k) = y / 2 ^ k * 2 ^ k := by
  have hmask : 2 ^ 64 - 2 ^ k = (2 ^ (64 - k) - 1) <<< k := by
    rw [Nat.shiftLeft_eq, Nat.sub_mul, ← Nat.pow_add, Nat.sub_add_cancel hk, Nat.one_mul]
  have hhigh : y / 2 ^ k < 2 ^ (64 - k) := by
    rw [Nat.div_lt_iff_lt_mul (Nat.two_pow_pos k), ← Nat.pow_add, Nat.sub_add_cancel hk]
    exact hy
  have hand : y / 2 ^ k &&& (2 ^ (64 - k) - 1) = y / 2 ^ k := by
    rw [Nat.and_two_pow_sub_one_eq_mod, Nat.mod_eq_of_lt hhigh]
  rw [hmask, ← Nat.shiftLeft_eq]
  nth_rewrite 1 [← hand]
  rw [← Nat.shiftRight_eq_div_pow]
  apply Nat.eq_of_testBit_eq
  intro i
  simp only [Nat.testBit_and, Nat.testBit_shiftLeft, Nat.testBit_shiftRight]
  by_cases hi : k ≤ i
  · simp [hi, Nat.add_sub_cancel' hi]
  · simp [hi]

theorem ggmlPad_eq {x n : ℕ} (hn : n.isPowerOfTwo) (hle : n ≤ 2 ^ 64) : ggmlPad x n = (x + n - 1) % 2 ^ 64 / n * n := by
  obtain ⟨k, rfl⟩ := hn
  exact and_clear_low (Nat.mod_lt _ (by decide)) ((Nat.pow_le_pow_iff_right (by decide)).mp hle)

end Gguf
