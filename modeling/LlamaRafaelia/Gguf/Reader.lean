import LlamaRafaelia.Lib.Parse
import LlamaRafaelia.Gguf.Types

/-!
# GGUF: reading a file

`gguf_init_from_file_impl` returns a context, returns `nullptr`, or ends the process; a `try` block is `attempt`.  The
metadata is read from the front (`readMeta`), the offsets are compared with the size of the data section (`dataSize`),
and on request the blob is read (`loadData`).  Whether memory can be had is a parameter (`Memory`), asked for every
allocation whose size the file chooses.
-/

namespace Gguf

open ByteReader

/-- The allocator: whether an object of `n` bytes can be made.  An empty object always can; one of more than
`PTRDIFF_MAX` bytes never can. -/
structure Memory where
  has : ℕ → Bool
  zero : has 0 = true
  max : ∀ n, has n = true → n < 2 ^ 63

/-- `gguf_init_params`: whether `params.ctx` is given, and `no_alloc`. -/
structure GgufInitParams where
  ctx : Bool
  noAlloc : Bool

/-! ### Fields of a pair -/

/-- `GGML_ASSERT`. -/
def ggmlAssert (b : Bool) : Except Fault Unit := if b then .ok () else .error .assertion

/-- `gguf_kv::get_ne`. -/
def getNe (kv : GgufKv) : Except Fault ℕ :=
  if kv.type = .string then do
    ggmlAssert (kv.isArray || decide (kv.dataString.length = 1))
    return kv.dataString.length
  else if ggufTypeSize kv.type = 0 then .error .divByZero
  else do
    ggmlAssert (decide (kv.data.length % ggufTypeSize kv.type = 0))
    ggmlAssert (kv.isArray || decide (kv.data.length / ggufTypeSize kv.type = 1))
    return kv.data.length / ggufTypeSize kv.type

/-- `gguf_kv::get_val<T>(i)` for the type `T` of a number or a boolean: its bytes. -/
def getVal (type : GgufType) (kv : GgufKv) (i : ℕ) : Except Fault (List UInt8) := do
  ggmlAssert (decide (kv.type = type))
  ggmlAssert (decide (kv.data.length % ggufTypeSize type = 0))
  ggmlAssert (decide ((i + 1) * ggufTypeSize type ≤ kv.data.length))
  return (kv.data.drop (i * ggufTypeSize type)).take (ggufTypeSize type)

/-- `gguf_find_key`: the first pair whose key, as a C string, is `key`. -/
def ggufFindKey (kv : List GgufKv) (key : List UInt8) : Option ℕ := kv.findIdx? fun e => decide (cStr e.key = key)

/-- `gguf_get_val_u32`. -/
def ggufGetValU32 (kv : List GgufKv) (keyId : ℕ) : Except Fault ℕ :=
  match kv[keyId]? with
  | none => .error .assertion
  | some e => do
    let ne ← getNe e
    ggmlAssert (decide (ne = 1))
    let b ← getVal .uint32 e 0
    return leNat b

def liftExcept {α : Type} (x : Except Fault α) : ByteReader Fault α :=
  match x with
  | .ok a => pure a
  | .error e => crash e

/-! ### Values -/

/-- `gguf_reader::read(bool &)`: every byte but 0 is `true`. -/
def boolByte (b : UInt8) : UInt8 := if b = 0 then 0 else 1

section

variable (mem : Memory)

/-- `gguf_reader::read(std::string &)`: `resize` throws when the memory cannot be had. -/
def readString : ByteReader Fault (List UInt8) := do
  let size ← number 8
  if mem.has size then take size else crash .exception

def readStrings (n : ℕ) : ByteReader Fault (List (List UInt8)) :=
  repeatN (fun l => do
    let s ← readString mem
    return l ++ [s]) n []

/-- Values read one after the other with `gguf_reader::read(T &)`: their bytes, or the strings. -/
def readValues (type : GgufType) (n : ℕ) : ByteReader Fault (List UInt8 × List (List UInt8)) :=
  match type with
  | .string => do
    let l ← readStrings mem n
    return ([], l)
  | .bool => do
    let b ← take n
    return (b.map boolByte, [])
  | _ => do
    let b ← take (n * ggufTypeSize type)
    return (b, [])

/-- The bytes of a `std::vector<T>` with `n` elements.  A `std::vector<bool>` holds its elements in words of 64
bits. -/
def vectorBytes (type : GgufType) (n : ℕ) : ℕ :=
  match type with
  | .string => n * sizeofString
  | .bool => (n + 63) / 64 * 8
  | _ => n * ggufTypeSize type

/-- `gguf_reader::read(std::vector<T> &, n)`: the vector is resized, then its elements are read. -/
def readVector (type : GgufType) (n : ℕ) : ByteReader Fault (List UInt8 × List (List UInt8)) :=
  if mem.has (vectorBytes type n) then readValues mem type n else crash .exception

/-- `gguf_kv::gguf_kv`: the key must not be empty, and `data` is resized to hold the bytes of an array. -/
def newKv (key : List UInt8) (isArray : Bool) (type : GgufType) (value : List UInt8 × List (List UInt8)) :
    Except Fault GgufKv :=
  if key = [] then .error .assertion
  else if isArray && !mem.has value.1.length then .error .exception
  else .ok ⟨key, isArray, type, value.1, value.2⟩

/-- The value of a pair: reading an array is in a `try` block, reading a single value is not. -/
def readValue (isArray : Bool) (type : GgufType) (n : ℕ) : ByteReader Fault (List UInt8 × List (List UInt8)) :=
  if isArray then attempt (readVector mem type n) else readValues mem type 1

/-- `gguf_read_emplace_helper`. -/
def ggufReadEmplaceHelper (kv : List GgufKv) (key : List UInt8) (isArray : Bool) (type : GgufType) (n : ℕ) :
    ByteReader Fault (List GgufKv) := do
  let value ← readValue mem isArray type n
  let e ← liftExcept (newKv mem key isArray type value)
  return kv ++ [e]

/-- The type of a value, and for an array the type and the number of its elements. -/
def readType : ByteReader Fault (Bool × ℕ × ℕ) := do
  let type ← number 4
  if type = GgufType.array.code then do
    let type ← number 4
    let n ← number 8
    return (true, type, n)
  else return (false, type, 1)

/-- The cases of the `switch` over the type of a value: there is none for an array of arrays. -/
def valueType (code : ℕ) : Option GgufType :=
  match GgufType.ofCode code with
  | some .array => none
  | type => type

/-- One key/value pair, after the pairs `kv`. -/
def readKv (kv : List GgufKv) : ByteReader Fault (List GgufKv) := do
  let key ← attempt (readString mem)
  if kv.any fun e => decide (e.key = key) then fail
  else do
    let (isArray, code, n) ← readType
    let type ← ofOption (valueType code)
    ggufReadEmplaceHelper mem kv key isArray type n

/-- The alignment that the pairs ask for: the entry `general.alignment` if there is one. -/
def alignmentOf (kv : List GgufKv) : Except Fault ℕ :=
  match ggufFindKey kv ggufKeyGeneralAlignment with
  | none => .ok ggufDefaultAlignment
  | some i => ggufGetValU32 kv i

def readAlignment (kv : List GgufKv) : ByteReader Fault ℕ := do
  let alignment ← liftExcept (alignmentOf kv)
  if alignment = 0 ∨ alignment &&& (alignment - 1) ≠ 0 then fail else return alignment

/-! ### Tensor descriptions -/

/-- One dimension: 1 unless the file has it.  Negative numbers are rejected. -/
def readNe (present : Bool) : ByteReader Fault ℕ :=
  if present then do
    let ne ← number 8
    if 2 ^ 63 ≤ ne then fail else return ne
  else return 1

/-- The check that the number of elements is representable: `INT64_MAX/ne[1] <= ne[0]` and so on, from left to right.
The products do not overflow where they are computed. -/
def checkNelements (ne : Dims) : ByteReader Fault Unit :=
  if ne.d1 = 0 then crash .divByZero
  else if int64Max / ne.d1 ≤ ne.d0 then fail
  else if ne.d2 = 0 then crash .divByZero
  else if int64Max / ne.d2 ≤ ne.d0 * ne.d1 then fail
  else if ne.d3 = 0 then crash .divByZero
  else if int64Max / ne.d3 ≤ ne.d0 * ne.d1 * ne.d2 then fail
  else return ()

/-- The dimensions of a tensor, the first `nDims` of which are in the file. -/
def readDims (nDims : ℕ) : ByteReader Fault Dims := do
  let d0 ← readNe (decide (0 < nDims))
  let d1 ← readNe (decide (1 < nDims))
  let d2 ← readNe (decide (2 < nDims))
  let d3 ← readNe (decide (3 < nDims))
  return ⟨d0, d1, d2, d3⟩

def readShape : ByteReader Fault Dims := do
  let nDims ← number 4
  if ggmlMaxDims < nDims then fail
  else do
    let ne ← readDims nDims
    checkNelements ne
    return ne

/-- The name of a tensor: at most 63 bytes, and not the name of a tensor before it. -/
def readName (info : List GgufTensorInfo) : ByteReader Fault TensorName := do
  let name ← attempt (readString mem)
  if ggmlMaxName ≤ name.length then fail
  else if info.any fun ti => decide (ti.t.name = ggmlSetName name) then fail
  else return ggmlSetName name

/-- The description of one tensor, after those in `info`. -/
def readInfo (info : List GgufTensorInfo) : ByteReader Fault (List GgufTensorInfo) := do
  let name ← readName mem info
  let ne ← readShape
  let code ← number 4
  let type ← ofOption (GgmlType.ofCode code)
  if ne.d0 % ggmlBlckSize type ≠ 0 then fail
  else do
    let offset ← number 8
    return info ++ [⟨⟨name, type, ne, strides type ne, none⟩, offset⟩]

/-! ### The metadata -/

/-- The header: the version and the numbers of tensors and of pairs.  A negative number is above the bound too. -/
def readHeader : ByteReader Fault (ℕ × ℕ × ℕ) := do
  let magic ← take 4
  if magic ≠ ggufMagic then fail
  else do
    let version ← number 4
    if version = 0 ∨ version % 2 ^ 16 = 0 ∨ version = 1 ∨ ggufVersion < version then fail
    else do
      let nTensors ← number 8
      if sizeMax / sizeofGgufTensorInfo < nTensors then fail
      else do
        let nKv ← number 8
        if sizeMax / sizeofGgufKv < nKv then fail else return (version, nTensors, nKv)

def readMeta : ByteReader Fault GgufContext := do
  let (version, nTensors, nKv) ← readHeader
  let kv ← repeatN (readKv mem) nKv []
  liftExcept (ggmlAssert (decide (kv.length = nKv)))
  let alignment ← readAlignment kv
  let info ← repeatN (readInfo mem) nTensors []
  liftExcept (ggmlAssert (decide (info.length = nTensors)))
  return ⟨version, kv, info, alignment, 0, 0, none⟩

/-! ### The data section -/

/-- The size of the data section, when the tensors lie one after the other, each padded to the alignment, and the
sum does not overflow. -/
def dataSize (alignment : ℕ) : ℕ → List GgufTensorInfo → Option ℕ
  | size, [] => some size
  | size, ti :: rest =>
    if ti.offset ≠ size then none
    else
      let paddedSize := ggmlPad (ggmlNbytes ti.t) alignment
      if sizeMax - size < paddedSize then none else dataSize alignment (size + paddedSize) rest

/-- The memory pool of a `ggml_context`: its size, and where its last object ends. -/
structure GgmlContext where
  memSize : ℕ
  used : ℕ

/-- `ggml_init` without a buffer of the caller.  `ggml_aligned_malloc` does not allocate 0 bytes. -/
def ggmlInit (memSize : ℕ) : Except Fault GgmlContext :=
  let memSize := ggmlPad (if memSize = 0 then ggmlMemAlign else memSize) ggmlMemAlign
  do
    ggmlAssert (decide (memSize ≠ 0) && mem.has memSize)
    return ⟨memSize, 0⟩

/-- `ggml_new_object`. -/
def ggmlNewObject (ctx : GgmlContext) (size : ℕ) : Option GgmlContext :=
  let sizeNeeded := ggmlPad size ggmlMemAlign
  if ctx.memSize < (ctx.used + sizeNeeded + ggmlObjectSize) % 2 ^ 64 then none
  else some ⟨ctx.memSize, (ctx.used + ggmlObjectSize + sizeNeeded) % 2 ^ 64⟩

/-- `ggml_new_tensor_impl`, for a tensor with `objAllocSize` bytes of data in the pool: `GGML_ASSERT(obj_new)`.  The
header of the object and the tensor are written even where the sums of `ggml_new_object` wrapped. -/
def ggmlNewTensorImpl (ctx : GgmlContext) (objAllocSize : ℕ) : Except Fault GgmlContext :=
  match ggmlNewObject ctx ((ggmlTensorSize + objAllocSize) % 2 ^ 64) with
  | none => .error .assertion
  | some ctx' => if ctx.memSize < ctx.used + ggmlTensorOverhead then .error .outOfBounds else .ok ctx'

/-- A tensor of the new `ggml_context`; `dataAt` is where its data pointer points, counted from the blob. -/
structure LoadedTensor where
  name : TensorName
  type : GgmlType
  ne : Dims
  nb : Dims
  dataAt : Option ℕ
deriving DecidableEq

/-- The loop that creates the tensors.  They have no data of their own in the pool. -/
def createTensors (noAlloc : Bool) : GgmlContext → List GgufTensorInfo → Except Fault (List LoadedTensor)
  | _, [] => .ok []
  | ctx, ti :: rest => do
    let ctx ← ggmlNewTensorImpl ctx 0
    let l ← createTensors noAlloc ctx rest
    return ⟨ggmlSetName ti.t.name.1, ti.t.type, ti.t.ne, strides ti.t.type ti.t.ne,
      if noAlloc then none else some ti.offset⟩ :: l

/-- The context that is returned, and the tensors of the `ggml_context` when one was asked for. -/
structure Loaded where
  ctx : GgufContext
  tensors : Option (List LoadedTensor)

/-- The part after the metadata for `params.ctx`: `data` is the file from the data section on. -/
def loadData (params : GgufInitParams) (ctx : GgufContext) (data : List UInt8) : Except Fault (Option Loaded) :=
  let n := ctx.info.length
  if params.noAlloc then do
    let pool ← ggmlInit mem (n * ggmlTensorOverhead % 2 ^ 64)
    let tensors ← createTensors true pool ctx.info
    return some ⟨ctx, some tensors⟩
  else do
    let pool ← ggmlInit mem (((n + 1) * ggmlTensorOverhead + ctx.size) % 2 ^ 64)
    let pool' ← ggmlNewTensorImpl pool ctx.size
    -- `fread` puts what there is of the blob behind the tensor
    if pool.memSize < ggmlTensorOverhead + min data.length ctx.size then .error .outOfBounds
    else if data.length < ctx.size then return none
    else do
      let tensors ← createTensors false pool' ctx.info
      return some ⟨{ ctx with data := some (data.take ctx.size) }, some tensors⟩

/-- `gguf_init_from_file_impl`: a context, `none` for `nullptr`, or the fault that ends the process. -/
def ggufInitFromFileImpl (params : GgufInitParams) (file : List UInt8) : Except Fault (Option Loaded) :=
  match readMeta mem file with
  | .fail => .ok none
  | .crash e => .error e
  | .ok ctx rest =>
    -- `fseek` to the padded position; a position beyond `LONG_MAX` is refused
    let offset := ggmlPad (file.length - rest.length) ctx.alignment
    if 2 ^ 63 ≤ offset then .ok none
    else
      match dataSize ctx.alignment 0 ctx.info with
      | none => .ok none
      | some size =>
        let ctx := { ctx with offset := offset, size := size }
        if params.ctx then loadData mem params ctx (file.drop offset) else .ok (some ⟨ctx, none⟩)

end

end Gguf
