import LlamaRafaelia.Gguf.Format

/-!
# GGUF: building a context

The public functions that change a `gguf_context`.  A function that ends the process returns a fault.  The setters of
single values are one function, `setVal`, applied to a value of one of the twelve types; a run is a list of calls
(`run`).
-/

namespace Gguf

/-- `gguf_init_empty`. -/
def ggufInitEmpty : GgufContext := ⟨ggufVersion, [], [], ggufDefaultAlignment, 0, 0, none⟩

/-- `gguf_remove_key`: the first pair with the key, as a C string, is removed. -/
def ggufRemoveKey (ctx : GgufContext) (key : CString) : GgufContext :=
  match ggufFindKey ctx.kv key.1 with
  | none => ctx
  | some i => { ctx with kv := ctx.kv.eraseIdx i }

/-! ### Pairs -/

/-- A value that a setter takes.  Floating point numbers are given by their bits. -/
inductive Scalar where
  | u8 (val : UInt8)
  | i8 (val : Int8)
  | u16 (val : UInt16)
  | i16 (val : Int16)
  | u32 (val : UInt32)
  | i32 (val : Int32)
  | f32 (bits : UInt32)
  | u64 (val : UInt64)
  | i64 (val : Int64)
  | f64 (bits : UInt64)
  | bool (val : Bool)
  | str (val : CString)
deriving DecidableEq

namespace Scalar

/-- `type_to_gguf_type`. -/
def type : Scalar → GgufType
  | u8 _ => .uint8 | i8 _ => .int8 | u16 _ => .uint16 | i16 _ => .int16 | u32 _ => .uint32 | i32 _ => .int32
  | f32 _ => .float32 | u64 _ => .uint64 | i64 _ => .int64 | f64 _ => .float64 | bool _ => .bool | str _ => .string

def data : Scalar → List UInt8
  | u8 val => leBytes 1 val.toNat
  | i8 val => leBytes 1 val.toUInt8.toNat
  | u16 val => leBytes 2 val.toNat
  | i16 val => leBytes 2 val.toUInt16.toNat
  | u32 val => leBytes 4 val.toNat
  | i32 val => leBytes 4 val.toUInt32.toNat
  | f32 bits => leBytes 4 bits.toNat
  | u64 val => leBytes 8 val.toNat
  | i64 val => leBytes 8 val.toUInt64.toNat
  | f64 bits => leBytes 8 bits.toNat
  | bool val => [if val then 1 else 0]
  | str _ => []

def dataString : Scalar → List (List UInt8)
  | str val => [val.1]
  | _ => []

end Scalar

/-- `gguf_check_reserved_keys` for a single value: `general.alignment` has to be a `u32` that is a power of two. -/
def ggufCheckReservedKeys (key : CString) (val : Scalar) : Except Fault Unit :=
  if key.1 = ggufKeyGeneralAlignment then
    match val with
    | .u32 val => ggmlAssert (decide (0 < val.toNat ∧ val.toNat &&& (val.toNat - 1) = 0))
    | _ => .error .assertion
  else .ok ()

/-- `gguf_check_reserved_keys` for an array, which has another type than `u32`. -/
def ggufCheckReservedKeysArr (key : CString) : Except Fault Unit :=
  ggmlAssert (decide (key.1 ≠ ggufKeyGeneralAlignment))

/-- `ctx->kv.emplace_back`: the constructors of `gguf_kv` require a key that is not empty. -/
def emplaceBack (ctx : GgufContext) (e : GgufKv) : Except Fault GgufContext := do
  ggmlAssert (decide (e.key ≠ []))
  return { ctx with kv := ctx.kv ++ [e] }

def setVal (ctx : GgufContext) (key : CString) (val : Scalar) : Except Fault GgufContext := do
  ggufCheckReservedKeys key val
  emplaceBack (ggufRemoveKey ctx key) ⟨key.1, false, val.type, val.data, val.dataString⟩

def ggufSetValU8 (ctx : GgufContext) (key : CString) (val : UInt8) : Except Fault GgufContext := setVal ctx key (.u8 val)

def ggufSetValI8 (ctx : GgufContext) (key : CString) (val : Int8) : Except Fault GgufContext := setVal ctx key (.i8 val)

def ggufSetValU16 (ctx : GgufContext) (key : CString) (val : UInt16) : Except Fault GgufContext :=
  setVal ctx key (.u16 val)

def ggufSetValI16 (ctx : GgufContext) (key : CString) (val : Int16) : Except Fault GgufContext :=
  setVal ctx key (.i16 val)

def ggufSetValU32 (ctx : GgufContext) (key : CString) (val : UInt32) : Except Fault GgufContext :=
  setVal ctx key (.u32 val)

def ggufSetValI32 (ctx : GgufContext) (key : CString) (val : Int32) : Except Fault GgufContext :=
  setVal ctx key (.i32 val)

def ggufSetValF32 (ctx : GgufContext) (key : CString) (bits : UInt32) : Except Fault GgufContext :=
  setVal ctx key (.f32 bits)

def ggufSetValU64 (ctx : GgufContext) (key : CString) (val : UInt64) : Except Fault GgufContext :=
  setVal ctx key (.u64 val)

def ggufSetValI64 (ctx : GgufContext) (key : CString) (val : Int64) : Except Fault GgufContext :=
  setVal ctx key (.i64 val)

def ggufSetValF64 (ctx : GgufContext) (key : CString) (bits : UInt64) : Except Fault GgufContext :=
  setVal ctx key (.f64 bits)

def ggufSetValBool (ctx : GgufContext) (key : CString) (val : Bool) : Except Fault GgufContext :=
  setVal ctx key (.bool val)

def ggufSetValStr (ctx : GgufContext) (key : CString) (val : CString) : Except Fault GgufContext :=
  setVal ctx key (.str val)

/-- `gguf_set_arr_data`: the bytes are stored as an array of `int8_t`, and `cast` gives them their type. -/
def ggufSetArrData (ctx : GgufContext) (key : CString) (type : GgufType) (data : ℕ → UInt8) (n : ℕ) :
    Except Fault GgufContext := do
  ggufCheckReservedKeysArr key
  let nbytes := n * ggufTypeSize type % 2 ^ 64
  let ctx ← emplaceBack (ggufRemoveKey ctx key) ⟨key.1, true, type, slice data 0 nbytes, []⟩
  if ggufTypeSize type = 0 then .error .divByZero
  else do
    ggmlAssert (decide (nbytes % ggufTypeSize type = 0))
    return ctx

/-- `gguf_set_arr_str`. -/
def ggufSetArrStr (ctx : GgufContext) (key : CString) (data : List CString) : Except Fault GgufContext := do
  ggufCheckReservedKeysArr key
  emplaceBack (ggufRemoveKey ctx key) ⟨key.1, true, .string, [], data.map fun s => s.1⟩

/-- `gguf_kv::get_val<std::string>(i)`. -/
def getValString (kv : GgufKv) (i : ℕ) : Except Fault (List UInt8) := do
  ggmlAssert (decide (kv.type = .string))
  match kv.dataString[i]? with
  | none => .error .assertion
  | some s => return s

/-- The single value of a pair of the type, as `gguf_set_kv` passes it to the setter of the type. -/
def scalarOf (kv : GgufKv) : Except Fault Scalar :=
  match kv.type with
  | .uint8 => do return .u8 (UInt8.ofNat (leNat (← getVal .uint8 kv 0)))
  | .int8 => do return .i8 (UInt8.ofNat (leNat (← getVal .int8 kv 0))).toInt8
  | .uint16 => do return .u16 (UInt16.ofNat (leNat (← getVal .uint16 kv 0)))
  | .int16 => do return .i16 (UInt16.ofNat (leNat (← getVal .int16 kv 0))).toInt16
  | .uint32 => do return .u32 (UInt32.ofNat (leNat (← getVal .uint32 kv 0)))
  | .int32 => do return .i32 (UInt32.ofNat (leNat (← getVal .int32 kv 0))).toInt32
  | .float32 => do return .f32 (UInt32.ofNat (leNat (← getVal .float32 kv 0)))
  | .uint64 => do return .u64 (UInt64.ofNat (leNat (← getVal .uint64 kv 0)))
  | .int64 => do return .i64 (UInt64.ofNat (leNat (← getVal .int64 kv 0))).toInt64
  | .float64 => do return .f64 (UInt64.ofNat (leNat (← getVal .float64 kv 0)))
  | .bool => do return .bool (decide (leNat (← getVal .bool kv 0) ≠ 0))
  | .string => do return .str (toCString (← getValString kv 0))
  | .array => .error .assertion

/-- One pair of `gguf_set_kv`.  Keys and strings are passed as C strings. -/
def copyKv (ctx : GgufContext) (kv : GgufKv) : Except Fault GgufContext :=
  if kv.isArray then do
    let ne ← getNe kv
    match kv.type with
    | .string => ggufSetArrStr ctx (toCString kv.key) (kv.dataString.map toCString)
    | .array => .error .assertion
    | type => ggufSetArrData ctx (toCString kv.key) type (fun i => kv.data.getD i 0) ne
  else do
    let val ← scalarOf kv
    setVal ctx (toCString kv.key) val

/-- `gguf_set_kv`, for a source that is another context. -/
def ggufSetKv (ctx : GgufContext) (src : GgufContext) : Except Fault GgufContext := src.kv.foldlM copyKv ctx

/-! ### Tensors -/

/-- `gguf_find_tensor`. -/
def ggufFindTensor (info : List GgufTensorInfo) (name : List UInt8) : Option ℕ :=
  info.findIdx? fun ti => decide (ti.t.name.1 = name)

def nextOffset (alignment : ℕ) (ti : GgufTensorInfo) : ℕ :=
  (ti.offset + ggmlPad (ggmlNbytes ti.t) alignment) % 2 ^ 64

/-- `gguf_add_tensor`. -/
def ggufAddTensor (ctx : GgufContext) (tensor : GgmlTensor) : Except Fault GgufContext :=
  match ggufFindTensor ctx.info tensor.name.1 with
  | some _ => .error .assertion
  | none =>
    let offset := match ctx.info.getLast? with
      | none => 0
      | some last => nextOffset ctx.alignment last
    .ok { ctx with info := ctx.info ++ [⟨tensor, offset⟩] }

/-- The loop that updates the offsets after the tensor `prev`. -/
def updateOffsets (alignment : ℕ) (prev : GgufTensorInfo) : List GgufTensorInfo → List GgufTensorInfo
  | [] => []
  | ti :: rest =>
    let ti' := { ti with offset := nextOffset alignment prev }
    ti' :: updateOffsets alignment ti' rest

/-- The tensors with a new type for the tensor at `i`, and new offsets after it. -/
def retype (alignment : ℕ) (type : GgmlType) : ℕ → List GgufTensorInfo → List GgufTensorInfo
  | _, [] => []
  | 0, ti :: rest =>
    let ti' := { ti with t := { ti.t with type := type, nb := strides type ti.t.ne } }
    ti' :: updateOffsets alignment ti' rest
  | i + 1, ti :: rest => ti :: retype alignment type i rest

/-- `gguf_set_tensor_type`. -/
def ggufSetTensorType (ctx : GgufContext) (name : CString) (type : GgmlType) : Except Fault GgufContext :=
  match ggufFindTensor ctx.info name.1 with
  | none => .error .assertion
  | some i =>
    match ctx.info[i]? with
    | none => .error .assertion
    | some ti => do
      ggmlAssert (decide (ti.t.ne.d0 % ggmlBlckSize type = 0))
      return { ctx with info := retype ctx.alignment type i ctx.info }

/-- `gguf_set_tensor_data`. -/
def ggufSetTensorData (ctx : GgufContext) (name : CString) (data : Option (ℕ → UInt8)) : Except Fault GgufContext :=
  match ggufFindTensor ctx.info name.1 with
  | none => .error .assertion
  | some i => .ok { ctx with info := ctx.info.modify i fun ti => { ti with t := { ti.t with data := data } } }

/-! ### Runs -/

/-- A call of a public function. -/
inductive Op where
  | setVal (key : CString) (val : Scalar)
  | setArrData (key : CString) (type : GgufType) (data : ℕ → UInt8) (n : ℕ)
  | setArrStr (key : CString) (data : List CString)
  | removeKey (key : CString)
  | setKv (src : GgufContext)
  | addTensor (tensor : GgmlTensor)
  | setTensorType (name : CString) (type : GgmlType)
  | setTensorData (name : CString) (data : Option (ℕ → UInt8))

def step (ctx : GgufContext) : Op → Except Fault GgufContext
  | .setVal key val => setVal ctx key val
  | .setArrData key type data n => ggufSetArrData ctx key type data n
  | .setArrStr key data => ggufSetArrStr ctx key data
  | .removeKey key => .ok (ggufRemoveKey ctx key)
  | .setKv src => ggufSetKv ctx src
  | .addTensor tensor => ggufAddTensor ctx tensor
  | .setTensorType name type => ggufSetTensorType ctx name type
  | .setTensorData name data => ggufSetTensorData ctx name data

def run (ctx : GgufContext) (ops : List Op) : Except Fault GgufContext := ops.foldlM step ctx

end Gguf
