import LlamaRafaelia.Gguf.Reader

/-!
# RPC: messages, buffers and tensors

A tensor travels as a packed `rpc_tensor` of 296 bytes whose references are numbers of 64 bits: for the client they
are its pointers, for the server they are keys.

* `ofBytes_bytes` - **a record is read back as it was written**.
-/

namespace Rpc

open Gguf List

/-! ### Numbers in memory -/

/-- A `uint32_t` at an offset. -/
def u32At (b : List UInt8) (off : ℕ) : UInt32 := UInt32.ofNat (leNat ((b.drop off).take 4))

/-- A `uint64_t` at an offset. -/
def u64At (b : List UInt8) (off : ℕ) : UInt64 := UInt64.ofNat (leNat ((b.drop off).take 8))

/-- The bytes of a `uint32_t`. -/
def u32Bytes (x : UInt32) : List UInt8 := leBytes 4 x.toNat

/-- The bytes of a `uint64_t`. -/
def u64Bytes (x : UInt64) : List UInt8 := leBytes 8 x.toNat

/-! ### The record -/

/-- `GGML_MAX_SRC`. -/
abbrev ggmlMaxSrc : ℕ := 10

/-- The number of `op_params`: `GGML_MAX_OP_PARAMS / sizeof(int32_t)`. -/
abbrev nOpParams : ℕ := 16

/-- `GGML_TYPE_COUNT`. -/
def ggmlTypeCount : ℕ := 40

/-- `rpc_tensor`, without its padding.  Numbers of type `int32_t` are given by their bits. -/
@[ext]
structure RpcTensor where
  id : UInt64
  type : UInt32
  buffer : UInt64
  ne : Fin 4 → UInt32
  nb : Fin 4 → UInt32
  op : UInt32
  opParams : Fin nOpParams → UInt32
  flags : UInt32
  src : Fin ggmlMaxSrc → UInt64
  viewSrc : UInt64
  viewOffs : UInt64
  data : UInt64
  name : Fin ggmlMaxName → UInt8

/-- `sizeof(rpc_tensor)`. -/
def sizeofRpcTensor : ℕ := 296

namespace RpcTensor

def fields (t : RpcTensor) : List (List UInt8) :=
  [u64Bytes t.id, u32Bytes t.type, u64Bytes t.buffer, (ofFn t.ne).flatMap u32Bytes,
    (ofFn t.nb).flatMap u32Bytes, u32Bytes t.op, (ofFn t.opParams).flatMap u32Bytes, u32Bytes t.flags,
    (ofFn t.src).flatMap u64Bytes, u64Bytes t.viewSrc, u64Bytes t.viewOffs, u64Bytes t.data, ofFn t.name,
    [0, 0, 0, 0]]

def bytes (t : RpcTensor) : List UInt8 := t.fields.flatten

def ofBytes (b : List UInt8) : RpcTensor where
  id := u64At b 0
  type := u32At b 8
  buffer := u64At b 12
  ne i := u32At b (20 + 4 * i)
  nb i := u32At b (36 + 4 * i)
  op := u32At b 52
  opParams i := u32At b (56 + 4 * i)
  flags := u32At b 120
  src i := u64At b (124 + 8 * i)
  viewSrc := u64At b 204
  viewOffs := u64At b 212
  data := u64At b 220
  name i := b.getD (228 + i) 0

local instance neZero_rank : NeZero 4 := ⟨by decide⟩

def dims (t : RpcTensor) : Dims := ⟨(t.ne 0).toNat, (t.ne 1).toNat, (t.ne 2).toNat, (t.ne 3).toNat⟩

def strides (t : RpcTensor) : Dims := ⟨(t.nb 0).toNat, (t.nb 1).toNat, (t.nb 2).toNat, (t.nb 3).toNat⟩

/-- The name, as `ggml_set_name` copies it. -/
def tensorName (t : RpcTensor) : TensorName := ggmlSetName (ofFn t.name)

end RpcTensor

/-! ### The server -/

/-- A live `ggml_backend_buffer`: its address, and the memory that it has. -/
structure Buffer where
  handle : UInt64
  base : UInt64
  size : UInt64
  handle_ne : handle ≠ 0
  range : base.toNat + size.toNat < 2 ^ 64

/-- `rpc_server`: the number of backends and the live buffers. -/
structure Server where
  backends : ℕ
  buffers : List Buffer
  handles : buffers.Pairwise fun b b' => b.handle ≠ b'.handle

/-- `buffers.find`. -/
def Server.findBuffer (server : Server) (handle : UInt64) : Option Buffer :=
  server.buffers.find? fun b => decide (b.handle = handle)

/-- A `ggml_tensor` of the server.  Pointers to tensors are places in the order of creation. -/
structure Tensor where
  type : GgmlType
  buffer : Option Buffer
  ne : Dims
  nb : Dims
  op : UInt32
  opParams : Fin nOpParams → UInt32
  flags : UInt32
  src : Fin ggmlMaxSrc → Option ℕ
  viewSrc : Option ℕ
  viewOffs : UInt64
  data : UInt64
  name : TensorName

/-- `ggml_nbytes`. -/
def nbytes (type : GgmlType) (ne nb : Dims) : ℕ := ggmlNbytes ⟨ggmlSetName [], type, ne, nb, none⟩

/-- The assertions on the data of a tensor with a live buffer, in words. -/
def inBuffer (b : Buffer) (data : UInt64) (tensorSize : UInt64) : Bool :=
  decide (data + tensorSize ≥ data) && decide (data ≥ b.base ∧ data + tensorSize ≤ b.base + b.size)

/-- The tensor that a record describes: a buffer that is not live is dropped, and there are no references yet. -/
def newTensor (server : Server) (type : GgmlType) (t : RpcTensor) : Tensor :=
  ⟨type, server.findBuffer t.buffer, t.dims, t.strides, t.op, t.opParams, t.flags, fun _ => none, none, 0, t.data,
    t.tensorName⟩

/-- The assertions of `deserialize_tensor`: none for a tensor without a live buffer. -/
def dataChecked (server : Server) (type : GgmlType) (t : RpcTensor) : Bool :=
  match server.findBuffer t.buffer with
  | none => true
  | some b => inBuffer b t.data (UInt64.ofNat (nbytes type t.dims t.strides))

/-- `rpc_server::deserialize_tensor`: `none` is a null pointer.  `ggml_new_tensor_4d` divides by the block size, which
is 0 for the type numbers that were removed. -/
def deserializeTensor (server : Server) (t : RpcTensor) : Except Fault (Option Tensor) :=
  if ggmlTypeCount ≤ t.type.toNat then .ok none
  else
    match GgmlType.ofCode t.type.toNat with
    | none => .error .divByZero
    | some type => do
      ggmlAssert (dataChecked server type t)
      return some (newTensor server type t)

/-! ### Reading a record back -/

@[simp] theorem u32Bytes_length (x : UInt32) : (u32Bytes x).length = 4 := leBytes_length 4 _

@[simp] theorem u64Bytes_length (x : UInt64) : (u64Bytes x).length = 8 := leBytes_length 8 _

theorem ofNat_u32Bytes (x : UInt32) : UInt32.ofNat (leNat (u32Bytes x)) = x := by
  rw [u32Bytes, leNat_leBytes_of_lt x.toNat_lt, UInt32.ofNat_toNat]

theorem ofNat_u64Bytes (x : UInt64) : UInt64.ofNat (leNat (u64Bytes x)) = x := by
  rw [u64Bytes, leNat_leBytes_of_lt x.toNat_lt, UInt64.ofNat_toNat]

theorem array_at {α : Type} {enc : α → List UInt8} {r n : ℕ} (hr : ∀ x, (enc x).length = r) (a : Fin n → α)
    (post : List UInt8) (i : Fin n) :
    (((List.ofFn a).flatMap enc ++ post).drop (r * i)).take r = enc (a i) := by
  have hi : (i : ℕ) < (ofFn a).length := by simp
  have hle : r * i ≤ ((ofFn a).flatMap enc).length := by
    rw [flatMap_length_of_rows hr, Nat.mul_comm]
    exact Nat.mul_le_mul_right r hi.le
  rw [drop_append_of_le_length hle, Nat.mul_comm, drop_flatMap_of_rows hr, drop_eq_getElem_cons hi,
    List.flatMap_cons, List.append_assoc, List.take_left' (hr _), List.getElem_ofFn]

namespace RpcTensor

theorem fields_lengths (t : RpcTensor) :
    t.fields.map length = [8, 4, 8, 16, 16, 4, 64, 4, 80, 8, 8, 8, 64, 4] := by
  have hname : (ofFn t.name).length = 64 := length_ofFn
  simp [fields, hname]

@[simp] theorem bytes_length (t : RpcTensor) : t.bytes.length = sizeofRpcTensor := by
  rw [bytes, length_flatten, fields_lengths]
  rfl

theorem drop_bytes (t : RpcTensor) (rest : List UInt8) {j off : ℕ}
    (hoff : ([8, 4, 8, 16, 16, 4, 64, 4, 80, 8, 8, 8, 64, 4].take j).sum = off) :
    (t.bytes ++ rest).drop off = (t.fields.drop j).flatten ++ rest := by
  have hsplit : t.bytes = (t.fields.take j).flatten ++ (t.fields.drop j).flatten := by
    rw [bytes, ← flatten_append, take_append_drop]
  have hlen : (t.fields.take j).flatten.length = off := by
    rw [length_flatten, map_take, fields_lengths, hoff]
  rw [hsplit, append_assoc]
  exact drop_left' hlen

theorem u32At_bytes (t : RpcTensor) (rest : List UInt8) {j off : ℕ} {x : UInt32}
    (hoff : ([8, 4, 8, 16, 16, 4, 64, 4, 80, 8, 8, 8, 64, 4].take j).sum = off)
    (hfield : t.fields.drop j = u32Bytes x :: t.fields.drop (j + 1)) : u32At (t.bytes ++ rest) off = x := by
  rw [u32At, drop_bytes t rest hoff, hfield, flatten_cons, append_assoc, take_left' (u32Bytes_length x),
    ofNat_u32Bytes]

theorem u64At_bytes (t : RpcTensor) (rest : List UInt8) {j off : ℕ} {x : UInt64}
    (hoff : ([8, 4, 8, 16, 16, 4, 64, 4, 80, 8, 8, 8, 64, 4].take j).sum = off)
    (hfield : t.fields.drop j = u64Bytes x :: t.fields.drop (j + 1)) : u64At (t.bytes ++ rest) off = x := by
  rw [u64At, drop_bytes t rest hoff, hfield, flatten_cons, append_assoc, take_left' (u64Bytes_length x),
    ofNat_u64Bytes]

theorem u32At_array (t : RpcTensor) (rest : List UInt8) {j off n : ℕ} {a : Fin n → UInt32}
    (hoff : ([8, 4, 8, 16, 16, 4, 64, 4, 80, 8, 8, 8, 64, 4].take j).sum = off)
    (hfield : t.fields.drop j = (ofFn a).flatMap u32Bytes :: t.fields.drop (j + 1)) (i : Fin n) :
    u32At (t.bytes ++ rest) (off + 4 * i) = a i := by
  rw [u32At, ← drop_drop, drop_bytes t rest hoff, hfield, flatten_cons, append_assoc,
    array_at u32Bytes_length, ofNat_u32Bytes]

theorem u64At_array (t : RpcTensor) (rest : List UInt8) {j off n : ℕ} {a : Fin n → UInt64}
    (hoff : ([8, 4, 8, 16, 16, 4, 64, 4, 80, 8, 8, 8, 64, 4].take j).sum = off)
    (hfield : t.fields.drop j = (ofFn a).flatMap u64Bytes :: t.fields.drop (j + 1)) (i : Fin n) :
    u64At (t.bytes ++ rest) (off + 8 * i) = a i := by
  rw [u64At, ← drop_drop, drop_bytes t rest hoff, hfield, flatten_cons, append_assoc,
    array_at u64Bytes_length, ofNat_u64Bytes]

theorem ofBytes_bytes (t : RpcTensor) (rest : List UInt8) : ofBytes (t.bytes ++ rest) = t := by
  refine RpcTensor.ext ?_ ?_ ?_ ?_ ?_ ?_ ?_ ?_ ?_ ?_ ?_ ?_ ?_
  · exact u64At_bytes t rest (j := 0) rfl rfl
  · exact u32At_bytes t rest (j := 1) rfl rfl
  · exact u64At_bytes t rest (j := 2) rfl rfl
  · exact funext fun i => u32At_array t rest (j := 3) rfl rfl i
  · exact funext fun i => u32At_array t rest (j := 4) rfl rfl i
  · exact u32At_bytes t rest (j := 5) rfl rfl
  · exact funext fun i => u32At_array t rest (j := 6) rfl rfl i
  · exact u32At_bytes t rest (j := 7) rfl rfl
  · exact funext fun i => u64At_array t rest (j := 8) rfl rfl i
  · exact u64At_bytes t rest (j := 9) rfl rfl
  · exact u64At_bytes t rest (j := 10) rfl rfl
  · exact u64At_bytes t rest (j := 11) rfl rfl
  · funext i
    have hi : (i : ℕ) < (ofFn t.name).length := by simp
    show (t.bytes ++ rest).getD (228 + i) 0 = t.name i
    rw [getD_eq_getElem?_getD, ← getElem?_drop, @drop_bytes t rest 12 228 rfl]
    show ((ofFn t.name ++ _) ++ rest)[(i : ℕ)]?.getD 0 = t.name i
    rw [List.append_assoc, List.getElem?_append_left hi, List.getElem?_eq_getElem hi, List.getElem_ofFn]
    rfl

end RpcTensor

end Rpc
