import LlamaRafaelia.Rpc.Types
import LlamaRafaelia.Gguf.Format
import Mathlib.Data.Fin.VecNotation

/-!
# RPC: reading and writing tensors

The handlers of `SET_TENSOR`, `SET_TENSOR_HASH`, `GET_TENSOR` and `COPY_TENSOR`.  A handler returns the memory that it
asks the backend to read or write (`Access`), or nothing when it rejects the message; a failed assertion is a fault.
All the comparisons are in words of 64 bits.

* `accesses_inside` - **what a handler reads or writes lies inside the live buffer that the message names**.
-/

namespace Rpc

open Gguf

/-! ### The handlers -/

/-- Memory that the backend is asked to read or write: the bytes from `start` on, of a tensor in the buffer. -/
structure Access where
  buffer : Buffer
  start : UInt64
  size : ℕ

/-- `rpc_msg_set_tensor_hash_req`, without the hash. -/
structure SetTensorHashReq where
  tensor : RpcTensor
  offset : UInt64

/-- `rpc_msg_get_tensor_req`. -/
structure GetTensorReq where
  tensor : RpcTensor
  offset : UInt64
  size : UInt64

/-- `rpc_msg_copy_tensor_req`. -/
structure CopyTensorReq where
  src : RpcTensor
  dst : RpcTensor

/-- The check of `set_tensor`, `set_tensor_hash` and `get_tensor`: whether the region is rejected. -/
def outOfBounds (b : Buffer) (data offset : UInt64) (size : ℕ) : Bool :=
  let p0 := b.base
  let p1 := p0 + b.size
  decide (data + offset < p0) || decide (data + offset ≥ p1) || decide (size > (p1 - data - offset).toNat)

/-- The part that these three handlers share: the tensor is deserialized and the region is checked. -/
def checkRegion (server : Server) (t : RpcTensor) (offset : UInt64) (size : ℕ) : Except Fault (Option Access) := do
  let tensor ← deserializeTensor server t
  match tensor with
  | none => return none
  | some tensor =>
    match tensor.buffer with
    | none => return none
    | some b => if outOfBounds b t.data offset size then return none else return some ⟨b, tensor.data + offset, size⟩

/-- `rpc_server::set_tensor`: the message is a record, an offset and the data. -/
def setTensor (server : Server) (input : List UInt8) : Except Fault (Option Access) :=
  if input.length < sizeofRpcTensor + 8 then .ok none
  else checkRegion server (RpcTensor.ofBytes input) (u64At input sizeofRpcTensor) (input.length - sizeofRpcTensor - 8)

/-- `rpc_server::set_tensor_hash`: the data is the cached file with the hash, if there is one. -/
def setTensorHash (server : Server) (cachedFile : Option (List UInt8)) (request : SetTensorHashReq) :
    Except Fault (Option Access) :=
  match cachedFile with
  | none => .ok none
  | some file => checkRegion server request.tensor request.offset file.length

/-- `rpc_server::get_tensor`. -/
def getTensor (server : Server) (request : GetTensorReq) : Except Fault (Option Access) :=
  checkRegion server request.tensor request.offset request.size.toNat

/-- `rpc_server::copy_tensor`: the memory that is read and the memory that is written. -/
def copyTensor (server : Server) (request : CopyTensorReq) : Except Fault (Option (Access × Access)) := do
  let src ← deserializeTensor server request.src
  let dst ← deserializeTensor server request.dst
  match src, dst with
  | some src, some dst =>
    match src.buffer, dst.buffer with
    | some sb, some db =>
      let srcSize := UInt64.ofNat (nbytes src.type src.ne src.nb)
      if dst.data + srcSize > db.base + db.size then return none
      else return some (⟨sb, src.data, srcSize.toNat⟩, ⟨db, dst.data, srcSize.toNat⟩)
    | _, _ => return none
  | _, _ => return none

/-! ### What is checked -/

/-- **The bytes lie inside the live buffer that the record names**, in unbounded integers. -/
structure Access.Inside (server : Server) (handle : UInt64) (a : Access) : Prop where
  live : a.buffer ∈ server.buffers
  named : a.buffer.handle = handle
  le_start : a.buffer.base.toNat ≤ a.start.toNat
  end_le : a.start.toNat + a.size ≤ a.buffer.base.toNat + a.buffer.size.toNat

section

variable {server : Server}

theorem findBuffer_eq_some {handle : UInt64} {b : Buffer} (h : server.findBuffer handle = some b) :
    b ∈ server.buffers ∧ b.handle = handle :=
  ⟨List.mem_of_find?_eq_some h, by simpa using List.find?_some h⟩

theorem deserializeTensor_eq_ok {t : RpcTensor} {tensor : Tensor}
    (h : deserializeTensor server t = .ok (some tensor)) :
    ∃ type, GgmlType.ofCode t.type.toNat = some type ∧ t.type.toNat < ggmlTypeCount ∧
      dataChecked server type t = true ∧ tensor = newTensor server type t := by
  rw [deserializeTensor] at h
  split at h
  · cases h
  · rename_i hcount
    split at h
    · cases h
    · rename_i type htype
      obtain ⟨_, hassert, h⟩ := (Except.bind_eq_ok_iff).mp h
      exact ⟨type, htype, Nat.lt_of_not_le hcount, (ggmlAssert_eq_ok).mp hassert,
        (Option.some.inj (Except.ok.inj h)).symm⟩

theorem Buffer.end_toNat (b : Buffer) : (b.base + b.size).toNat = b.base.toNat + b.size.toNat := by
  rw [UInt64.toNat_add, Nat.mod_eq_of_lt b.range]

theorem inBuffer_iff {b : Buffer} {data size : UInt64} :
    inBuffer b data size = true ↔
      b.base.toNat ≤ data.toNat ∧ data.toNat + size.toNat ≤ b.base.toNat + b.size.toNat := by
  have hend := b.end_toNat
  have hrange := b.range
  have hdata := data.toNat_lt
  have hsize := size.toNat_lt
  rw [inBuffer, Bool.and_eq_true, decide_eq_true_iff, decide_eq_true_iff, ge_iff_le, ge_iff_le,
    UInt64.le_iff_toNat_le, UInt64.le_iff_toNat_le, UInt64.le_iff_toNat_le, hend, UInt64.toNat_add]
  omega

theorem not_outOfBounds_iff {b : Buffer} {data offset : UInt64} {size : ℕ} :
    outOfBounds b data offset size = false ↔
      b.base.toNat ≤ (data + offset).toNat ∧ (data + offset).toNat < b.base.toNat + b.size.toNat ∧
        (data + offset).toNat + size ≤ b.base.toNat + b.size.toNat := by
  have hend := b.end_toNat
  have hdata := data.toNat_lt
  have hoffset := offset.toNat_lt
  rw [outOfBounds]
  simp only [Bool.or_eq_false_iff, decide_eq_false_iff_not, UInt64.lt_iff_toNat_lt, ge_iff_le, UInt64.le_iff_toNat_le,
    UInt64.toNat_sub, UInt64.toNat_add] at hend ⊢
  omega

theorem checkRegion_inside {t : RpcTensor} {offset : UInt64} {size : ℕ} {a : Access}
    (h : checkRegion server t offset size = .ok (some a)) :
    a.Inside server t.buffer ∧ a.start = t.data + offset ∧ a.size = size := by
  obtain ⟨tensor, htensor, h⟩ := (Except.bind_eq_ok_iff).mp h
  cases tensor with
  | none => cases h
  | some tensor =>
    obtain ⟨type, -, -, -, rfl⟩ := deserializeTensor_eq_ok htensor
    dsimp only [newTensor] at h
    cases hfind : server.findBuffer t.buffer with
    | none =>
      rw [hfind] at h
      cases h
    | some b =>
      rw [hfind] at h
      dsimp only at h
      split at h
      · cases h
      · rename_i hbounds
        obtain rfl := Option.some.inj (Except.ok.inj h)
        obtain ⟨hle, -, hend⟩ := (not_outOfBounds_iff).mp (Bool.not_eq_true _ ▸ hbounds)
        exact ⟨⟨(findBuffer_eq_some hfind).1, (findBuffer_eq_some hfind).2, hle, hend⟩, rfl, rfl⟩

theorem nbytes_lt (type : GgmlType) (ne nb : Dims) : nbytes type ne nb < 2 ^ 64 := by
  rw [nbytes, ggmlNbytes]
  dsimp only
  split_ifs
  · decide
  · exact Nat.mod_lt _ (by decide)
  · exact Nat.mod_lt _ (by decide)

/-- What a copy asks the backend for.  The source lies inside its buffer, so its size is less than `2 ^ 63`, and the
sum that the destination is checked with does not wrap. -/
theorem copyTensor_inside (hbuffers : ∀ b ∈ server.buffers, b.base.toNat + b.size.toNat < 2 ^ 63)
    {request : CopyTensorReq} {a a' : Access} (h : copyTensor server request = .ok (some (a, a'))) :
    a.Inside server request.src.buffer ∧ a'.Inside server request.dst.buffer ∧
      ∃ type, GgmlType.ofCode request.src.type.toNat = some type ∧
        a.start = request.src.data ∧ a.size = nbytes type request.src.dims request.src.strides ∧
        a'.start = request.dst.data ∧ a'.size = nbytes type request.src.dims request.src.strides := by
  obtain ⟨src, hsrc, h⟩ := (Except.bind_eq_ok_iff).mp h
  obtain ⟨dst, hdst, h⟩ := (Except.bind_eq_ok_iff).mp h
  cases src with
  | none => cases h
  | some src =>
    cases dst with
    | none => cases h
    | some dst =>
      obtain ⟨stype, hstype, -, hschecked, rfl⟩ := deserializeTensor_eq_ok hsrc
      obtain ⟨dtype, -, -, hdchecked, rfl⟩ := deserializeTensor_eq_ok hdst
      dsimp only [newTensor] at h
      rw [dataChecked] at hschecked hdchecked
      cases hsfind : server.findBuffer request.src.buffer with
      | none =>
        rw [hsfind] at h
        cases h
      | some sb =>
        cases hdfind : server.findBuffer request.dst.buffer with
        | none =>
          rw [hsfind, hdfind] at h
          cases h
        | some db =>
          rw [hsfind, hdfind] at h
          rw [hsfind] at hschecked
          rw [hdfind] at hdchecked
          dsimp only at h hschecked hdchecked
          obtain ⟨hslive, hsnamed⟩ := findBuffer_eq_some hsfind
          obtain ⟨hdlive, hdnamed⟩ := findBuffer_eq_some hdfind
          obtain ⟨hsle, hsend⟩ := (inBuffer_iff).mp hschecked
          obtain ⟨hdle, hdend⟩ := (inBuffer_iff).mp hdchecked
          have hs63 := hbuffers sb hslive
          have hd63 := hbuffers db hdlive
          split at h
          · cases h
          · rename_i hbounds
            have hpair := Option.some.inj (Except.ok.inj h)
            rw [Prod.mk.injEq] at hpair
            obtain ⟨rfl, rfl⟩ := hpair
            rw [gt_iff_lt, UInt64.lt_iff_toNat_lt, db.end_toNat, UInt64.toNat_add] at hbounds
            have hsize := UInt64.toNat_ofNat_of_lt' (nbytes_lt stype request.src.dims request.src.strides)
            refine ⟨⟨hslive, hsnamed, hsle, hsend⟩, ⟨hdlive, hdnamed, hdle, ?_⟩, stype, hstype, rfl, hsize, rfl, hsize⟩
            dsimp only
            omega

end

/-- **What a handler reads or writes lies inside the live buffer that the message names.** -/
theorem accesses_inside (server : Server) (hbuffers : ∀ b ∈ server.buffers, b.base.toNat + b.size.toNat < 2 ^ 63) :
    (∀ input a, setTensor server input = .ok (some a) →
      a.Inside server (RpcTensor.ofBytes input).buffer ∧
        a.start = (RpcTensor.ofBytes input).data + u64At input sizeofRpcTensor ∧
        a.size = input.length - sizeofRpcTensor - 8) ∧
    (∀ cachedFile request a, setTensorHash server cachedFile request = .ok (some a) →
      a.Inside server request.tensor.buffer ∧ a.start = request.tensor.data + request.offset ∧
        cachedFile.map List.length = some a.size) ∧
    (∀ request a, getTensor server request = .ok (some a) →
      a.Inside server request.tensor.buffer ∧ a.start = request.tensor.data + request.offset ∧
        a.size = request.size.toNat) ∧
    (∀ request a a', copyTensor server request = .ok (some (a, a')) →
      a.Inside server request.src.buffer ∧ a'.Inside server request.dst.buffer ∧
        ∃ type, GgmlType.ofCode request.src.type.toNat = some type ∧
          a.start = request.src.data ∧ a.size = nbytes type request.src.dims request.src.strides ∧
          a'.start = request.dst.data ∧ a'.size = nbytes type request.src.dims request.src.strides) := by
  refine ⟨?_, ?_, ?_, fun request a a' h => copyTensor_inside hbuffers h⟩
  · intro input a h
    rw [setTensor] at h
    split at h
    · cases h
    · exact checkRegion_inside h
  · intro cachedFile request a h
    cases cachedFile with
    | none => cases h
    | some file =>
      obtain ⟨hin, hstart, hsize⟩ := checkRegion_inside h
      exact ⟨hin, hstart, congrArg some hsize.symm⟩
  · intro request a h
    exact checkRegion_inside h

def firstBuffer : Buffer := ⟨7, 0x10000, 4096, by decide, by decide⟩

def oneBuffer : Server := ⟨1, [firstBuffer], List.pairwise_singleton _ _⟩

def oneRecord : RpcTensor :=
  ⟨1, 0, 7, ![4, 1, 1, 1], ![4, 16, 16, 16], 0, fun _ => 0, 0, fun _ => 0, 0, 0, 0x10000, fun _ => 0⟩

/-- Reading at an offset that wraps around to the start of the buffer. -/
theorem accesses_inside_wrapped :
    ∃ a, getTensor oneBuffer ⟨{ oneRecord with data := 0x10010 }, 0xfffffffffffffff0, 16⟩ = .ok (some a) ∧
      a.Inside oneBuffer 7 := by
  have hbuffers : ∀ b ∈ oneBuffer.buffers, b.base.toNat + b.size.toNat < 2 ^ 63 := by decide
  have hget : getTensor oneBuffer ⟨{ oneRecord with data := 0x10010 }, 0xfffffffffffffff0, 16⟩
      = .ok (some ⟨firstBuffer, 0x10000, 16⟩) := rfl
  exact ⟨_, hget, ((accesses_inside oneBuffer hbuffers).2.2.1 _ _ hget).1⟩

end Rpc
