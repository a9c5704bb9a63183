import LlamaRafaelia.Lib.Bytes
import Mathlib.Algebra.Order.Group.Nat

/-!
# The append-only block store

`raf_hd_block_store_t` is a file and the size up to which it is in use.  `raf_hd_store_append` writes header, payload
and padding with three calls of `write`, each of which may stop short, and moves the size only when all are complete.

* `StoreRun.read_eq` - **what was appended stays readable**, whatever was cut.
-/

namespace Rafstore

open List

/-- `RAF_HD_BLOCK_ALIGN`. -/
def blockAlign : ℕ := 4096

/-- `RAF_HD_MAX_BLOCK_BYTES`. -/
def maxBlockBytes : ℕ := 256 * 1024

/-- `RAF_HD_MAGIC`. -/
def magic : ℕ := 0x52424630

/-- `RAF_HD_VERSION`. -/
def version : ℕ := 1

/-- `raf_hd_align_up`, on 64 bits. -/
def alignUp (value alignment : ℕ) : ℕ := (value + (alignment - 1)) % 2 ^ 64 &&& (2 ^ 64 - 1 - (alignment - 1))

/-- One of the four lanes of `raf_hd_sha256`. -/
def hashLane (seed factor : UInt64) (data : List UInt8) : UInt64 :=
  data.foldl (fun h b => (h ^^^ b.toUInt64) * factor) seed

/-- `raf_hd_sha256`: four lanes, spread over 32 bytes. -/
def sha256 (data : List UInt8) : List UInt8 :=
  leBytes 8 (hashLane 0xcbf29ce484222325 0x100000001b3 data).toNat ++
  (leBytes 8 (hashLane 0x100000001b3 0xcbf29ce484222325 data).toNat ++
  (leBytes 8 (hashLane 0x9e3779b97f4a7c15 0x9e3779b97f4a7c15 data).toNat ++
  leBytes 8 (hashLane 0x517cc1b727220a95 0x517cc1b727220a95 data).toNat))

/-- `raf_hd_block_store_t`: the bytes of the file and `size`. -/
structure Store where
  file : List UInt8
  size : ℕ
  deriving DecidableEq, Repr

/-- `raf_hd_store_init` on a file: the size is where the file ends. -/
def storeInit (file : List UInt8) : Store := { file := file, size := file.length }

/-- The file with `bytes` written from `pos` on; a hole before `pos` reads as zeros. -/
def writeAt (file : List UInt8) (pos : ℕ) (bytes : List UInt8) : List UInt8 :=
  file.take pos ++ List.replicate (pos - file.length) 0 ++ bytes ++ file.drop (pos + bytes.length)

/-- The header that `raf_hd_store_append` builds. -/
def blockHeader (payload : List UInt8) : List UInt8 :=
  leBytes 4 magic ++ (leBytes 1 version ++ (leBytes 1 0 ++ (leBytes 2 0 ++
    (leBytes 4 payload.length ++ sha256 payload))))

/-- How many bytes the calls of `write` for the header, the payload and the padding manage to write. -/
structure Cut where
  header : ℕ
  payload : ℕ
  padding : ℕ
  deriving DecidableEq, Repr

def alignedSize (payload : List UInt8) : ℕ := alignUp (44 + payload.length) blockAlign

/-- `raf_hd_store_append`: the store and the offset, `none` for a failure. -/
def storeAppend (st : Store) (payload : List UInt8) (cut : Cut) : Store × Option ℕ :=
  if payload.length = 0 ∨ maxBlockBytes < payload.length then (st, none)
  else
    let header := blockHeader payload
    let padding := List.replicate (alignedSize payload - (44 + payload.length)) (0 : UInt8)
    let file₁ := writeAt st.file st.size (header.take cut.header)
    if cut.header < header.length then ({ st with file := file₁ }, none)
    else
      let file₂ := writeAt file₁ (st.size + header.length) (payload.take cut.payload)
      if cut.payload < payload.length then ({ st with file := file₂ }, none)
      else
        let file₃ := writeAt file₂ (st.size + header.length + payload.length) (padding.take cut.padding)
        if cut.padding < padding.length then ({ st with file := file₃ }, none)
        else ({ file := file₃, size := st.size + alignedSize payload }, some st.size)

/-- `raf_hd_store_read`: the payload at an offset, `none` for a failure. -/
def storeRead (st : Store) (offset : ℕ) : Option (List UInt8) :=
  let header := (st.file.drop offset).take 44
  if header.length ≠ 44 then none
  else if leNat (header.take 4) ≠ magic ∨ leNat ((header.drop 4).take 1) ≠ version then none
  else
    let len := leNat ((header.drop 8).take 4)
    if len = 0 ∨ maxBlockBytes < len then none
    else
      let payload := (st.file.drop (offset + 44)).take len
      if payload.length ≠ len then none
      else if (header.drop 12).take 32 ≠ sha256 payload then none
      else some payload

/-! ### Writing into a file -/

section Writing

variable {file a b : List UInt8} {pos n : ℕ}

theorem writeAt_eq (h : pos ≤ file.length) :
    writeAt file pos a = file.take pos ++ (a ++ file.drop (pos + a.length)) := by
  rw [writeAt, Nat.sub_eq_zero_of_le h, replicate_zero, append_nil, append_assoc]

theorem writeAt_length (h : pos ≤ file.length) :
    (writeAt file pos a).length = max file.length (pos + a.length) := by
  rw [writeAt_eq h, length_append, length_append, length_take, length_drop]
  omega

theorem writeAt_take (h : pos ≤ file.length) (hn : n ≤ pos) : (writeAt file pos a).take n = file.take n := by
  have hlen : n ≤ (file.take pos).length := by
    rw [length_take]
    omega
  rw [writeAt_eq h, take_append_of_le_length hlen, take_take, min_eq_left hn]

theorem writeAt_drop (h : pos ≤ file.length) : a <+: (writeAt file pos a).drop pos := by
  have hlen : (file.take pos).length = pos := by
    rw [length_take]
    omega
  rw [writeAt_eq h, drop_left' hlen]
  exact List.prefix_append _ _

theorem writeAt_writeAt (h : pos ≤ file.length) :
    writeAt (writeAt file pos a) (pos + a.length) b = writeAt file pos (a ++ b) := by
  have hlen : (file.take pos ++ a).length = pos + a.length := by
    rw [length_append, length_take]
    omega
  have hfirst : writeAt file pos a = (file.take pos ++ a) ++ file.drop (pos + a.length) := by
    rw [writeAt_eq h, append_assoc]
  have hle : pos + a.length ≤ (writeAt file pos a).length := by
    rw [writeAt_length h]
    omega
  rw [writeAt_eq hle, hfirst, take_left' hlen, ← drop_drop, drop_left' hlen, writeAt_eq h,
    drop_drop, length_append, append_assoc, append_assoc, Nat.add_assoc]

end Writing

/-! ### The block format -/

section Format

variable {payload : List UInt8} {value : ℕ}

theorem sha256_length (data : List UInt8) : (sha256 data).length = 32 := by
  simp only [sha256, length_append, leBytes_length]

theorem blockHeader_length (payload : List UInt8) : (blockHeader payload).length = 44 := by
  simp only [blockHeader, length_append, leBytes_length, sha256_length]

theorem and_mask (hv : value < 2 ^ 64) : value &&& (2 ^ 64 - 1 - (blockAlign - 1)) = value / blockAlign * blockAlign := by
  have hmask : 2 ^ 64 - 1 - (blockAlign - 1) = (2 ^ 52 - 1) * 2 ^ 12 := by decide
  have halign : blockAlign = 2 ^ 12 := rfl
  rw [hmask, halign]
  apply Nat.eq_of_testBit_eq
  intro i
  rw [Nat.testBit_and, Nat.testBit_mul_two_pow, Nat.testBit_mul_two_pow, Nat.testBit_two_pow_sub_one,
    Nat.testBit_div_two_pow]
  by_cases hlow : 12 ≤ i
  · have hidx : i - 12 + 12 = i := by omega
    rw [hidx]
    by_cases hhigh : i - 12 < 52
    · simp [hlow, hhigh]
    · have hbit : value.testBit i = false := by
        apply Nat.testBit_lt_two_pow
        calc value < 2 ^ 64 := hv
          _ ≤ 2 ^ i := Nat.pow_le_pow_right (by decide) (by omega)
      simp [hbit]
  · simp [hlow]

theorem alignUp_eq (hv : value + (blockAlign - 1) < 2 ^ 64) :
    alignUp value blockAlign = (value + (blockAlign - 1)) / blockAlign * blockAlign := by
  rw [alignUp, Nat.mod_eq_of_lt hv, and_mask hv]

theorem alignedSize_eq (hmax : payload.length ≤ maxBlockBytes) :
    alignedSize payload = (44 + payload.length + 4095) / 4096 * 4096 := by
  have hlt : 44 + payload.length + (blockAlign - 1) < 2 ^ 64 := by
    have hle : payload.length ≤ 262144 := hmax
    have hb : blockAlign = 4096 := rfl
    omega
  exact alignUp_eq hlt

theorem alignedSize_spec (hmax : payload.length ≤ maxBlockBytes) :
    44 + payload.length ≤ alignedSize payload ∧ blockAlign ∣ alignedSize payload := by
  rw [alignedSize_eq hmax]
  constructor
  · omega
  · exact Nat.dvd_mul_left _ _

theorem storeRead_eq {st : Store} {offset : ℕ} (hpos : payload.length ≠ 0) (hmax : payload.length ≤ maxBlockBytes)
    (hblock : blockHeader payload ++ payload <+: st.file.drop offset) : storeRead st offset = some payload := by
  obtain ⟨rest, hrest⟩ := hblock
  have hheader : (st.file.drop offset).take 44 = blockHeader payload := by
    rw [← hrest, append_assoc, take_left' (blockHeader_length payload)]
  have hpayload : (st.file.drop (offset + 44)).take payload.length = payload := by
    rw [← drop_drop, ← hrest, append_assoc, drop_left' (blockHeader_length payload), take_left]
  have hlen : leNat (((blockHeader payload).drop 8).take 4) = payload.length := by
    have hfield : ((blockHeader payload).drop 8).take 4 = leBytes 4 payload.length := by
      rw [blockHeader]
      rfl
    have hlt : payload.length < 256 ^ 4 := by
      have hle : payload.length ≤ 262144 := hmax
      omega
    rw [hfield, leNat_leBytes_of_lt hlt]
  have hhash : ((blockHeader payload).drop 12).take 32 = sha256 payload := by
    have hfield : (blockHeader payload).drop 12 = sha256 payload := by
      rw [blockHeader]
      rfl
    rw [hfield, take_of_length_le (sha256_length payload).le]
  have hmagic : leNat ((blockHeader payload).take 4) = magic := by
    have hfield : (blockHeader payload).take 4 = leBytes 4 magic := by
      rw [blockHeader]
      rfl
    rw [hfield]
    decide
  have hversion : leNat (((blockHeader payload).drop 4).take 1) = version := by
    have hfield : ((blockHeader payload).drop 4).take 1 = leBytes 1 version := by
      rw [blockHeader]
      rfl
    rw [hfield]
    decide
  have hnot : ¬(payload.length = 0 ∨ maxBlockBytes < payload.length) := by omega
  simp only [storeRead, hheader, blockHeader_length, hmagic, hversion, hlen, hpayload, hhash, ne_eq, not_true_eq_false,
    or_self, if_false, if_neg hnot]

end Format

/-! ### What an append can do -/

/-- **An append** writes part of a block behind the used part and fails, or writes all of it. -/
theorem storeAppend_cases {st : Store} (payload : List UInt8) (cut : Cut) (hsize : st.size ≤ st.file.length) :
    (∃ part, storeAppend st payload cut = ({ st with file := writeAt st.file st.size part }, none)) ∨
    (payload.length ≠ 0 ∧ payload.length ≤ maxBlockBytes ∧ ∃ padding,
      (blockHeader payload ++ payload ++ padding).length = alignedSize payload ∧
      storeAppend st payload cut =
        ({ file := writeAt st.file st.size (blockHeader payload ++ payload ++ padding),
           size := st.size + alignedSize payload }, some st.size)) := by
  rw [storeAppend]
  by_cases hguard : payload.length = 0 ∨ maxBlockBytes < payload.length
  · left
    refine ⟨[], ?_⟩
    rw [if_pos hguard, writeAt_eq hsize, nil_append, length_nil, Nat.add_zero, take_append_drop]
  rw [if_neg hguard]
  by_cases hcut₁ : cut.header < (blockHeader payload).length
  · left
    exact ⟨_, if_pos hcut₁⟩
  simp only [if_neg hcut₁]
  rw [take_of_length_le (Nat.le_of_not_lt hcut₁), writeAt_writeAt hsize]
  by_cases hcut₂ : cut.payload < payload.length
  · left
    exact ⟨_, if_pos hcut₂⟩
  rw [if_neg hcut₂, take_of_length_le (Nat.le_of_not_lt hcut₂), Nat.add_assoc, ← length_append,
    writeAt_writeAt hsize]
  by_cases hcut₃ : cut.padding < (List.replicate (alignedSize payload - (44 + payload.length)) (0 : UInt8)).length
  · left
    exact ⟨_, if_pos hcut₃⟩
  · right
    rw [if_neg hcut₃, take_of_length_le (Nat.le_of_not_lt hcut₃)]
    have hmax : payload.length ≤ maxBlockBytes := by omega
    have hspec := (alignedSize_spec hmax).1
    refine ⟨by omega, hmax, _, ?_, rfl⟩
    rw [length_append, length_append, length_replicate, blockHeader_length]
    omega

/-! ### Every run -/

/-- The stores reached by openings and appends on one file, with the offset and the payload of every append that
succeeded.  `P` is asked of the file that an opening finds. -/
inductive StoreRun (P : List UInt8 → Prop) : Store → List (ℕ × List UInt8) → Prop
  | init {file : List UInt8} (hfile : P file) : StoreRun P (storeInit file) []
  | reopen {st : Store} {done : List (ℕ × List UInt8)} (h : StoreRun P st done) (hfile : P st.file) :
      StoreRun P (storeInit st.file) done
  | append {st : Store} {done : List (ℕ × List UInt8)} (h : StoreRun P st done) (payload : List UInt8) (cut : Cut) :
      StoreRun P (storeAppend st payload cut).1
        ((storeAppend st payload cut).2.toList.map (fun offset => (offset, payload)) ++ done)

/-- **The invariant**: the used part is in the file, and every appended block stands in the used part. -/
structure StoreInv (st : Store) (done : List (ℕ × List UInt8)) : Prop where
  size_le : st.size ≤ st.file.length
  block : ∀ r ∈ done, r.2.length ≠ 0 ∧ r.2.length ≤ maxBlockBytes ∧
    r.1 + (blockHeader r.2 ++ r.2).length ≤ st.size ∧ blockHeader r.2 ++ r.2 <+: st.file.drop r.1

namespace StoreInv

variable {st : Store} {done : List (ℕ × List UInt8)} {payload bytes : List UInt8} {cut : Cut} {P : List UInt8 → Prop}

theorem prefix_drop_of_take {file file' l : List UInt8} {pos n : ℕ} (h : file'.take n = file.take n)
    (hn : pos + l.length ≤ n) (hl : l <+: file.drop pos) : l <+: file'.drop pos := by
  have htake : ∀ f : List UInt8, ((f.take n).drop pos).take l.length = (f.drop pos).take l.length := by
    intro f
    rw [drop_take, take_take, min_eq_left (by omega)]
  rw [List.prefix_iff_eq_take] at hl ⊢
  rw [← htake, h, htake]
  exact hl

theorem mono {st' : Store} (h : StoreInv st done) (hsize : st.size ≤ st'.size) (hlen : st'.size ≤ st'.file.length)
    (hfile : st'.file.take st.size = st.file.take st.size) : StoreInv st' done := by
  refine ⟨hlen, ?_⟩
  intro r hr
  obtain ⟨hpos, hmax, hend, hblock⟩ := h.block r hr
  exact ⟨hpos, hmax, hend.trans hsize, prefix_drop_of_take hfile hend hblock⟩

theorem reopen (h : StoreInv st done) : StoreInv (storeInit st.file) done :=
  h.mono h.size_le le_rfl rfl

theorem append (h : StoreInv st done) : StoreInv (storeAppend st payload cut).1
    ((storeAppend st payload cut).2.toList.map (fun offset => (offset, payload)) ++ done) := by
  have hsize := h.size_le
  rcases storeAppend_cases payload cut hsize with
    ⟨part, heq⟩ | ⟨hpos, hmax, padding, hlen, heq⟩
  · rw [heq]
    show StoreInv ⟨writeAt st.file st.size part, st.size⟩ done
    apply h.mono
    · exact Nat.le_refl st.size
    · show st.size ≤ (writeAt st.file st.size part).length
      rw [writeAt_length hsize]
      omega
    · exact writeAt_take hsize le_rfl
  · rw [heq]
    have hinv : StoreInv ⟨writeAt st.file st.size (blockHeader payload ++ payload ++ padding),
        st.size + alignedSize payload⟩ done := by
      apply h.mono (Nat.le_add_right _ _)
      · show st.size + alignedSize payload ≤ (writeAt st.file st.size _).length
        rw [writeAt_length hsize, hlen]
        omega
      · exact writeAt_take hsize le_rfl
    refine ⟨hinv.size_le, ?_⟩
    intro r hr
    rcases mem_cons.1 hr with rfl | hr
    · refine ⟨hpos, hmax, ?_, ?_⟩
      · show st.size + (blockHeader payload ++ payload).length ≤ st.size + alignedSize payload
        have hpart : (blockHeader payload ++ payload).length + padding.length = alignedSize payload := by
          simpa [Nat.add_assoc] using hlen
        omega
      · exact (List.prefix_append _ padding).trans (writeAt_drop hsize)
    · exact hinv.block r hr

end StoreInv

section Runs

variable {P : List UInt8 → Prop} {st : Store} {done : List (ℕ × List UInt8)}

theorem StoreRun.inv (h : StoreRun P st done) : StoreInv st done := by
  induction h with
  | init _ => exact ⟨le_rfl, fun r hr => absurd hr not_mem_nil⟩
  | reopen _ _ ih => exact ih.reopen
  | append _ payload cut ih => exact ih.append

/-- **What was appended stays readable**, after any openings and any complete or cut appends. -/
theorem StoreRun.read_eq (h : StoreRun P st done) {r : ℕ × List UInt8} (hr : r ∈ done) :
    storeRead st r.1 = some r.2 := by
  obtain ⟨hpos, hmax, -, hblock⟩ := h.inv.block r hr
  exact storeRead_eq hpos hmax hblock

theorem StoreRun.aligned (hP : ∀ file, P file → blockAlign ∣ file.length) (h : StoreRun P st done) :
    blockAlign ∣ st.size ∧ ∀ r ∈ done, blockAlign ∣ r.1 := by
  induction h with
  | init hfile => exact ⟨hP _ hfile, fun r hr => absurd hr not_mem_nil⟩
  | reopen _ hfile ih => exact ⟨hP _ hfile, ih.2⟩
  | @append st done hrun payload cut ih =>
    rcases storeAppend_cases payload cut hrun.inv.size_le with
      ⟨part, heq⟩ | ⟨-, hmax, padding, -, heq⟩
    · rw [heq]
      exact ih
    · rw [heq]
      refine ⟨Nat.dvd_add ih.1 (alignedSize_spec hmax).2, ?_⟩
      intro r hr
      rcases mem_cons.1 hr with rfl | hr
      · exact ih.1
      · exact ih.2 r hr

/-- **Runs whose openings all find a whole number of blocks.**  Every append that succeeded returned an aligned
offset, and reading there gives its payload. -/
theorem store_aligned_run (h : StoreRun (fun file => blockAlign ∣ file.length) st done) :
    ∀ r ∈ done, blockAlign ∣ r.1 ∧ storeRead st r.1 = some r.2 := by
  intro r hr
  exact ⟨(h.aligned fun _ hfile => hfile).2 r hr, h.read_eq hr⟩

end Runs

/-- A new file with one block in it, and a second block that is appended after it was opened again. -/
def firstBlock : Store := (storeAppend (storeInit []) [1] ⟨44, 1, 4051⟩).1

def secondBlock : Store := (storeAppend (storeInit firstBlock.file) [2, 3] ⟨44, 2, 4050⟩).1

theorem store_aligned_run_reopened :
    StoreRun (fun file => blockAlign ∣ file.length) secondBlock [(4096, [2, 3]), (0, [1])] ∧
      storeRead secondBlock 4096 = some [2, 3] ∧ storeRead secondBlock 0 = some [1] := by
  have hrun : StoreRun (fun file => blockAlign ∣ file.length) secondBlock [(4096, [2, 3]), (0, [1])] := by
    have hstart : StoreRun (fun file => blockAlign ∣ file.length) (storeInit []) [] := .init (Nat.dvd_zero _)
    have hoff : (storeAppend (storeInit []) [1] ⟨44, 1, 4051⟩).2 = some 0 := by decide +kernel
    have happ := hstart.append [1] ⟨44, 1, 4051⟩
    rw [hoff] at happ
    have hoff' : (storeAppend (storeInit firstBlock.file) [2, 3] ⟨44, 2, 4050⟩).2 = some 4096 := by decide +kernel
    have happ' := (happ.reopen (by decide +kernel)).append [2, 3] ⟨44, 2, 4050⟩
    rwa [show (storeAppend (storeInit []) [1] ⟨44, 1, 4051⟩).1 = firstBlock from rfl, hoff'] at happ'
  have hall := store_aligned_run hrun
  exact ⟨hrun, (hall (4096, [2, 3]) mem_cons_self).2, (hall (0, [1]) (mem_cons_of_mem _ mem_cons_self)).2⟩

/-- The header of the first append is cut after one byte, the file is opened again, and the next append returns the
offset one. -/
theorem reopened_after_cut :
    ¬∀ (st : Store) (done : List (ℕ × List UInt8)), StoreRun (fun _ => True) st done →
      ∀ r ∈ done, blockAlign ∣ r.1 ∧ storeRead st r.1 = some r.2 := by
  intro h
  have hstart : StoreRun (fun _ => True) (storeInit []) [] := .init trivial
  have hcut := (hstart.append [1] ⟨1, 0, 0⟩).reopen trivial
  have hnext := hcut.append [1] ⟨44, 1, 4051⟩
  have hoff : (storeAppend (storeInit (storeAppend (storeInit []) [1] ⟨1, 0, 0⟩).1.file) [1] ⟨44, 1, 4051⟩).2
      = some 1 := by decide +kernel
  rw [hoff] at hnext
  have hbad := (h _ _ hnext (1, [1]) mem_cons_self).1
  exact absurd hbad (by decide)

end Rafstore
