import LlamaRafaelia.Lib.Bytes
import Mathlib.Data.Int.Notation
import Mathlib.Logic.Function.Iterate

/-!
# ZIPRAF archives

An archive is a table of entries and one blob; an entry says where its data stand in fields of 32 bits.  
`raf_zipraf_save` dumps header, table and blob, and `raf_zipraf_load` reads them back.

* `save`, `load`, **`load_save`** - the file holds the whole archive.
-/

namespace Zipraf

open List

/-! ### Strings, entries, archives -/

/-- A C string: bytes without a terminating zero among them. -/
structure CString where
  bytes : List UInt8
  no_nul : 0 ∉ bytes
  deriving DecidableEq

/-- An array of `n` bytes. -/
abbrev Block (n : ℕ) : Type := { b : List UInt8 // b.length = n }

/-- `raf_zipraf_entry`. -/
structure Entry where
  name : Block 256
  originalSize : UInt32
  compressedSize : UInt32
  offset : UInt32
  crc32 : UInt32
  deriving DecidableEq

/-- `raf_zipraf_archive`: `num_entries` and `data_size` are the lengths, a number of 32 bits and a size of an object in
memory. -/
structure Archive where
  entries : List Entry
  data : List UInt8
  entries_lt : entries.length < 2 ^ 32
  data_lt : data.length < 2 ^ 64
  deriving DecidableEq

/-- `raf_zipraf_create`. -/
def create : Archive := ⟨[], [], by decide, by decide⟩

/-! ### Checksums -/

/-- The inner loop of `raf_zipraf_init_crc32_table`, once. -/
def crcStep (crc : UInt32) : UInt32 := if crc &&& 1 ≠ 0 then (crc >>> 1) ^^^ 0xEDB88320 else crc >>> 1

/-- `crc32_table`. -/
def crc32Table : List UInt32 := (List.range 256).map fun i => crcStep^[8] (UInt32.ofNat i)

/-- `raf_zipraf_crc32`. -/
def crc32 (data : List UInt8) : UInt32 :=
  ~~~ data.foldl (fun crc b => (crc >>> 8) ^^^ crc32Table.getD ((crc ^^^ b.toUInt32) &&& 0xFF).toNat 0) 0xFFFFFFFF

/-! ### Adding -/

/-- What `strncpy` and the terminating zero leave in `entry->name`. -/
def nameField (name : CString) : Block 256 :=
  ⟨name.bytes.take 255 ++ List.replicate (256 - (name.bytes.take 255).length) 0, by
    rw [length_append, length_replicate, length_take]
    omega⟩

/-- The entry that `raf_zipraf_add_data` makes: sizes and offset are cut to 32 bits. -/
def newEntry (name : CString) (data : List UInt8) (dataSize : ℕ) : Entry where
  name := nameField name
  originalSize := UInt32.ofNat data.length
  compressedSize := UInt32.ofNat data.length
  offset := UInt32.ofNat dataSize
  crc32 := crc32 data

/-- `raf_zipraf_add_data`.  Allocations succeed, but for requests that wrap: with `2 ^ 32 - 1` entries the table is
asked to shrink to nothing, and blob and data together are more than memory can hold. -/
def addData (archive : Archive) (name : CString) (data : List UInt8) : ℤ × Archive :=
  if h : archive.entries.length + 1 < 2 ^ 32 ∧ archive.data.length + data.length < 2 ^ 64 then
    (0, { entries := archive.entries ++ [newEntry name data archive.data.length]
          data := archive.data ++ data
          entries_lt := by rw [length_append]; exact h.1
          data_lt := by rw [length_append]; exact h.2 })
  else (-1, archive)

/-! ### Extracting -/

/-- What `raf_zipraf_extract_data` does. -/
inductive Extract where
  /-- it returns an error -/
  | failed (code : ℤ)
  /-- it returns 0 with these bytes -/
  | ok (output : List UInt8)
  /-- it reads beyond the blob or beyond a name field -/
  | outOfBounds
  deriving DecidableEq

/-- `strcmp` of a name field with a name: whether they are equal, `none` when it reads beyond the field. -/
def strcmp : List UInt8 → List UInt8 → Option Bool
  | [], _ => none
  | c :: _, [] => some (c == 0)
  | c :: field, d :: name => if c = d then strcmp field name else some false

/-- The body of the loop of `raf_zipraf_extract_data` for the entry that was found. -/
def readEntry (data : List UInt8) (entry : Entry) : Extract :=
  if entry.offset.toNat + entry.originalSize.toNat ≤ data.length then
    let output := (data.drop entry.offset.toNat).take entry.originalSize.toNat
    if crc32 output = entry.crc32 then .ok output else .failed (-2)
  else .outOfBounds

/-- The loop of `raf_zipraf_extract_data`. -/
def extractLoop (data : List UInt8) (name : CString) : List Entry → Extract
  | [] => .failed (-1)
  | entry :: rest =>
    match strcmp entry.name.1 name.bytes with
    | none => .outOfBounds
    | some true => readEntry data entry
    | some false => extractLoop data name rest

/-- `raf_zipraf_extract_data`. -/
def extractData (archive : Archive) (name : CString) : Extract := extractLoop archive.data name archive.entries

/-! ### Saving and loading -/

/-- `fwrite` of a number. -/
def word (n x : ℕ) : Block n := ⟨leBytes n x, leBytes_length n x⟩

def entryBytes (entry : Entry) : List UInt8 :=
  entry.name.1 ++ ((word 4 entry.originalSize.toNat).1 ++ ((word 4 entry.compressedSize.toNat).1 ++
    ((word 4 entry.offset.toNat).1 ++ (word 4 entry.crc32.toNat).1)))

/-- `raf_zipraf_save`: the content of the file. -/
def save (archive : Archive) : List UInt8 :=
  (word 4 0x5A524146).1 ++ ((word 4 1).1 ++ ((word 4 archive.entries.length).1 ++ ((word 8 archive.data.length).1 ++
    (archive.entries.flatMap entryBytes ++ archive.data))))

/-- `fread`: the next `n` bytes, `none` when there are fewer. -/
def fread (n : ℕ) (file : List UInt8) : Option (Block n × List UInt8) :=
  if h : n ≤ file.length then some (⟨file.take n, by rw [length_take]; omega⟩, file.drop n) else none

/-- `fread` of a number of 32 bits. -/
def fread32 (file : List UInt8) : Option (UInt32 × List UInt8) := do
  let (b, file) ← fread 4 file
  return (UInt32.ofNat (leNat b.1), file)

def loadEntry (file : List UInt8) : Option (Entry × List UInt8) := do
  let (name, file) ← fread 256 file
  let (originalSize, file) ← fread32 file
  let (compressedSize, file) ← fread32 file
  let (offset, file) ← fread32 file
  let (crc, file) ← fread32 file
  return ({ name := name, originalSize := originalSize, compressedSize := compressedSize, offset := offset
            crc32 := crc }, file)

/-- The table: `n` entries one after the other.  The source reads their bytes at once; a short table fails either way. -/
def loadEntries : (n : ℕ) → List UInt8 → Option ({ l : List Entry // l.length = n } × List UInt8)
  | 0, file => some (⟨[], rfl⟩, file)
  | n + 1, file => do
    let (entry, file) ← loadEntry file
    let (rest, file) ← loadEntries n file
    return (⟨entry :: rest.1, by rw [length_cons, rest.2]⟩, file)

/-- `raf_zipraf_load`: `none` for the null pointer. -/
def load (file : List UInt8) : Option Archive := do
  let (magic, file) ← fread32 file
  let (version, file) ← fread32 file
  let (numEntries, file) ← fread32 file
  let (dataSize, file) ← fread 8 file
  if magic ≠ 0x5A524146 ∨ version ≠ 1 then none
  else do
    let (entries, file) ← loadEntries numEntries.toNat file
    let (data, _) ← fread (leNat dataSize.1) file
    return { entries := entries.1
             data := data.1
             entries_lt := by rw [entries.2]; exact numEntries.toNat_lt
             data_lt := by
               have hlt := leNat_lt dataSize.1
               rw [dataSize.2] at hlt
               rw [data.2]
               exact hlt }

/-! ### What was saved is loaded -/

theorem fread_append {n : ℕ} {l : List UInt8} (h : l.length = n) (rest : List UInt8) :
    fread n (l ++ rest) = some (⟨l, h⟩, rest) := by
  subst h
  rw [fread, dif_pos (by rw [length_append]; omega)]
  simp

theorem fread32_append (x : ℕ) (rest : List UInt8) : fread32 ((word 4 x).1 ++ rest) = some (UInt32.ofNat x, rest) := by
  have hvalue : UInt32.ofNat (leNat (word 4 x).1) = UInt32.ofNat x := by
    apply UInt32.toNat_inj.mp
    rw [show (word 4 x).1 = leBytes 4 x from rfl, leNat_leBytes, UInt32.toNat_ofNat', UInt32.toNat_ofNat']
    omega
  rw [fread32, fread_append (word 4 x).2]
  exact congrArg (fun v => some (v, rest)) hvalue

theorem loadEntry_append (entry : Entry) (rest : List UInt8) :
    loadEntry (entryBytes entry ++ rest) = some (entry, rest) := by
  rw [loadEntry, entryBytes]
  simp only [append_assoc, fread_append entry.name.2, fread32_append, Option.bind_eq_bind, Option.bind_some,
    UInt32.ofNat_toNat]
  rfl

theorem loadEntries_append {n : ℕ} {entries : List Entry} (h : entries.length = n) (rest : List UInt8) :
    loadEntries n (entries.flatMap entryBytes ++ rest) = some (⟨entries, h⟩, rest) := by
  induction entries generalizing n with
  | nil =>
    subst h
    rfl
  | cons entry entries ih =>
    subst h
    rw [flatMap_cons, append_assoc]
    show (do
      let (entry, file) ← loadEntry (entryBytes entry ++ (entries.flatMap entryBytes ++ rest))
      let (rest, file) ← loadEntries entries.length file
      return ((⟨entry :: rest.1, by rw [length_cons, rest.2]⟩ :
        { l : List Entry // l.length = entries.length + 1 }), file)) = _
    simp only [loadEntry_append, ih rfl, Option.bind_eq_bind, Option.bind_some]
    rfl

theorem load_save (archive : Archive) : load (save archive) = some archive := by
  have hcount : archive.entries.length = (UInt32.ofNat archive.entries.length).toNat := by
    rw [UInt32.toNat_ofNat', Nat.mod_eq_of_lt archive.entries_lt]
  have hsize : archive.data.length = leNat (word 8 archive.data.length).1 :=
    (leNat_leBytes_of_lt archive.data_lt).symm
  have hdata : fread (leNat (word 8 archive.data.length).1) archive.data = some (⟨archive.data, hsize⟩, []) := by
    have := fread_append hsize []
    rwa [append_nil] at this
  have hmagic : ¬ (UInt32.ofNat 0x5A524146 ≠ 0x5A524146 ∨ UInt32.ofNat 1 ≠ 1) := by decide
  rw [load, save]
  simp only [fread32_append, fread_append (word 8 archive.data.length).2, Option.bind_eq_bind, Option.bind_some,
    if_neg hmagic, loadEntries_append hcount, hdata]
  rfl

end Zipraf
