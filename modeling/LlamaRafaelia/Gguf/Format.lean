import LlamaRafaelia.Gguf.Reader

/-!
# GGUF: the format that the reader accepts

The format as a grammar: which bytes stand for a string, a key/value pair, a tensor description, the metadata of a
file.  The definitions say what the bytes are and do not mention the reader.

* `reads_readKv`, `reads_readInfo`, `reads_readMeta` - **the reader accepts this format and nothing else**;
* `crashes_readKv`, `crashes_readInfo` - **it ends the process on these inputs and on no others**.
-/

namespace Gguf

open List ByteReader GgufType

/-! ### Pieces -/

def stringBytes (s : List UInt8) : List UInt8 := leBytes 8 s.length ++ s

/-- The type of a value in a file, and for an array the type and the number of its elements. -/
def typeBytes (isArray : Bool) (type : GgufType) (n : ℕ) : List UInt8 :=
  if isArray then leBytes 4 array.code ++ leBytes 4 type.code ++ leBytes 8 n else leBytes 4 type.code

section

variable (mem : Memory)

/-- The bytes `b` stand for `n` values of the type. -/
def Values (type : GgufType) (n : ℕ) (b : List UInt8) (value : List UInt8 × List (List UInt8)) : Prop :=
  match type with
  | .string =>
    value.1 = [] ∧ value.2.length = n ∧ b = value.2.flatMap stringBytes ∧ ∀ s ∈ value.2, mem.has s.length = true
  | .bool => b.length = n ∧ value = (b.map boolByte, [])
  | _ => b.length = n * ggufTypeSize type ∧ value = (b, [])

/-! ### Key/value pairs -/

/-- What a pair may have before its value, after the pairs `kv`: a key that is not one of theirs, a type, and one
value unless it is an array. -/
structure KvHead (kv : List GgufKv) (key : List UInt8) (isArray : Bool) (type : GgufType) (n : ℕ) : Prop where
  mem_key : mem.has key.length = true
  fresh : ∀ e ∈ kv, e.key ≠ key
  type_ne : type ≠ .array
  lt : n < 2 ^ 64
  single : isArray = false → n = 1

def headBytes (key : List UInt8) (isArray : Bool) (type : GgufType) (n : ℕ) : List UInt8 :=
  stringBytes key ++ typeBytes isArray type n

def ValueBytes (isArray : Bool) (type : GgufType) (n : ℕ) (b : List UInt8) (value : List UInt8 × List (List UInt8)) :
    Prop :=
  (isArray = true → mem.has (vectorBytes type n) = true) ∧ Values mem type n b value

/-- **A key/value pair** after the pairs `kv`. -/
def KvRecord (kv : List GgufKv) (b : List UInt8) (kv' : List GgufKv) : Prop :=
  ∃ e n v, b = headBytes e.key e.isArray e.type n ++ v ∧ KvHead mem kv e.key e.isArray e.type n ∧
    ValueBytes mem e.isArray e.type n v (e.data, e.dataString) ∧ e.key ≠ [] ∧
    (e.isArray = true → mem.has e.data.length = true) ∧ kv' = kv ++ [e]

/-- **A pair that ends the process**: a string of a length that cannot be allocated, an empty key, or an array of
booleans that cannot be held with one byte for each of them. -/
def FatalKv (kv : List GgufKv) (bs : List UInt8) : Prop :=
  ∃ key isArray type n rest, bs = headBytes key isArray type n ++ rest ∧ KvHead mem kv key isArray type n ∧
    ((isArray = false ∧ type = .string ∧
        ∃ size r, rest = leBytes 8 size ++ r ∧ size < 2 ^ 64 ∧ mem.has size = false) ∨
      ∃ v value r, rest = v ++ r ∧ ValueBytes mem isArray type n v value ∧
        (key = [] ∨ isArray = true ∧ type = .bool ∧ mem.has n = false))

end

/-! ### Reading strings and values -/

section

variable {mem : Memory}

theorem Memory.lt {n : ℕ} (h : mem.has n = true) : n < 2 ^ 64 := by
  have := mem.max n h
  omega

theorem reads_readString :
    Reads (readString mem) fun b s => b = stringBytes s ∧ mem.has s.length = true := by
  refine (Reads.bind (Reads.number 8) fun size => Reads.ite _ (Reads.take size) (Reads.crash _)).congr ?_
  intro b s
  constructor
  · rintro ⟨b1, size, b2, rfl, ⟨-, rfl⟩, h⟩
    split at h
    · rename_i hmem
      obtain ⟨rfl, rfl⟩ := h
      exact ⟨rfl, hmem⟩
    · exact h.elim
  · rintro ⟨rfl, hmem⟩
    refine ⟨leBytes 8 s.length, s.length, s, rfl, ⟨Memory.lt hmem, rfl⟩, ?_⟩
    rw [if_pos hmem]
    exact ⟨rfl, rfl⟩

theorem crashes_readString :
    Crashes (readString mem) fun bs => ∃ size r, bs = leBytes 8 size ++ r ∧ size < 2 ^ 64 ∧ mem.has size = false := by
  refine (Harmless.bind (Reads.number 8) (Harmless.number 8) fun size =>
    Crashes.ite _ (Harmless.take size) (Crashes.crash _)).congr ?_
  intro bs
  constructor
  · rintro ⟨b, size, r, rfl, ⟨hlt, rfl⟩, h⟩
    split at h
    · exact h.elim
    · rename_i hmem
      exact ⟨size, r, rfl, hlt, by simpa using hmem⟩
  · rintro ⟨size, r, rfl, hlt, hmem⟩
    refine ⟨leBytes 8 size, size, r, rfl, ⟨hlt, rfl⟩, ?_⟩
    rw [if_neg (by simp [hmem])]
    trivial

def StringRecord (mem : Memory) (l : List (List UInt8)) (b : List UInt8) (l' : List (List UInt8)) : Prop :=
  ∃ s, b = stringBytes s ∧ mem.has s.length = true ∧ l' = l ++ [s]

theorem records_stringRecord {n : ℕ} {l l' : List (List UInt8)} {b : List UInt8} :
    Records (StringRecord mem) n l b l' ↔
      ∃ m, l' = l ++ m ∧ m.length = n ∧ b = m.flatMap stringBytes ∧ ∀ s ∈ m, mem.has s.length = true := by
  constructor
  · intro h
    induction h with
    | zero l => exact ⟨[], by simp⟩
    | succ h _ ih =>
      obtain ⟨s, rfl, hs, rfl⟩ := h
      obtain ⟨m, rfl, rfl, rfl, hm⟩ := ih
      exact ⟨s :: m, by simp, rfl, rfl, by simpa using ⟨hs, hm⟩⟩
  · rintro ⟨m, rfl, rfl, rfl, hm⟩
    induction m generalizing l with
    | nil => simpa using Records.zero l
    | cons s m ih =>
      have hs := hm s (mem_cons_self ..)
      have hrest := ih (l := l ++ [s]) fun s' hs' => hm s' (mem_cons_of_mem _ hs')
      rw [append_assoc, singleton_append] at hrest
      exact .succ ⟨s, rfl, hs, rfl⟩ hrest

theorem reads_readStringStep (l : List (List UInt8)) :
    Reads (readString mem >>= fun s => pure (l ++ [s])) (StringRecord mem l) := by
  refine (Reads.bind reads_readString fun s => Reads.pure (l ++ [s])).congr fun b l' => ?_
  constructor
  · rintro ⟨b1, s, b2, rfl, ⟨rfl, hs⟩, rfl, rfl⟩
    exact ⟨s, append_nil _, hs, rfl⟩
  · rintro ⟨s, rfl, hs, rfl⟩
    exact ⟨stringBytes s, s, [], (append_nil _).symm, ⟨rfl, hs⟩, rfl, rfl⟩

theorem crashes_readStringStep (l : List (List UInt8)) :
    Crashes (readString mem >>= fun s => pure (l ++ [s])) fun bs =>
      ∃ size r, bs = leBytes 8 size ++ r ∧ size < 2 ^ 64 ∧ mem.has size = false := by
  refine (Crashes.bind reads_readString crashes_readString fun s => Harmless.pure (l ++ [s])).congr fun bs => ?_
  simp

theorem reads_readStrings (n : ℕ) :
    Reads (readStrings mem n) fun b l =>
      l.length = n ∧ b = l.flatMap stringBytes ∧ ∀ s ∈ l, mem.has s.length = true := by
  refine (Reads.repeatN reads_readStringStep n []).congr fun b l => ?_
  rw [records_stringRecord]
  constructor
  · rintro ⟨m, rfl, hm⟩
    exact hm
  · intro h
    exact ⟨l, rfl, h⟩

theorem reads_take_pair (n : ℕ) (f : List UInt8 → List UInt8) :
    Reads (take n >>= fun b => pure (f b, []) : ByteReader Fault (List UInt8 × List (List UInt8)))
      fun b value => b.length = n ∧ value = (f b, []) := by
  refine (Reads.bind (Reads.take n) fun b => Reads.pure (f b, [])).congr fun b value => ?_
  constructor
  · rintro ⟨b1, a, b2, rfl, ⟨hlen, rfl⟩, rfl, rfl⟩
    rw [append_nil]
    exact ⟨hlen, rfl⟩
  · rintro ⟨hlen, rfl⟩
    exact ⟨b, b, [], (append_nil _).symm, ⟨hlen, rfl⟩, rfl, rfl⟩

theorem harmless_take_pair (n : ℕ) (f : List UInt8 → List UInt8) :
    Harmless (take n >>= fun b => pure (f b, []) : ByteReader Fault (List UInt8 × List (List UInt8))) := by
  refine (Harmless.bind (Reads.take n) (Harmless.take n) fun b => Harmless.pure (f b, [])).congr fun bs => ?_
  simp

theorem reads_readValues (type : GgufType) (n : ℕ) : Reads (readValues mem type n) (Values mem type n) := by
  have hbytes := fun m => reads_take_pair m id
  cases type with
  | string =>
    refine (Reads.bind (reads_readStrings n) fun l => Reads.pure ([], l)).congr fun b value => ?_
    constructor
    · rintro ⟨b1, l, b2, rfl, ⟨hlen, rfl, hmem⟩, rfl, rfl⟩
      exact ⟨rfl, hlen, append_nil _, hmem⟩
    · obtain ⟨data, l⟩ := value
      rintro ⟨rfl, hlen, rfl, hmem⟩
      exact ⟨l.flatMap stringBytes, l, [], (append_nil _).symm, ⟨hlen, rfl, hmem⟩, rfl, rfl⟩
  | bool => exact reads_take_pair n fun b => b.map boolByte
  | _ => exact hbytes _

theorem crashes_readValues_one (type : GgufType) : Crashes (readValues mem type 1) fun bs =>
    type = .string ∧ ∃ size r, bs = leBytes 8 size ++ r ∧ size < 2 ^ 64 ∧ mem.has size = false := by
  have hnone : ∀ {t : GgufType} (n : ℕ) (f : List UInt8 → List UInt8), t ≠ .string →
      Crashes (take n >>= fun b => pure (f b, []) : ByteReader Fault (List UInt8 × List (List UInt8)))
        fun bs => t = .string ∧ ∃ size r, bs = leBytes 8 size ++ r ∧ size < 2 ^ 64 ∧ mem.has size = false :=
    fun n f ht => (harmless_take_pair n f).congr fun bs => by simp [ht]
  cases type with
  | string =>
    have hloop := Crashes.repeatN (@reads_readStringStep mem) crashes_readStringStep 1 []
    refine (Crashes.bind (reads_readStrings 1) hloop fun l => Harmless.pure ([], l)).congr fun bs => ?_
    constructor
    · rintro (⟨i, hi, b, t, rest, rfl, hr, h⟩ | ⟨_, _, _, _, _, h⟩)
      · obtain rfl : i = 0 := by omega
        cases hr
        exact ⟨rfl, h⟩
      · exact h.elim
    · rintro ⟨-, h⟩
      exact .inl ⟨0, by omega, [], [], bs, rfl, .zero _, h⟩
  | bool => exact hnone 1 (fun b => b.map boolByte) (by simp)
  | _ => exact hnone _ id (by simp)

theorem reads_liftExcept {α : Type} (x : Except Fault α) : Reads (liftExcept x) fun b a => b = [] ∧ x = .ok a := by
  cases x with
  | ok a =>
    refine (Reads.pure a).congr fun b a' => ?_
    rw [Except.ok.injEq]
    exact and_congr_right fun _ => eq_comm
  | error e =>
    refine (Reads.crash e).congr fun b a' => ?_
    simp

theorem crashes_liftExcept {α : Type} (x : Except Fault α) : Crashes (liftExcept x) fun _ => ∃ e, x = .error e := by
  cases x with
  | ok a => exact (Harmless.pure a).congr fun bs => by simp
  | error e => exact (Crashes.crash e).congr fun bs => by simp

/-! ### Reading pairs -/

theorem reads_readVector (type : GgufType) (n : ℕ) :
    Reads (readVector mem type n) fun b value =>
      mem.has (vectorBytes type n) = true ∧ Values mem type n b value := by
  refine (Reads.ite _ (reads_readValues type n) (Reads.crash _)).congr fun b value => ?_
  split <;> simp_all

theorem reads_readValue (isArray : Bool) (type : GgufType) {n : ℕ} (hn : isArray = false → n = 1) :
    Reads (readValue mem isArray type n) (ValueBytes mem isArray type n) := by
  cases isArray with
  | true =>
    refine (reads_readVector type n).attempt.congr fun b value => ?_
    simp [ValueBytes]
  | false =>
    obtain rfl := hn rfl
    refine (reads_readValues type 1).congr fun b value => ?_
    simp [ValueBytes]

theorem crashes_readValue (isArray : Bool) (type : GgufType) (n : ℕ) :
    Crashes (readValue mem isArray type n) fun bs =>
      isArray = false ∧ type = .string ∧
        ∃ size r, bs = leBytes 8 size ++ r ∧ size < 2 ^ 64 ∧ mem.has size = false := by
  cases isArray with
  | true => exact (Harmless.attempt _).congr fun bs => by simp
  | false => exact (crashes_readValues_one type).congr fun bs => by simp

theorem newKv_eq_ok_iff {key : List UInt8} {isArray : Bool} {type : GgufType}
    {value : List UInt8 × List (List UInt8)} {e : GgufKv} :
    newKv mem key isArray type value = .ok e ↔
      key ≠ [] ∧ (isArray = true → mem.has value.1.length = true) ∧ e = ⟨key, isArray, type, value.1, value.2⟩ := by
  rw [newKv]
  by_cases hkey : key = []
  · simp [hkey]
  · cases isArray with
    | false =>
      simp only [hkey, if_false, Bool.false_and, Bool.false_eq_true, Except.ok.injEq]
      simpa [hkey] using eq_comm
    | true =>
      cases hmem : mem.has value.1.length with
      | false => simp [hkey]
      | true =>
        simp only [hkey, if_false, Bool.not_true, Bool.and_false, Bool.false_eq_true, Except.ok.injEq]
        simpa [hkey] using eq_comm

theorem newKv_eq_error_iff {key : List UInt8} {isArray : Bool} {type : GgufType}
    {value : List UInt8 × List (List UInt8)} :
    (∃ f, newKv mem key isArray type value = .error f) ↔
      key = [] ∨ isArray = true ∧ mem.has value.1.length = false := by
  rw [newKv]
  by_cases hkey : key = []
  · simp [hkey]
  · cases isArray with
    | false => simp [hkey]
    | true => cases hmem : mem.has value.1.length <;> simp [hkey]

theorem has_length_iff {isArray : Bool} {type : GgufType} {n : ℕ} {v : List UInt8}
    {value : List UInt8 × List (List UInt8)} (h : ValueBytes mem isArray type n v value) (hne : type ≠ .array) :
    (isArray = true ∧ mem.has value.1.length = false) ↔ (isArray = true ∧ type = .bool ∧ mem.has n = false) := by
  refine and_congr_right fun hA => ?_
  obtain ⟨hvec, hval⟩ := h
  specialize hvec hA
  have hzero := mem.zero
  cases type with
  | string =>
    obtain ⟨hnil, -⟩ := hval
    simp [hnil, hzero]
  | bool =>
    obtain ⟨hlen, rfl⟩ := hval
    simp [hlen]
  | array => exact (hne rfl).elim
  | _ =>
    obtain ⟨hlen, rfl⟩ := hval
    simp only [vectorBytes] at hvec
    simp [hlen, hvec]

theorem reads_ggufReadEmplaceHelper (kv : List GgufKv) (key : List UInt8) (isArray : Bool) (type : GgufType) {n : ℕ}
    (hn : isArray = false → n = 1) :
    Reads (ggufReadEmplaceHelper mem kv key isArray type n) fun v kv' =>
      ∃ value, ValueBytes mem isArray type n v value ∧ key ≠ [] ∧
        (isArray = true → mem.has value.1.length = true) ∧
        kv' = kv ++ [⟨key, isArray, type, value.1, value.2⟩] := by
  refine (Reads.bind (reads_readValue isArray type hn) fun value =>
    Reads.bind (reads_liftExcept (newKv mem key isArray type value)) fun e => Reads.pure (kv ++ [e])).congr ?_
  intro v kv'
  constructor
  · rintro ⟨b1, value, b2, rfl, hv, b3, e, b4, rfl, ⟨rfl, he⟩, rfl, rfl⟩
    obtain ⟨hkey, hmem, rfl⟩ := (newKv_eq_ok_iff).mp he
    refine ⟨value, ?_, hkey, hmem, rfl⟩
    simpa using hv
  · rintro ⟨value, hv, hkey, hmem, rfl⟩
    exact ⟨v, value, [], (append_nil _).symm, hv, [], _, [], rfl,
      ⟨rfl, (newKv_eq_ok_iff).mpr ⟨hkey, hmem, rfl⟩⟩, rfl, rfl⟩

theorem crashes_ggufReadEmplaceHelper (kv : List GgufKv) (key : List UInt8) (isArray : Bool) (type : GgufType)
    {n : ℕ} (hn : isArray = false → n = 1) (hne : type ≠ .array) :
    Crashes (ggufReadEmplaceHelper mem kv key isArray type n) fun rest =>
      (isArray = false ∧ type = .string ∧
        ∃ size r, rest = leBytes 8 size ++ r ∧ size < 2 ^ 64 ∧ mem.has size = false) ∨
      ∃ v value r, rest = v ++ r ∧ ValueBytes mem isArray type n v value ∧
        (key = [] ∨ isArray = true ∧ type = .bool ∧ mem.has n = false) := by
  refine (Crashes.bind (reads_readValue isArray type hn) (crashes_readValue isArray type n) fun value =>
    Crashes.bind (reads_liftExcept (newKv mem key isArray type value)) (crashes_liftExcept _) fun e =>
      Harmless.pure (kv ++ [e])).congr ?_
  intro rest
  refine or_congr_right ?_
  constructor
  · rintro ⟨v, value, r, rfl, hv, h | ⟨_, _, _, _, _, h⟩⟩
    · refine ⟨v, value, r, rfl, hv, ?_⟩
      rw [← has_length_iff hv hne]
      exact (newKv_eq_error_iff).mp h
    · exact h.elim
  · rintro ⟨v, value, r, rfl, hv, h⟩
    rw [← has_length_iff hv hne] at h
    exact ⟨v, value, r, rfl, hv, .inl ((newKv_eq_error_iff).mpr h)⟩

theorem reads_readType :
    Reads readType fun b x =>
      x.2.1 < 2 ^ 32 ∧ x.2.2 < 2 ^ 64 ∧ (x.1 = false → x.2.2 = 1 ∧ x.2.1 ≠ array.code) ∧
        b = if x.1 then leBytes 4 array.code ++ leBytes 4 x.2.1 ++ leBytes 8 x.2.2
          else leBytes 4 x.2.1 := by
  refine (Reads.bind (Reads.number 4) fun type => Reads.ite _
    (Reads.bind (Reads.number 4) fun type => Reads.bind (Reads.number 8) fun n => Reads.pure (true, type, n))
    (Reads.pure (false, type, 1))).congr ?_
  intro b x
  constructor
  · rintro ⟨b1, type, b2, rfl, ⟨hlt, rfl⟩, h⟩
    split at h
    · rename_i hA
      obtain ⟨b3, type', b4, rfl, ⟨hlt', rfl⟩, b5, n, b6, rfl, ⟨hn, rfl⟩, rfl, rfl⟩ := h
      refine ⟨hlt', hn, by simp, ?_⟩
      simp [hA]
    · rename_i hA
      obtain ⟨rfl, rfl⟩ := h
      exact ⟨hlt, by simp, fun _ => ⟨rfl, hA⟩, by simp⟩
  · obtain ⟨isArray, type, n⟩ := x
    rintro ⟨hlt, hn, hsingle, rfl⟩
    cases isArray with
    | true =>
      refine ⟨leBytes 4 array.code, _, leBytes 4 type ++ leBytes 8 n, by simp, ⟨by decide, rfl⟩, ?_⟩
      rw [if_pos rfl]
      exact ⟨_, type, leBytes 8 n, rfl, ⟨hlt, rfl⟩, _, n, [], (append_nil _).symm, ⟨hn, rfl⟩, rfl, rfl⟩
    | false =>
      obtain ⟨rfl, hA⟩ := hsingle rfl
      refine ⟨leBytes 4 type, type, [], by simp, ⟨hlt, rfl⟩, ?_⟩
      rw [if_neg hA]
      exact ⟨rfl, rfl⟩

theorem valueType_eq_some_iff {code : ℕ} {type : GgufType} :
    valueType code = some type ↔ type.code = code ∧ type ≠ .array := by
  rw [← ofCode_eq_some_iff, valueType]
  split
  · rename_i harray
    rw [harray, Option.some.injEq]
    constructor
    · intro h
      cases h
    · rintro ⟨rfl, h⟩
      exact (h rfl).elim
  · rename_i hne
    constructor
    · intro h
      exact ⟨h, fun heq => hne (heq ▸ h)⟩
    · rintro ⟨h, -⟩
      exact h

theorem any_key_iff {kv : List GgufKv} {key : List UInt8} :
    (kv.any fun e => decide (e.key = key)) = true ↔ ¬∀ e ∈ kv, e.key ≠ key := by
  simp

theorem harmless_readType : Harmless readType := by
  refine (Harmless.bind (Reads.number 4) (Harmless.number 4) fun type => Crashes.ite _
    (Harmless.bind (Reads.number 4) (Harmless.number 4) fun type =>
      Harmless.bind (Reads.number 8) (Harmless.number 8) fun n => Harmless.pure (true, type, n))
    (Harmless.pure (false, type, 1))).congr fun bs => ?_
  simp

theorem reads_readKv (kv : List GgufKv) : Reads (readKv mem kv) (KvRecord mem kv) := by
  refine (Reads.bind (@reads_readString mem).attempt fun key => Reads.ite ((kv.any fun e => decide (e.key = key)) = true) Reads.fail
    (Reads.bindOf reads_readType fun b x hx => Reads.bind (Reads.ofOption (valueType x.2.1)) fun type =>
      @reads_ggufReadEmplaceHelper mem kv key x.1 type x.2.2 fun h => (hx.2.2.1 h).1)).congr ?_
  intro b kv'
  constructor
  · rintro ⟨b1, key, b2, rfl, ⟨rfl, hkey⟩, h⟩
    split at h
    · exact h.elim
    · rename_i hfresh
      obtain ⟨b3, ⟨isArray, code, n⟩, b4, rfl, ⟨-, hn, hsingle, rfl⟩, b5, type, v, rfl, ⟨rfl, htype⟩, value, hv, hne, hmem,
        rfl⟩ := h
      obtain ⟨rfl, harray⟩ := (valueType_eq_some_iff).mp htype
      rw [any_key_iff, not_not] at hfresh
      refine ⟨⟨key, isArray, type, value.1, value.2⟩, n, v, ?_, ⟨hkey, hfresh, harray, hn, fun h => (hsingle h).1⟩, hv,
        hne, hmem, rfl⟩
      exact (append_assoc ..).symm
  · rintro ⟨e, n, v, rfl, hhead, hv, hne, hmem, rfl⟩
    refine ⟨stringBytes e.key, e.key, typeBytes e.isArray e.type n ++ v, append_assoc .., ⟨rfl, hhead.mem_key⟩, ?_⟩
    rw [if_neg (by rw [any_key_iff, not_not]; exact hhead.fresh)]
    refine ⟨typeBytes e.isArray e.type n, (e.isArray, e.type.code, n), v, rfl, ⟨e.type.code_lt, hhead.lt, ?_, rfl⟩,
      [], e.type, v, rfl, ⟨rfl, (valueType_eq_some_iff).mpr ⟨rfl, hhead.type_ne⟩⟩, (e.data, e.dataString), hv, hne, hmem,
      rfl⟩
    exact fun h => ⟨hhead.single h, fun hcode => hhead.type_ne (code_injective hcode)⟩

theorem crashes_readKv (kv : List GgufKv) : Crashes (readKv mem kv) (FatalKv mem kv) := by
  refine (Harmless.bind (@reads_readString mem).attempt (Harmless.attempt _) fun key =>
    Crashes.ite ((kv.any fun e => decide (e.key = key)) = true) Harmless.fail
    (Harmless.bindOf reads_readType harmless_readType fun b x hx =>
      Harmless.bindOf (Reads.ofOption (valueType x.2.1)) (Harmless.ofOption _) fun b type htype =>
        @crashes_ggufReadEmplaceHelper mem kv key x.1 type x.2.2 (fun h => (hx.2.2.1 h).1)
          ((valueType_eq_some_iff).mp htype.2).2)).congr ?_
  intro bs
  constructor
  · rintro ⟨b1, key, r1, rfl, ⟨rfl, hkey⟩, h⟩
    split at h
    · exact h.elim
    · rename_i hfresh
      obtain ⟨b3, ⟨isArray, code, n⟩, r2, rfl, ⟨-, hn, hsingle, rfl⟩, b4, type, rest, rfl, ⟨rfl, htype⟩, h⟩ := h
      obtain ⟨rfl, harray⟩ := (valueType_eq_some_iff).mp htype
      rw [any_key_iff, not_not] at hfresh
      refine ⟨key, isArray, type, n, rest, ?_, ⟨hkey, hfresh, harray, hn, fun h => (hsingle h).1⟩, h⟩
      exact (append_assoc ..).symm
  · rintro ⟨key, isArray, type, n, rest, rfl, hhead, h⟩
    refine ⟨stringBytes key, key, typeBytes isArray type n ++ rest, append_assoc .., ⟨rfl, hhead.mem_key⟩, ?_⟩
    rw [if_neg (by rw [any_key_iff, not_not]; exact hhead.fresh)]
    refine ⟨typeBytes isArray type n, (isArray, type.code, n), rest, rfl, ⟨type.code_lt, hhead.lt, ?_, rfl⟩,
      [], type, rest, rfl, ⟨rfl, (valueType_eq_some_iff).mpr ⟨rfl, hhead.type_ne⟩⟩, h⟩
    exact fun h => ⟨hhead.single h, fun hcode => hhead.type_ne (code_injective hcode)⟩

end

/-! ### Tensor descriptions -/

def Dims.toList (ne : Dims) : List ℕ := [ne.d0, ne.d1, ne.d2, ne.d3]

/-- A shape in a file: the number of dimensions, and then as many numbers. -/
def shapeBytes (nDims : ℕ) (ne : Dims) : List UInt8 := leBytes 4 nDims ++ (ne.toList.take nDims).flatMap (leBytes 8)

/-- The numbers of a shape are not negative, and the dimensions that are not in the file are 1. -/
structure IsShape (nDims : ℕ) (ne : Dims) : Prop where
  nDims_le : nDims ≤ ggmlMaxDims
  lt : ∀ d ∈ ne.toList, d < 2 ^ 63
  one : ∀ d ∈ ne.toList.drop nDims, d = 1

def NelementsOk (ne : Dims) : Prop :=
  ne.d0 < int64Max / ne.d1 ∧ ne.d0 * ne.d1 < int64Max / ne.d2 ∧ ne.d0 * ne.d1 * ne.d2 < int64Max / ne.d3

/-- The shapes on which that check divides by zero: one of the dimensions 1, 2, 3 is empty, and the comparisons to the
left of it did not settle the matter. -/
def DividesByZero (ne : Dims) : Prop :=
  ne.d1 = 0 ∨ ne.d0 < int64Max / ne.d1 ∧
    (ne.d2 = 0 ∨ ne.d0 * ne.d1 < int64Max / ne.d2 ∧ ne.d3 = 0)

/-- A name in a file that a tensor after `info` may have. -/
structure IsName (mem : Memory) (info : List GgufTensorInfo) (name : List UInt8) : Prop where
  mem_name : mem.has name.length = true
  lt : name.length < ggmlMaxName
  fresh : ∀ ti ∈ info, ti.t.name ≠ ggmlSetName name

/-- **A tensor description** after those in `info`. -/
def InfoRecord (mem : Memory) (info : List GgufTensorInfo) (b : List UInt8) (info' : List GgufTensorInfo) : Prop :=
  ∃ name nDims ne type offset,
    b = stringBytes name ++ (shapeBytes nDims ne ++ (leBytes 4 type.code ++ leBytes 8 offset)) ∧
    IsName mem info name ∧ IsShape nDims ne ∧ NelementsOk ne ∧ ne.d0 % ggmlBlckSize type = 0 ∧ offset < 2 ^ 64 ∧
    info' = info ++ [⟨⟨ggmlSetName name, type, ne, strides type ne, none⟩, offset⟩]

/-- **A tensor description that ends the process**: the check of its shape divides by zero. -/
def FatalInfo (mem : Memory) (info : List GgufTensorInfo) (bs : List UInt8) : Prop :=
  ∃ name nDims ne rest, bs = stringBytes name ++ (shapeBytes nDims ne ++ rest) ∧ IsName mem info name ∧
    IsShape nDims ne ∧ DividesByZero ne

theorem reads_readNe (present : Bool) :
    Reads (readNe present) fun b d => if present then d < 2 ^ 63 ∧ b = leBytes 8 d else b = [] ∧ d = 1 := by
  cases present with
  | false => exact Reads.pure 1
  | true =>
    refine (Reads.bind (Reads.number 8) fun ne => Reads.ite (2 ^ 63 ≤ ne) Reads.fail (Reads.pure ne)).congr ?_
    intro b d
    constructor
    · rintro ⟨b1, ne, b2, rfl, ⟨-, rfl⟩, h⟩
      split at h
      · exact h.elim
      · rename_i hlt
        obtain ⟨rfl, rfl⟩ := h
        exact ⟨by omega, append_nil _⟩
    · rintro ⟨hlt, rfl⟩
      refine ⟨leBytes 8 d, d, [], (append_nil _).symm, ⟨by omega, rfl⟩, ?_⟩
      rw [if_neg (by omega)]
      exact ⟨rfl, rfl⟩

theorem harmless_readNe (present : Bool) : Harmless (readNe present) := by
  cases present with
  | false => exact Harmless.pure 1
  | true =>
    refine (Harmless.bind (Reads.number 8) (Harmless.number 8) fun ne =>
      Crashes.ite (2 ^ 63 ≤ ne) Harmless.fail (Harmless.pure ne)).congr fun bs => ?_
    simp

theorem reads_checkNelements (ne : Dims) :
    Reads (checkNelements ne) fun b _ => b = [] ∧ NelementsOk ne := by
  intro bs a rest
  rw [checkNelements, NelementsOk]
  split_ifs with h1 h2 h3 h4 h5 h6
  · simp [crash, h1]
  · simp [fail, Nat.not_lt.mpr h2]
  · simp [crash, h3]
  · simp [fail, Nat.not_lt.mpr h4]
  · simp [crash, h5]
  · simp [fail, Nat.not_lt.mpr h6]
  · simp [pure_apply, Nat.lt_of_not_le h2, Nat.lt_of_not_le h4, Nat.lt_of_not_le h6]

theorem crashes_checkNelements (ne : Dims) : Crashes (checkNelements ne) fun _ => DividesByZero ne := by
  intro bs
  rw [checkNelements, DividesByZero]
  split_ifs with h1 h2 h3 h4 h5 h6
  · simp [crash, h1]
  · simp [fail, h1, Nat.not_lt.mpr h2]
  · simp [crash, h3, Nat.lt_of_not_le h2]
  · simp [fail, h1, h3, Nat.not_lt.mpr h4]
  · simp [crash, h5, Nat.lt_of_not_le h2, Nat.lt_of_not_le h4]
  · simp [fail, h1, h3, h5]
  · simp [h1, h3, h5]

theorem reads_readDims {nDims : ℕ} (hle : nDims ≤ ggmlMaxDims) :
    Reads (readDims nDims) fun b ne => IsShape nDims ne ∧ b = (ne.toList.take nDims).flatMap (leBytes 8) := by
  refine (Reads.bind (reads_readNe _) fun d0 => Reads.bind (reads_readNe _) fun d1 =>
    Reads.bind (reads_readNe _) fun d2 => Reads.bind (reads_readNe _) fun d3 =>
      Reads.pure (⟨d0, d1, d2, d3⟩ : Dims)).congr ?_
  intro b ne
  have hcases : nDims = 0 ∨ nDims = 1 ∨ nDims = 2 ∨ nDims = 3 ∨ nDims = 4 := by
    have : ggmlMaxDims = 4 := rfl
    omega
  constructor
  · rintro ⟨b1, d0, b2, rfl, h0, b3, d1, b4, rfl, h1, b5, d2, b6, rfl, h2, b7, d3, b8, rfl, h3, rfl, rfl⟩
    refine ⟨⟨hle, ?_, ?_⟩, ?_⟩
    all_goals
      obtain rfl | rfl | rfl | rfl | rfl := hcases <;> simp_all [Dims.toList]
  · rintro ⟨⟨-, hlt, hone⟩, rfl⟩
    obtain ⟨d0, d1, d2, d3⟩ := ne
    obtain rfl | rfl | rfl | rfl | rfl := hcases <;> simp_all [Dims.toList]

theorem harmless_readDims (nDims : ℕ) : Harmless (readDims nDims) := by
  refine (Harmless.bind (reads_readNe _) (harmless_readNe _) fun d0 => Harmless.bind (reads_readNe _)
    (harmless_readNe _) fun d1 => Harmless.bind (reads_readNe _) (harmless_readNe _) fun d2 =>
      Harmless.bind (reads_readNe _) (harmless_readNe _) fun d3 =>
        Harmless.pure (⟨d0, d1, d2, d3⟩ : Dims)).congr fun bs => ?_
  simp

theorem nDims_lt {nDims : ℕ} {ne : Dims} (h : IsShape nDims ne) : nDims < 256 ^ 4 := by
  have := h.nDims_le
  have : ggmlMaxDims = 4 := rfl
  omega

theorem reads_readShape :
    Reads readShape fun b ne => ∃ nDims, b = shapeBytes nDims ne ∧ IsShape nDims ne ∧ NelementsOk ne := by
  refine (Reads.bind (Reads.number 4) fun nDims => Reads.iteOf (ggmlMaxDims < nDims) (fun _ => Reads.fail) fun hle =>
    Reads.bind (reads_readDims (Nat.le_of_not_lt hle)) fun ne => Reads.bind (reads_checkNelements ne) fun _ =>
      Reads.pure ne).congr ?_
  intro b ne
  constructor
  · rintro ⟨b1, nDims, b2, rfl, ⟨-, rfl⟩, h⟩
    split_ifs at h
    obtain ⟨b3, ne, b4, rfl, ⟨hshape, rfl⟩, b5, -, b6, rfl, ⟨rfl, hok⟩, rfl, rfl⟩ := h
    exact ⟨nDims, by simp [shapeBytes], hshape, hok⟩
  · rintro ⟨nDims, rfl, hshape, hok⟩
    refine ⟨_, nDims, _, rfl, ⟨nDims_lt hshape, rfl⟩, ?_⟩
    rw [if_neg (Nat.not_lt.mpr hshape.nDims_le)]
    exact ⟨_, ne, [], (append_nil _).symm, ⟨hshape, rfl⟩, [], (), [], rfl, ⟨rfl, hok⟩, rfl, rfl⟩

theorem crashes_readShape :
    Crashes readShape fun bs =>
      ∃ nDims ne rest, bs = shapeBytes nDims ne ++ rest ∧ IsShape nDims ne ∧ DividesByZero ne := by
  refine (Harmless.bind (Reads.number 4) (Harmless.number 4) fun nDims =>
    Crashes.iteOf (ggmlMaxDims < nDims) (fun _ => Harmless.fail) fun hle =>
      Harmless.bind (reads_readDims (Nat.le_of_not_lt hle)) (harmless_readDims nDims) fun ne =>
        Crashes.bind (reads_checkNelements ne) (crashes_checkNelements ne) fun _ => Harmless.pure ne).congr ?_
  intro bs
  constructor
  · rintro ⟨b, nDims, r, rfl, ⟨-, rfl⟩, h⟩
    split_ifs at h
    obtain ⟨b1, ne, rest, rfl, ⟨hshape, rfl⟩, hzero | ⟨_, _, _, _, _, h⟩⟩ := h
    · exact ⟨nDims, ne, rest, by simp [shapeBytes], hshape, hzero⟩
    · exact h.elim
  · rintro ⟨nDims, ne, rest, rfl, hshape, hzero⟩
    refine ⟨_, nDims, _, append_assoc .., ⟨nDims_lt hshape, rfl⟩, ?_⟩
    rw [if_neg (Nat.not_lt.mpr hshape.nDims_le)]
    exact ⟨_, ne, rest, rfl, ⟨hshape, rfl⟩, .inl hzero⟩

section

variable {mem : Memory}

theorem any_name_iff {info : List GgufTensorInfo} {name : TensorName} :
    (info.any fun ti => decide (ti.t.name = name)) = true ↔ ¬∀ ti ∈ info, ti.t.name ≠ name := by
  simp

theorem reads_readName (info : List GgufTensorInfo) :
    Reads (readName mem info) fun b name => ∃ s, b = stringBytes s ∧ IsName mem info s ∧ name = ggmlSetName s := by
  refine (Reads.bind reads_readString.attempt fun s => Reads.ite (ggmlMaxName ≤ s.length) Reads.fail
    (Reads.ite ((info.any fun ti => decide (ti.t.name = ggmlSetName s)) = true) Reads.fail
      (Reads.pure (ggmlSetName s)))).congr ?_
  intro b name
  constructor
  · rintro ⟨b1, s, b2, rfl, ⟨rfl, hs⟩, h⟩
    split_ifs at h with hlen hany
    obtain ⟨rfl, rfl⟩ := h
    rw [any_name_iff, not_not] at hany
    exact ⟨s, append_nil _, ⟨hs, Nat.lt_of_not_le hlen, hany⟩, rfl⟩
  · rintro ⟨s, rfl, hs, rfl⟩
    refine ⟨stringBytes s, s, [], (append_nil _).symm, ⟨rfl, hs.mem_name⟩, ?_⟩
    rw [if_neg (Nat.not_le.mpr hs.lt), if_neg (by rw [any_name_iff, not_not]; exact hs.fresh)]
    exact ⟨rfl, rfl⟩

theorem harmless_readName (info : List GgufTensorInfo) : Harmless (readName mem info) := by
  refine (Harmless.bind reads_readString.attempt (Harmless.attempt _) fun s =>
    Crashes.ite (ggmlMaxName ≤ s.length) Harmless.fail
      (Crashes.ite ((info.any fun ti => decide (ti.t.name = ggmlSetName s)) = true) Harmless.fail
        (Harmless.pure (ggmlSetName s)))).congr fun bs => ?_
  simp

/-- **The reader accepts the tensor descriptions of the format.** -/
theorem reads_readInfo (info : List GgufTensorInfo) : Reads (readInfo mem info) (InfoRecord mem info) := by
  refine (Reads.bind (reads_readName info) fun name => Reads.bind reads_readShape fun ne =>
    Reads.bind (Reads.number 4) fun code => Reads.bind (Reads.ofOption (GgmlType.ofCode code)) fun type =>
      Reads.ite (ne.d0 % ggmlBlckSize type ≠ 0) Reads.fail
        (Reads.bind (Reads.number 8) fun offset =>
          Reads.pure (info ++ [⟨⟨name, type, ne, strides type ne, none⟩, offset⟩]))).congr ?_
  intro b info'
  constructor
  · rintro ⟨b1, name, b2, rfl, ⟨s, rfl, hs, rfl⟩, b3, ne, b4, rfl, ⟨nDims, rfl, hshape, hok⟩, b5, code, b6, rfl,
      ⟨-, rfl⟩, b7, type, b8, rfl, ⟨rfl, htype⟩, h⟩
    split_ifs at h with hblck
    obtain ⟨b9, offset, b10, rfl, ⟨hoff, rfl⟩, rfl, rfl⟩ := h
    obtain rfl := (GgmlType.ofCode_eq_some_iff).mp htype
    refine ⟨s, nDims, ne, type, offset, ?_, hs, hshape, hok, by simpa using hblck, hoff, rfl⟩
    simp
  · rintro ⟨s, nDims, ne, type, offset, rfl, hs, hshape, hok, hblck, hoff, rfl⟩
    refine ⟨_, _, _, rfl, ⟨s, rfl, hs, rfl⟩, _, ne, _, rfl, ⟨nDims, rfl, hshape, hok⟩, _, type.code, _, rfl,
      ⟨type.code_lt, rfl⟩, [], type, _, rfl, ⟨rfl, (GgmlType.ofCode_eq_some_iff).mpr rfl⟩, ?_⟩
    rw [if_neg (by simp [hblck])]
    exact ⟨_, offset, [], (append_nil _).symm, ⟨hoff, rfl⟩, rfl, rfl⟩

/-- **Reading a tensor description ends the process on the fatal ones.** -/
theorem crashes_readInfo (info : List GgufTensorInfo) : Crashes (readInfo mem info) (FatalInfo mem info) := by
  refine (Harmless.bind (reads_readName info) (harmless_readName info) fun name =>
    Crashes.bind reads_readShape crashes_readShape fun ne =>
      Harmless.bind (Reads.number 4) (Harmless.number 4) fun code =>
        Harmless.bind (Reads.ofOption (GgmlType.ofCode code)) (Harmless.ofOption _) fun type =>
          Crashes.ite (ne.d0 % ggmlBlckSize type ≠ 0) Harmless.fail
            (Harmless.bind (Reads.number 8) (Harmless.number 8) fun offset =>
              Harmless.pure (info ++ [(⟨⟨name, type, ne, strides type ne, none⟩, offset⟩ : GgufTensorInfo)]))).congr ?_
  intro bs
  constructor
  · rintro ⟨b, name, r, rfl, ⟨s, rfl, hs, rfl⟩, ⟨nDims, ne, rest, rfl, hshape, hzero⟩ | h⟩
    · exact ⟨s, nDims, ne, rest, rfl, hs, hshape, hzero⟩
    · simp at h
  · rintro ⟨s, nDims, ne, rest, rfl, hs, hshape, hzero⟩
    exact ⟨_, _, _, rfl, ⟨s, rfl, hs, rfl⟩, .inl ⟨nDims, ne, rest, rfl, hshape, hzero⟩⟩

end

/-! ### The metadata -/

def headerBytes (version nTensors nKv : ℕ) : List UInt8 :=
  ggufMagic ++ (leBytes 4 version ++ (leBytes 8 nTensors ++ leBytes 8 nKv))

/-- The headers that are accepted. -/
structure IsHeader (version nTensors nKv : ℕ) : Prop where
  version_eq : version = 2 ∨ version = 3
  nTensors_le : nTensors ≤ sizeMax / sizeofGgufTensorInfo
  nKv_le : nKv ≤ sizeMax / sizeofGgufKv

/-- **The metadata of a file**: the header, the pairs and the tensor descriptions. -/
def MetaBytes (mem : Memory) (b : List UInt8) (ctx : GgufContext) : Prop :=
  ∃ bk bi, b = headerBytes ctx.version ctx.info.length ctx.kv.length ++ (bk ++ bi) ∧
    IsHeader ctx.version ctx.info.length ctx.kv.length ∧ Records (KvRecord mem) ctx.kv.length [] bk ctx.kv ∧
    alignmentOf ctx.kv = .ok ctx.alignment ∧ ctx.alignment.isPowerOfTwo ∧
    Records (InfoRecord mem) ctx.info.length [] bi ctx.info ∧ ctx.offset = 0 ∧ ctx.size = 0 ∧ ctx.data = none

theorem reads_readHeader :
    Reads readHeader fun b h => b = headerBytes h.1 h.2.1 h.2.2 ∧ IsHeader h.1 h.2.1 h.2.2 := by
  refine (Reads.bind (Reads.take 4) fun magic => Reads.ite (magic ≠ ggufMagic) Reads.fail
    (Reads.bind (Reads.number 4) fun version =>
      Reads.ite (version = 0 ∨ version % 2 ^ 16 = 0 ∨ version = 1 ∨ ggufVersion < version) Reads.fail
        (Reads.bind (Reads.number 8) fun nTensors =>
          Reads.ite (sizeMax / sizeofGgufTensorInfo < nTensors) Reads.fail
            (Reads.bind (Reads.number 8) fun nKv =>
              Reads.ite (sizeMax / sizeofGgufKv < nKv) Reads.fail (Reads.pure (version, nTensors, nKv)))))).congr ?_
  intro b h
  have hversion : ggufVersion = 3 := rfl
  constructor
  · rintro ⟨b1, magic, b2, rfl, ⟨-, rfl⟩, h⟩
    split_ifs at h with hmagic
    obtain ⟨b3, version, b4, rfl, ⟨-, rfl⟩, h⟩ := h
    split_ifs at h with hv
    obtain ⟨b5, nTensors, b6, rfl, ⟨-, rfl⟩, h⟩ := h
    split_ifs at h with ht
    obtain ⟨b7, nKv, b8, rfl, ⟨-, rfl⟩, h⟩ := h
    split_ifs at h with hk
    obtain ⟨rfl, rfl⟩ := h
    rw [not_not.mp hmagic]
    refine ⟨by simp [headerBytes], ?_, Nat.le_of_not_lt ht, Nat.le_of_not_lt hk⟩
    show version = 2 ∨ version = 3
    omega
  · obtain ⟨version, nTensors, nKv⟩ := h
    rintro ⟨rfl, hver, ht, hk⟩
    dsimp only at hver ht hk
    have htlt : nTensors < 2 ^ 64 := lt_of_le_of_lt ht (by decide)
    have hklt : nKv < 2 ^ 64 := lt_of_le_of_lt hk (by decide)
    refine ⟨_, ggufMagic, _, rfl, ⟨rfl, rfl⟩, ?_⟩
    rw [if_neg (by simp)]
    refine ⟨_, version, _, rfl, ⟨by omega, rfl⟩, ?_⟩
    rw [if_neg (by omega)]
    refine ⟨_, nTensors, _, rfl, ⟨htlt, rfl⟩, ?_⟩
    rw [if_neg (Nat.not_lt.mpr ht)]
    refine ⟨_, nKv, [], (append_nil _).symm, ⟨hklt, rfl⟩, ?_⟩
    rw [if_neg (Nat.not_lt.mpr hk)]
    exact ⟨rfl, rfl⟩

theorem harmless_readHeader : Harmless readHeader := by
  refine (Harmless.bind (Reads.take 4) (Harmless.take 4) fun magic => Crashes.ite (magic ≠ ggufMagic) Harmless.fail
    (Harmless.bind (Reads.number 4) (Harmless.number 4) fun version =>
      Crashes.ite (version = 0 ∨ version % 2 ^ 16 = 0 ∨ version = 1 ∨ ggufVersion < version) Harmless.fail
        (Harmless.bind (Reads.number 8) (Harmless.number 8) fun nTensors =>
          Crashes.ite (sizeMax / sizeofGgufTensorInfo < nTensors) Harmless.fail
            (Harmless.bind (Reads.number 8) (Harmless.number 8) fun nKv =>
              Crashes.ite (sizeMax / sizeofGgufKv < nKv) Harmless.fail
                (Harmless.pure (version, nTensors, nKv)))))).congr fun bs => ?_
  simp

theorem not_isPowerOfTwo_iff {a : ℕ} : (a = 0 ∨ a &&& (a - 1) ≠ 0) ↔ ¬a.isPowerOfTwo := by
  rw [← Nat.ne_zero_and_sub_one_eq_zero_iff_isPowerOfTwo]
  tauto

theorem reads_readAlignment (kv : List GgufKv) :
    Reads (readAlignment kv) fun b a => b = [] ∧ alignmentOf kv = .ok a ∧ a.isPowerOfTwo := by
  refine (Reads.bind (reads_liftExcept (alignmentOf kv)) fun a =>
    Reads.ite (a = 0 ∨ a &&& (a - 1) ≠ 0) Reads.fail (Reads.pure a)).congr ?_
  intro b a
  constructor
  · rintro ⟨b1, a', b2, rfl, ⟨rfl, halign⟩, h⟩
    split_ifs at h with hpow
    obtain ⟨rfl, rfl⟩ := h
    rw [not_isPowerOfTwo_iff, not_not] at hpow
    exact ⟨rfl, halign, hpow⟩
  · rintro ⟨rfl, halign, hpow⟩
    refine ⟨[], a, [], rfl, ⟨rfl, halign⟩, ?_⟩
    rw [if_neg (by rw [not_isPowerOfTwo_iff, not_not]; exact hpow)]
    exact ⟨rfl, rfl⟩

theorem crashes_readAlignment (kv : List GgufKv) :
    Crashes (readAlignment kv) fun _ => ∃ f, alignmentOf kv = .error f := by
  refine (Crashes.bind (reads_liftExcept (alignmentOf kv)) (crashes_liftExcept _) fun a =>
    Crashes.ite (a = 0 ∨ a &&& (a - 1) ≠ 0) Harmless.fail (Harmless.pure a)).congr fun bs => ?_
  simp

section

variable {mem : Memory}

theorem kvRecord_length {kv kv' : List GgufKv} {b : List UInt8} (h : KvRecord mem kv b kv') :
    kv'.length = kv.length + 1 := by
  obtain ⟨e, n, v, -, -, -, -, -, rfl⟩ := h
  simp

theorem infoRecord_length {info info' : List GgufTensorInfo} {b : List UInt8} (h : InfoRecord mem info b info') :
    info'.length = info.length + 1 := by
  obtain ⟨name, nDims, ne, type, offset, -, -, -, -, -, -, rfl⟩ := h
  simp

theorem kvRecords_length {n : ℕ} {kv : List GgufKv} {b : List UInt8} (h : Records (KvRecord mem) n [] b kv) :
    kv.length = n := by
  simpa using h.count List.length fun _ _ _ => kvRecord_length

theorem infoRecords_length {n : ℕ} {info : List GgufTensorInfo} {b : List UInt8}
    (h : Records (InfoRecord mem) n [] b info) : info.length = n := by
  simpa using h.count List.length fun _ _ _ => infoRecord_length

theorem ggmlAssert_eq_ok {b : Bool} {u : Unit} : ggmlAssert b = .ok u ↔ b = true := by
  cases b <;> simp [ggmlAssert]

theorem ggmlAssert_eq_error {b : Bool} : (∃ f, ggmlAssert b = .error f) ↔ b = false := by
  cases b <;> simp [ggmlAssert]

theorem reads_readMeta : Reads (readMeta mem) (MetaBytes mem) := by
  refine (Reads.bind reads_readHeader fun h => Reads.bind (Reads.repeatN reads_readKv h.2.2 []) fun kv =>
    Reads.bind (reads_liftExcept _) fun _ => Reads.bind (reads_readAlignment kv) fun alignment =>
      Reads.bind (Reads.repeatN reads_readInfo h.2.1 []) fun info => Reads.bind (reads_liftExcept _) fun _ =>
        Reads.pure (⟨h.1, kv, info, alignment, 0, 0, none⟩ : GgufContext)).congr ?_
  intro b ctx
  constructor
  · rintro ⟨b1, ⟨version, nTensors, nKv⟩, b2, rfl, ⟨rfl, hheader⟩, bk, kv, b4, rfl, hkv, b5, -, b6, rfl, ⟨rfl, -⟩, b7,
      alignment, b8, rfl, ⟨rfl, halign, hpow⟩, bi, info, b10, rfl, hinfo, b11, -, b12, rfl, ⟨rfl, -⟩, rfl, rfl⟩
    obtain rfl := kvRecords_length hkv
    obtain rfl := infoRecords_length hinfo
    exact ⟨bk, bi, by simp, hheader, hkv, halign, hpow, hinfo, rfl, rfl, rfl⟩
  · obtain ⟨version, kv, info, alignment, offset, size, data⟩ := ctx
    rintro ⟨bk, bi, rfl, hheader, hkv, halign, hpow, hinfo, rfl, rfl, rfl⟩
    exact ⟨_, (version, info.length, kv.length), _, rfl, ⟨rfl, hheader⟩, bk, kv, bi, rfl, hkv, [], (), bi, rfl,
      ⟨rfl, (ggmlAssert_eq_ok).mpr (by simp)⟩, [], alignment, bi, rfl, ⟨rfl, halign, hpow⟩, bi, info, [],
      (append_nil _).symm, hinfo, [], (), [], rfl, ⟨rfl, (ggmlAssert_eq_ok).mpr (by simp)⟩, rfl, rfl⟩

end

end Gguf
