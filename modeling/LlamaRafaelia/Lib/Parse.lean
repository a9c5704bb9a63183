import LlamaRafaelia.Lib.Bytes

/-!
# Readers of bytes that may give up, and may end the process

A reader takes bytes from the front of its input and ends with a value and the rest, by giving up, or by ending the
process.  What it accepts is described by a grammar, a relation between bytes and values.

* `Crashes p H` - `p` ends the process exactly on the inputs in `H`.
-/

/-! ### Computations without an input -/

theorem Except.bind_eq_ok_iff {ε α β : Type} {x : Except ε α} {f : α → Except ε β} {b : β} :
    (x >>= f) = .ok b ↔ ∃ a, x = .ok a ∧ f a = .ok b := by
  cases x with
  | ok a => simp [bind, Except.bind]
  | error e => simp [bind, Except.bind]

theorem Except.bind_eq_error_iff {ε α β : Type} {x : Except ε α} {f : α → Except ε β} :
    (∃ e, (x >>= f) = .error e) ↔ (∃ e, x = .error e) ∨ ∃ a, x = .ok a ∧ ∃ e, f a = .error e := by
  cases x with
  | ok a => simp [bind, Except.bind]
  | error e => simp [bind, Except.bind]

theorem Except.mapM_eq_ok {ε α β : Type} {f : α → Except ε β} {g : α → β} {l : List α}
    (h : ∀ x ∈ l, f x = .ok (g x)) : l.mapM f = .ok (l.map g) := by
  induction l with
  | nil => rfl
  | cons x l ih =>
    have hx := h x (List.mem_cons_self ..)
    have hl := ih fun y hy => h y (List.mem_cons_of_mem _ hy)
    rw [List.mapM_cons, hx, hl]
    rfl

/-! ### Readers -/

/-- How a reader ends. -/
inductive ReadResult (ε α : Type) where
  /-- a value, and the input that is left -/
  | ok (a : α) (rest : List UInt8)
  /-- the reader gives up -/
  | fail
  /-- the process ends -/
  | crash (e : ε)

def ByteReader (ε α : Type) : Type := List UInt8 → ReadResult ε α

namespace ByteReader

open List

variable {ε α β σ : Type}

instance : Monad (ByteReader ε) where
  pure a := fun bs => .ok a bs
  bind p f := fun bs =>
    match p bs with
    | .ok a rest => f a rest
    | .fail => .fail
    | .crash e => .crash e

def fail : ByteReader ε α := fun _ => .fail

def crash (e : ε) : ByteReader ε α := fun _ => .crash e

def ofOption : Option α → ByteReader ε α
  | none => fail
  | some a => pure a

/-- The next `n` bytes. -/
def take (n : ℕ) : ByteReader ε (List UInt8) := fun bs =>
  if n ≤ bs.length then .ok (bs.take n) (bs.drop n) else .fail

/-- The next number of `n` bytes, the lowest byte first. -/
def number (n : ℕ) : ByteReader ε ℕ := do
  let b ← take n
  return leNat b

/-- `try` with a handler that gives up. -/
def attempt (p : ByteReader ε α) : ByteReader ε α := fun bs =>
  match p bs with
  | .crash _ => .fail
  | r => r

/-- A loop of `n` iterations. -/
def repeatN (f : σ → ByteReader ε σ) : ℕ → σ → ByteReader ε σ
  | 0, s => pure s
  | n + 1, s => do
    let s' ← f s
    repeatN f n s'

theorem pure_apply (a : α) (bs : List UInt8) : (pure a : ByteReader ε α) bs = .ok a bs := rfl

theorem bind_apply (p : ByteReader ε α) (f : α → ByteReader ε β) (bs : List UInt8) :
    (p >>= f) bs = match p bs with
      | .ok a rest => f a rest
      | .fail => .fail
      | .crash e => .crash e := rfl

theorem bind_eq_ok_iff {p : ByteReader ε α} {f : α → ByteReader ε β} {bs rest : List UInt8} {b : β} :
    (p >>= f) bs = .ok b rest ↔ ∃ a mid, p bs = .ok a mid ∧ f a mid = .ok b rest := by
  rw [bind_apply]
  cases h : p bs with
  | ok a mid => simp
  | fail => simp
  | crash e => simp

theorem bind_eq_crash_iff {p : ByteReader ε α} {f : α → ByteReader ε β} {bs : List UInt8} :
    (∃ e, (p >>= f) bs = .crash e) ↔
      (∃ e, p bs = .crash e) ∨ ∃ a mid, p bs = .ok a mid ∧ ∃ e, f a mid = .crash e := by
  rw [bind_apply]
  cases h : p bs with
  | ok a mid => simp
  | fail => simp
  | crash e => simp

theorem attempt_eq_ok_iff {p : ByteReader ε α} {bs rest : List UInt8} {a : α} :
    p.attempt bs = .ok a rest ↔ p bs = .ok a rest := by
  rw [attempt]
  cases p bs with
  | ok a mid => rfl
  | fail => rfl
  | crash e => simp

theorem attempt_ne_crash (p : ByteReader ε α) (bs : List UInt8) : ¬∃ e, p.attempt bs = .crash e := by
  rw [attempt]
  cases p bs with
  | ok a mid => simp
  | fail => simp
  | crash e => simp

/-! ### Grammars -/

/-- **What a reader accepts**: the bytes that the grammar `G` relates to the value, and no others. -/
def Reads (p : ByteReader ε α) (G : List UInt8 → α → Prop) : Prop :=
  ∀ bs a rest, p bs = .ok a rest ↔ ∃ b, bs = b ++ rest ∧ G b a

/-- **When a reader ends the process**: on the inputs in `H`. -/
def Crashes (p : ByteReader ε α) (H : List UInt8 → Prop) : Prop := ∀ bs, (∃ e, p bs = .crash e) ↔ H bs

def Harmless (p : ByteReader ε α) : Prop := Crashes p fun _ => False

section

variable {p : ByteReader ε α} {f : α → ByteReader ε β} {G : List UInt8 → α → Prop} {H : α → List UInt8 → β → Prop}
  {K : List UInt8 → Prop} {L : α → List UInt8 → Prop}

theorem Reads.apply (h : Reads p G) {b : List UInt8} {a : α} (hb : G b a) (rest : List UInt8) :
    p (b ++ rest) = .ok a rest :=
  (h _ _ _).mpr ⟨b, rfl, hb⟩

theorem Reads.congr (h : Reads p G) {G' : List UInt8 → α → Prop} (hG : ∀ b a, G b a ↔ G' b a) : Reads p G' := by
  obtain rfl : G = G' := funext fun b => funext fun a => propext (hG b a)
  exact h

theorem Crashes.congr (h : Crashes p K) {K' : List UInt8 → Prop} (hK : ∀ bs, K bs ↔ K' bs) : Crashes p K' := by
  obtain rfl : K = K' := funext fun bs => propext (hK bs)
  exact h

theorem Reads.pure (a : α) : Reads (pure a : ByteReader ε α) fun b x => b = [] ∧ x = a := by
  intro bs x rest
  rw [pure_apply, ReadResult.ok.injEq]
  constructor
  · rintro ⟨rfl, rfl⟩
    exact ⟨[], rfl, rfl, rfl⟩
  · rintro ⟨b, rfl, rfl, rfl⟩
    exact ⟨rfl, rfl⟩

theorem Harmless.pure (a : α) : Harmless (pure a : ByteReader ε α) := by
  intro bs
  simp [pure_apply]

theorem Reads.fail : Reads (fail : ByteReader ε α) fun _ _ => False := by
  intro bs a rest
  simp [ByteReader.fail]

theorem Harmless.fail : Harmless (fail : ByteReader ε α) := by
  intro bs
  simp [ByteReader.fail]

theorem Reads.crash (e : ε) : Reads (crash e : ByteReader ε α) fun _ _ => False := by
  intro bs a rest
  simp [ByteReader.crash]

theorem Crashes.crash (e : ε) : Crashes (crash e : ByteReader ε α) fun _ => True := by
  intro bs
  simp [ByteReader.crash]

theorem Reads.ofOption (o : Option α) : Reads (ofOption o : ByteReader ε α) fun b a => b = [] ∧ o = some a := by
  cases o with
  | none => exact Reads.fail.congr fun b a => by simp
  | some x => exact (Reads.pure x).congr fun b a => by rw [Option.some.injEq, @eq_comm _ a]

theorem Harmless.ofOption (o : Option α) : Harmless (ofOption o : ByteReader ε α) := by
  cases o with
  | none => exact Harmless.fail
  | some x => exact Harmless.pure x

theorem Reads.attempt (h : Reads p G) : Reads p.attempt G := by
  intro bs a rest
  rw [attempt_eq_ok_iff]
  exact h bs a rest

theorem Harmless.attempt (p : ByteReader ε α) : Harmless p.attempt := fun bs =>
  iff_false_intro (attempt_ne_crash p bs)

theorem Reads.bindOf (hp : Reads p G) (hf : ∀ b a, G b a → Reads (f a) (H a)) :
    Reads (p >>= f) fun b c => ∃ b1 a b2, b = b1 ++ b2 ∧ G b1 a ∧ H a b2 c := by
  intro bs c rest
  rw [bind_eq_ok_iff]
  constructor
  · rintro ⟨a, mid, hpa, hfa⟩
    obtain ⟨b1, rfl, h1⟩ := (hp _ _ _).mp hpa
    obtain ⟨b2, rfl, h2⟩ := (hf b1 a h1 _ _ _).mp hfa
    exact ⟨b1 ++ b2, (append_assoc ..).symm, b1, a, b2, rfl, h1, h2⟩
  · rintro ⟨b, rfl, b1, a, b2, rfl, h1, h2⟩
    refine ⟨a, b2 ++ rest, ?_, (hf b1 a h1).apply h2 rest⟩
    rw [append_assoc]
    exact hp.apply h1 _

theorem Reads.bind (hp : Reads p G) (hf : ∀ a, Reads (f a) (H a)) :
    Reads (p >>= f) fun b c => ∃ b1 a b2, b = b1 ++ b2 ∧ G b1 a ∧ H a b2 c :=
  hp.bindOf fun _ a _ => hf a

theorem Crashes.bindOf (hp : Reads p G) (hpc : Crashes p K) (hf : ∀ b a, G b a → Crashes (f a) (L a)) :
    Crashes (p >>= f) fun bs => K bs ∨ ∃ b a rest, bs = b ++ rest ∧ G b a ∧ L a rest := by
  intro bs
  rw [bind_eq_crash_iff, hpc bs]
  refine or_congr_right ?_
  constructor
  · rintro ⟨a, mid, hpa, hfa⟩
    obtain ⟨b, rfl, hb⟩ := (hp _ _ _).mp hpa
    exact ⟨b, a, mid, rfl, hb, (hf b a hb mid).mp hfa⟩
  · rintro ⟨b, a, mid, rfl, hb, hl⟩
    exact ⟨a, mid, hp.apply hb mid, (hf b a hb mid).mpr hl⟩

theorem Crashes.bind (hp : Reads p G) (hpc : Crashes p K) (hf : ∀ a, Crashes (f a) (L a)) :
    Crashes (p >>= f) fun bs => K bs ∨ ∃ b a rest, bs = b ++ rest ∧ G b a ∧ L a rest :=
  Crashes.bindOf hp hpc fun _ a _ => hf a

theorem Harmless.bindOf (hp : Reads p G) (hpc : Harmless p) (hf : ∀ b a, G b a → Crashes (f a) (L a)) :
    Crashes (p >>= f) fun bs => ∃ b a rest, bs = b ++ rest ∧ G b a ∧ L a rest :=
  (Crashes.bindOf hp hpc hf).congr fun _ => iff_of_eq (false_or _)

theorem Harmless.bind (hp : Reads p G) (hpc : Harmless p) (hf : ∀ a, Crashes (f a) (L a)) :
    Crashes (p >>= f) fun bs => ∃ b a rest, bs = b ++ rest ∧ G b a ∧ L a rest :=
  Harmless.bindOf hp hpc fun _ a _ => hf a

theorem Reads.iteOf (c : Prop) [Decidable c] {q : ByteReader ε α} {G' : List UInt8 → α → Prop}
    (hp : c → Reads p G) (hq : ¬c → Reads q G') : Reads (if c then p else q) fun b a => if c then G b a else G' b a := by
  split
  · exact hp ‹c›
  · exact hq ‹¬c›

theorem Crashes.iteOf (c : Prop) [Decidable c] {q : ByteReader ε α} {K' : List UInt8 → Prop}
    (hp : c → Crashes p K) (hq : ¬c → Crashes q K') : Crashes (if c then p else q) fun bs => if c then K bs else K' bs := by
  split
  · exact hp ‹c›
  · exact hq ‹¬c›

theorem Reads.ite (c : Prop) [Decidable c] {q : ByteReader ε α} {G' : List UInt8 → α → Prop} (hp : Reads p G)
    (hq : Reads q G') : Reads (if c then p else q) fun b a => if c then G b a else G' b a :=
  Reads.iteOf c (fun _ => hp) fun _ => hq

theorem Crashes.ite (c : Prop) [Decidable c] {q : ByteReader ε α} {K' : List UInt8 → Prop} (hp : Crashes p K)
    (hq : Crashes q K') : Crashes (if c then p else q) fun bs => if c then K bs else K' bs :=
  Crashes.iteOf c (fun _ => hp) fun _ => hq

end

/-! ### Bytes and numbers -/

theorem Reads.take (n : ℕ) : Reads (take n : ByteReader ε (List UInt8)) fun b a => b.length = n ∧ a = b := by
  intro bs a rest
  rw [ByteReader.take]
  constructor
  · intro h
    split at h
    · rename_i hn
      rw [ReadResult.ok.injEq] at h
      obtain ⟨rfl, rfl⟩ := h
      exact ⟨bs.take n, (take_append_drop n bs).symm, length_take_of_le hn, rfl⟩
    · cases h
  · rintro ⟨b, rfl, rfl, rfl⟩
    rw [if_pos (by simp), take_left, drop_left]

theorem Harmless.take (n : ℕ) : Harmless (take n : ByteReader ε (List UInt8)) := by
  intro bs
  rw [ByteReader.take]
  split <;> simp

theorem Reads.number (n : ℕ) : Reads (number n : ByteReader ε ℕ) fun b x => x < 256 ^ n ∧ b = leBytes n x := by
  refine (Reads.bind (Reads.take n) fun b => Reads.pure (leNat b)).congr ?_
  intro b x
  constructor
  · rintro ⟨b1, a, b2, rfl, ⟨hlen, rfl⟩, rfl, rfl⟩
    refine ⟨hlen ▸ leNat_lt a, ?_⟩
    rw [append_nil, ← hlen, leBytes_leNat]
  · rintro ⟨hx, rfl⟩
    exact ⟨leBytes n x, leBytes n x, [], (append_nil _).symm, ⟨leBytes_length n x, rfl⟩, rfl,
      (leNat_leBytes_of_lt hx).symm⟩

theorem Harmless.number (n : ℕ) : Harmless (number n : ByteReader ε ℕ) := by
  refine (Harmless.bind (Reads.take n) (Harmless.take n) fun b => Harmless.pure (leNat b)).congr ?_
  simp

/-! ### Loops -/

/-- `n` records one after the other, from the state `s` to the state `s'`. -/
inductive Records (G : σ → List UInt8 → σ → Prop) : ℕ → σ → List UInt8 → σ → Prop
  | zero (s : σ) : Records G 0 s [] s
  | succ {n : ℕ} {s t s' : σ} {b bs : List UInt8} (h : G s b t) (rest : Records G n t bs s') :
      Records G (n + 1) s (b ++ bs) s'

variable {f : σ → ByteReader ε σ} {G : σ → List UInt8 → σ → Prop} {L : σ → List UInt8 → Prop}

theorem Records.invariant (I : σ → Prop) {n : ℕ} {s s' : σ} {b : List UInt8} (h : Records G n s b s')
    (hI : ∀ s b t, I s → G s b t → I t) (hs : I s) : I s' := by
  induction h with
  | zero s => exact hs
  | succ hb _ ih => exact ih (hI _ _ _ hs hb)

theorem Records.count (μ : σ → ℕ) {n : ℕ} {s s' : σ} {b : List UInt8} (h : Records G n s b s')
    (hμ : ∀ s b t, G s b t → μ t = μ s + 1) : μ s' = μ s + n := by
  induction h with
  | zero s => rfl
  | succ hb _ ih => rw [ih, hμ _ _ _ hb]; omega

theorem Records.ofList {α β : Type} {G : List β → List UInt8 → List β → Prop} {enc : α → List UInt8} {g : α → β}
    {l : List α} {s : List β}
    (h : ∀ pre x post, l = pre ++ x :: post → G (s ++ pre.map g) (enc x) (s ++ pre.map g ++ [g x])) :
    Records G l.length s (l.flatMap enc) (s ++ l.map g) := by
  induction l generalizing s with
  | nil => simpa using Records.zero s
  | cons x l ih =>
    have hx := h [] x l rfl
    rw [map_nil, append_nil] at hx
    have hrest := @ih (s ++ [g x]) fun pre y post hl => by
      have hy := h (x :: pre) y post (by rw [hl, cons_append])
      rw [map_cons] at hy
      simpa using hy
    rw [append_assoc, singleton_append] at hrest
    exact .succ hx hrest

theorem Reads.repeatN (hf : ∀ s, Reads (f s) fun b t => G s b t) (n : ℕ) (s : σ) :
    Reads (repeatN f n s) fun b s' => Records G n s b s' := by
  induction n generalizing s with
  | zero =>
    refine (Reads.pure s).congr fun b s' => ?_
    constructor
    · rintro ⟨rfl, rfl⟩
      exact .zero _
    · rintro ⟨_⟩
      exact ⟨rfl, rfl⟩
  | succ n ih =>
    refine (Reads.bind (hf s) ih).congr fun b s' => ?_
    constructor
    · rintro ⟨b1, t, b2, rfl, h1, h2⟩
      exact .succ h1 h2
    · intro h
      cases h with
      | succ h1 h2 => exact ⟨_, _, _, rfl, h1, h2⟩

theorem Crashes.repeatN (hf : ∀ s, Reads (f s) fun b t => G s b t) (hc : ∀ s, Crashes (f s) (L s)) (n : ℕ) (s : σ) :
    Crashes (repeatN f n s) fun bs =>
      ∃ i < n, ∃ b t rest, bs = b ++ rest ∧ Records G i s b t ∧ L t rest := by
  induction n generalizing s with
  | zero =>
    refine (Harmless.pure s).congr fun bs => ?_
    simp
  | succ n ih =>
    refine (Crashes.bind (hf s) (hc s) ih).congr fun bs => ?_
    constructor
    · rintro (hl | ⟨b, t, rest, rfl, hb, i, hi, b', t', rest', rfl, hr, hl⟩)
      · exact ⟨0, by omega, [], s, bs, rfl, .zero s, hl⟩
      · exact ⟨i + 1, by omega, b ++ b', t', rest', (append_assoc ..).symm, .succ hb hr, hl⟩
    · rintro ⟨i, hi, b, t, rest, rfl, hr, hl⟩
      cases hr with
      | zero => exact .inl hl
      | succ hb hr =>
        exact .inr ⟨_, _, _, append_assoc .., hb, _, Nat.lt_of_succ_lt_succ hi, _, _, _, rfl, hr, hl⟩

end ByteReader
