import LlamaRafaelia.Lib.Bytes

/-!
# Scanners: how far a stream of bytes can be read

A reader of untrusted bytes stops in one of three ways: it gets to its end, it meets a value that it rejects,
or the stream ends too early.  A `Scanner` says which, from the bytes alone and without the state that the
reader changes on its way.  Comparing a reader with a scanner describes every cut point of the stream at once.
-/

/-- The outcome of a scan. -/
inductive Scan (α : Type) where
  /-- a value, and the bytes that follow -/
  | done (a : α) (rest : List UInt8)
  /-- a value was not accepted -/
  | rejected
  /-- the stream is too short -/
  | cut
  deriving DecidableEq, Repr

def Scanner (α : Type) : Type := List UInt8 → Scan α

namespace Scanner

variable {α β : Type}

instance : Monad Scanner where
  pure a := fun l => .done a l
  bind p q := fun l =>
    match p l with
    | .done a rest => q a rest
    | .rejected => .rejected
    | .cut => .cut

/-- The next `n` bytes. -/
def bytes (n : ℕ) : Scanner (List UInt8) := fun l => if l.length < n then .cut else .done (l.take n) (l.drop n)

/-- Reject unless `b` holds. -/
def require (b : Bool) : Scanner Unit := fun l => if b then .done () l else .rejected

theorem bind_apply (p : Scanner α) (q : α → Scanner β) (l : List UInt8) :
    (p >>= q) l = match p l with
      | .done a rest => q a rest
      | .rejected => .rejected
      | .cut => .cut := rfl

@[simp] theorem pure_apply (a : α) (l : List UInt8) : (pure a : Scanner α) l = .done a l := rfl

theorem forM_cons (f : α → Scanner Unit) (x : α) (l : List α) :
    (x :: l).forM f = f x >>= fun _ => l.forM f := rfl

end Scanner
