import Mathlib.Data.List.Basic

/-!
Computations that read bytes of a memory at offsets, one after the other. Such a
computation has a value and a list of offsets it reads, on each memory.
-/
namespace Userworks

inductive Reads (α : Type) where
  | done (a : α)
  | read (offset : Nat) (next : UInt8 → Reads α)

namespace Reads

variable {α β : Type}

def bind : Reads α → (α → Reads β) → Reads β
  | done a, f => f a
  | read offset next, f => read offset fun b => (next b).bind f

instance : Monad Reads where
  pure := done
  bind := bind

def byte (offset : Nat) : Reads UInt8 := read offset done

def value (raw : Nat → UInt8) : Reads α → α
  | done a => a
  | read offset next => (next (raw offset)).value raw

/-- The offsets that are read, in order. -/
def offsets (raw : Nat → UInt8) : Reads α → List Nat
  | done _ => []
  | read offset next => offset :: (next (raw offset)).offsets raw

variable (raw : Nat → UInt8)

@[simp] theorem value_pure (a : α) : (pure a : Reads α).value raw = a := rfl

@[simp] theorem offsets_pure (a : α) : (pure a : Reads α).offsets raw = [] := rfl

@[simp] theorem value_byte (offset : Nat) : (byte offset).value raw = raw offset := rfl

@[simp] theorem offsets_byte (offset : Nat) : (byte offset).offsets raw = [offset] := rfl

@[simp] theorem value_bind (m : Reads α) (f : α → Reads β) :
    (m >>= f).value raw = (f (m.value raw)).value raw := by
  induction m with
  | done a => rfl
  | read offset next ih => exact ih (raw offset)

@[simp] theorem offsets_bind (m : Reads α) (f : α → Reads β) :
    (m >>= f).offsets raw = m.offsets raw ++ (f (m.value raw)).offsets raw := by
  induction m with
  | done a => rfl
  | read offset next ih => exact congrArg (offset :: ·) (ih (raw offset))

/-- A loop of readings has the value of the loop over their values. -/
theorem value_foldlM (f : β → α → Reads β) (b : β) (xs : List α) :
    (xs.foldlM f b).value raw = xs.foldl (fun b x => (f b x).value raw) b := by
  induction xs generalizing b with
  | nil => rfl
  | cons x xs ih => rw [List.foldlM_cons, value_bind, ih, List.foldl_cons]

end Reads
end Userworks
