import TextRevision.Fault
import TextRevision.Word

/-!
# Operations held to words

An operation has a result, or refuses with a fault, or nothing comes of it: it breaks off where a
number leaves its word, or it never ends.

## Main definitions

- `Checked`: what comes of an operation
-/

namespace TextRevision

/-- What comes of an operation that is held to words. -/
inductive Checked (α : Type) where
  | done (result : α)
  | refused (fault : Fault)
  /-- Nothing, because a number leaves its word or the operation never ends. -/
  | nothing
  deriving DecidableEq, Repr

namespace Checked

variable {α β : Type}

/-- An operation behind another; what refuses or comes to nothing is not gone on with. -/
def bind : Checked α → (α → Checked β) → Checked β
  | done x, f => f x
  | refused fault, _ => refused fault
  | nothing, _ => nothing

instance : Monad Checked where
  pure := done
  bind := bind

/-- What comes of an operation with numbers alone, which refuses nothing. -/
def ofOption : Option α → Checked α
  | some x => done x
  | none => nothing

/-- What comes of an operation that leaves no word. -/
def ofExcept : Except Fault α → Checked α
  | .ok x => done x
  | .error fault => refused fault

instance : MonadLift Option Checked where
  monadLift := ofOption

instance : MonadLift (Except Fault) Checked where
  monadLift := ofExcept

@[simp] theorem done_bind (x : α) (f : α → Checked β) : (done x >>= f) = f x := rfl

@[simp] theorem refused_bind (fault : Fault) (f : α → Checked β) :
    (refused fault >>= f) = refused fault := rfl

@[simp] theorem ofOption_some (x : α) : ofOption (some x) = done x := rfl

@[simp] theorem lift_some (x : α) : (liftM (some x) : Checked α) = done x := rfl

@[simp] theorem lift_ok (x : α) : (liftM (Except.ok x : Except Fault α) : Checked α) = done x := rfl

@[simp] theorem lift_error (fault : Fault) :
    (liftM (Except.error fault : Except Fault α) : Checked α) = refused fault := rfl

@[simp] theorem ofExcept_ok (x : α) : ofExcept (.ok x) = done x := rfl

@[simp] theorem ofExcept_error (fault : Fault) :
    (ofExcept (.error fault) : Checked α) = refused fault := rfl

end Checked

end TextRevision
