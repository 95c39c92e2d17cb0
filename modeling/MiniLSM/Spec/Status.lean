/-!
# Statuses and checked reads

`Status` is a code and a message. A function that walks a buffer by raw pointers also has
the outcome `outOfBounds`: it read past the bytes it was given, or did something else that C++
leaves undefined. And one that makes a string of a length it has read has `lengthError`.
-/

namespace MiniLSM

/-- `Status::Code`. -/
inductive Code
  | ok | notFound | ioError | corruption | notSupported
  deriving DecidableEq, Repr

/-- `Status`. -/
structure Status where
  code : Code
  msg : String
  deriving DecidableEq, Repr

namespace Status

/-- `Status::OK`. -/
def OK : Status := ⟨.ok, ""⟩

/-- `Status::NotFound`. -/
def notFound (msg : String) : Status := ⟨.notFound, msg⟩

/-- `Status::IOError`. -/
def ioError (msg : String) : Status := ⟨.ioError, msg⟩

/-- `Status::Corruption`. -/
def corruption (msg : String) : Status := ⟨.corruption, msg⟩

/-- `Status::ok`. -/
def isOk (s : Status) : Bool := s.code = .ok

/-- `Status::IsNotFound`. -/
def isNotFound (s : Status) : Bool := s.code = .notFound

end Status

/-- Why a checked function did not return a value. -/
inductive Fault
  | status (s : Status)
  | outOfBounds
  /-- `std::length_error`, which nothing catches. -/
  | lengthError
  deriving DecidableEq, Repr

/-- The outcome of a function that reads through raw pointers. -/
abbrev Checked := Except Fault

/-- An access that C++ leaves undefined when it finds nothing. -/
def Checked.ofOption {α : Type} : Option α → Checked α
  | some a => .ok a
  | none => .error .outOfBounds

@[simp] theorem Checked.ofOption_some {α : Type} (a : α) : ofOption (some a) = .ok a := rfl

theorem Checked.bind_eq_ok {α β : Type} {x : Checked α} {f : α → Checked β} {b : β}
    (h : x >>= f = .ok b) : ∃ a, x = .ok a ∧ f a = .ok b := by
  cases x with
  | error e => cases h
  | ok a => exact ⟨a, rfl, h⟩

theorem Checked.throw_bind {α β : Type} (e : Fault) (f : α → Checked β) :
    (throw e : Checked α) >>= f = throw e := rfl

end MiniLSM
