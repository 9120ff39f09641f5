/-!
# Readers of JSON text

A reader takes a value off the front of a text. What it leaves is a suffix of
what it was given, and the loops below end because of it.

A text fails at its first fault. Whoever reads into a shape of their own checks
that shape as they go, so a wrong shape can come before a later misspelling.
-/

namespace Dialogue.Json

inductive Fault
  /-- The text is no JSON. -/
  | malformed
  /-- The text ends too early. -/
  | truncated
  /-- The text is JSON of another shape. -/
  | misshapen
  deriving DecidableEq, Repr

structure Reader (α : Type) where
  run : List Char → Except Fault (α × List Char)
  suffix : ∀ {text a rest}, run text = .ok (a, rest) → rest <:+ text

namespace Reader

variable {α β : Type}

protected def pure (a : α) : Reader α where
  run text := .ok (a, text)
  suffix h := by cases h; exact List.suffix_rfl

protected def bind (x : Reader α) (f : α → Reader β) : Reader β where
  run text :=
    match x.run text with
    | .ok (a, rest) => (f a).run rest
    | .error fault => .error fault
  suffix h := by
    split at h
    · next hx => exact ((f _).suffix h).trans (x.suffix hx)
    · cases h

instance : Monad Reader where
  pure := Reader.pure
  bind := Reader.bind

@[simp] theorem run_pure (a : α) (text : List Char) : (pure a : Reader α).run text = .ok (a, text) :=
  rfl

@[simp] theorem run_bind (x : Reader α) (f : α → Reader β) (text : List Char) :
    (x >>= f).run text =
      match x.run text with
      | .ok (a, rest) => (f a).run rest
      | .error fault => .error fault :=
  rfl

def fail (fault : Fault) : Reader α where
  run _ := .error fault
  suffix h := by cases h

@[simp] theorem run_fail (fault : Fault) (text : List Char) :
    (fail fault : Reader α).run text = .error fault :=
  rfl

def next : Reader Char where
  run
    | [] => .error .truncated
    | c :: rest => .ok (c, rest)
  suffix {text _ _} h := by
    cases text with
    | nil => cases h
    | cons c rest => cases h; exact List.suffix_cons _ _

def advance : Reader Unit where
  run text := .ok ((), text.tail)
  suffix h := by cases h; exact List.tail_suffix _

@[simp] theorem run_advance (text : List Char) : advance.run text = .ok ((), text.tail) :=
  rfl

def look : Reader (Option Char) where
  run text := .ok (text.head?, text)
  suffix h := by cases h; exact List.suffix_rfl

def isSpace (c : Char) : Bool := c = ' ' || c = '\t' || c = '\n' || c = '\r'

def parse (x : Reader α) (text : String) : Except Fault α :=
  match x.run text.toList with
  | .error fault => .error fault
  | .ok (a, rest) => if rest.all isSpace then .ok a else .error .malformed

def space : Reader Unit where
  run text := .ok ((), text.dropWhile isSpace)
  suffix h := by cases h; exact List.dropWhile_suffix _

/-- The character after white space, left where it is. -/
def peek : Reader Char := do
  space
  match ← look with
  | some c => pure c
  | none => fail .truncated

def size : Reader Nat where
  run text := .ok (text.length, text)
  suffix h := by cases h; exact List.suffix_rfl

/-- Builds a reader only when it is run. -/
def delay (x : Unit → Reader α) : Reader α where
  run text := (x ()).run text
  suffix h := (x ()).suffix h

/-- The rest of a word of which the first letter decided what it is. -/
def word : List Char → Reader Unit
  | [] => pure ()
  | expected :: rest => do
    if (← next) = expected then word rest else fail .malformed

def colon : Reader Unit := do
  if (← peek) = ':' then advance else fail .malformed

end Reader

end Dialogue.Json
