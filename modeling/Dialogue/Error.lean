import Dialogue.Literal

/-!
# Errors of a compilation

A fatal error ends the compilation; any other is the end of one statement only.
-/

namespace Dialogue

inductive DirectiveFault
  | missingDuration
  | badDuration (word : String)
  deriving DecidableEq, Repr

def DirectiveFault.message : DirectiveFault → String
  | .missingDuration => "missing duration"
  | .badDuration word => "`" ++ word ++ "` is not a whole number of seconds"

inductive CompileError
  | unknownOperator (token : String)
  /-- An operand that is no literal. -/
  | unknownValueKind (kind : String)
  | kindMismatch (name : String) (declared found : Kind)
  | unknownComparison (function : String)
  | missingEntry (name : String)
  | malformedDirective (raw : String) (fault : DirectiveFault)
  deriving DecidableEq, Repr

namespace CompileError

def isFatal : CompileError → Bool
  | .missingEntry _ | .malformedDirective _ _ => true
  | _ => false

def message : CompileError → String
  | .unknownOperator token => "unknown operator: " ++ token
  | .unknownValueKind kind => "unknown value kind: " ++ kind
  | .kindMismatch name declared found =>
    "variable `" ++ name ++ "` is " ++ declared.name ++ ", got a " ++ found.name ++ " value"
  | .unknownComparison function => "unknown comparison function: " ++ function
  | .missingEntry name => "missing entry node `" ++ name ++ "`"
  | .malformedDirective raw fault => "malformed directive `" ++ raw ++ "`: " ++ fault.message

end CompileError

/-- An error that cost a node one of its statements. -/
structure Diagnostic where
  node : String
  message : String
  deriving DecidableEq, Repr

end Dialogue
