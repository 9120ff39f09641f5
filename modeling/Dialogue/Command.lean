import Dialogue.Literal
import Dialogue.Operator

/-!
# Commands

The instructions that a flowchart is made of. Blocks, commands and variables are
named by identifiers that whoever holds them has given out.
-/

namespace Dialogue

structure BlockId where
  index : UInt32
  deriving DecidableEq, Repr

structure CommandId where
  index : UInt32
  deriving DecidableEq, Repr

structure VariableId where
  index : UInt32
  deriving DecidableEq, Repr

structure Condition where
  operator : CompareOperator
  subject : VariableId
  value : Literal
  deriving DecidableEq, Repr

inductive Command
  | say (text : String)
  | menu (text : String) (target : BlockId)
  | call (target : BlockId)
  | set (operator : SetOperator) (subject : VariableId) (value : Literal)
  /-- Opens a conditional. -/
  | ifThen (condition : Condition)
  | elseIf (condition : Condition)
  | otherwise
  /-- Closes a conditional. -/
  | endIf
  | wait (seconds : Nat)
  deriving DecidableEq, Repr

end Dialogue
