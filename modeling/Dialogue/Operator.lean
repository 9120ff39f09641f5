/-!
# Operators

What a script may write for an assignment or a comparison, and what a flowchart
calls it.
-/

namespace Dialogue

inductive SetOperator
  | assign
  | add
  | subtract
  | divide
  | multiply
  deriving DecidableEq, Repr

namespace SetOperator

def ofToken? : String → Option SetOperator
  | "EqualToOrAssign" => some .assign
  | "AddAssign" => some .add
  | "MinusAssign" => some .subtract
  | "DivideAssign" => some .divide
  | "MultiplyAssign" => some .multiply
  | _ => none

def name : SetOperator → String
  | .assign => "Assign"
  | .add => "Add"
  | .subtract => "Subtract"
  | .divide => "Divide"
  | .multiply => "Multiply"

end SetOperator

inductive CompareOperator
  | lessThan
  | lessThanOrEquals
  | greaterThan
  | greaterThanOrEquals
  | equals
  | notEquals
  deriving DecidableEq, Repr

namespace CompareOperator

def ofFunction? : String → Option CompareOperator
  | "LessThan" => some .lessThan
  | "LessThanOrEqualTo" => some .lessThanOrEquals
  | "GreaterThan" => some .greaterThan
  | "GreaterThanOrEqualTo" => some .greaterThanOrEquals
  | "EqualTo" => some .equals
  | "NotEqualTo" => some .notEquals
  | _ => none

def name : CompareOperator → String
  | .lessThan => "LessThan"
  | .lessThanOrEquals => "LessThanOrEquals"
  | .greaterThan => "GreaterThan"
  | .greaterThanOrEquals => "GreaterThanOrEquals"
  | .equals => "Equals"
  | .notEquals => "NotEquals"

end CompareOperator

end Dialogue
