import Dialogue.Proofs.Keyed
import Dialogue.Proofs.Phrases

/-!
# The operands of a script

What a script assigns to its variables and compares them with, by the names of
the variables.
-/

namespace Dialogue

namespace Operands

def condition : Option Comparison → List (String × Operand)
  | some comparison => [(comparison.name, comparison.value)]
  | none => []

mutual

def statement : Statement → List (String × Operand)
  | .choices options => choices options
  | .branch branches => clauses branches
  | .assign _ name value => [(name, value)]
  | _ => []

def statements : List Statement → List (String × Operand)
  | [] => []
  | first :: rest => statement first ++ statements rest

def choices : List Choice → List (String × Operand)
  | [] => []
  | .mk _ body :: rest => statements body ++ choices rest

def clauses : List Clause → List (String × Operand)
  | [] => []
  | .mk guard body :: rest => condition guard ++ statements body ++ clauses rest

end

def phrase : Phrase → List (String × Operand)
  | .statement source => statement source
  | .statements source => statements source
  | .choices source => choices source
  | .clauses _ source _ => clauses source

def node (source : Node) : List (String × Operand) := statements source.statements

end Operands

namespace Script

def operands (script : Script) : List (String × Operand) :=
  script.nodes.values.flatMap Operands.node

theorem operands_subset {script : Script} {entry : String} {first source : Node}
    (hfirst : script.nodes.find? entry = some first)
    (hsource : source ∈ first :: script.others entry) :
    Operands.node source ⊆ script.operands := by
  obtain ⟨key, hentry⟩ := mem_entries_of_mem_order hfirst hsource
  intro operand hoperand
  exact List.mem_flatMap.mpr ⟨source, List.mem_map.mpr ⟨_, hentry, rfl⟩, hoperand⟩

end Script

end Dialogue
