import Redzone.Ir.Global

/-!
# Metadata nodes

Facts about a module that do not change what it computes: tuples of operands, which may refer to
globals and to other nodes.
-/

namespace Redzone

/-- Number of a metadata node of a module. -/
abbrev NodeId := Nat

/-- An operand of a metadata node. -/
inductive MdOperand
  | null
  | string (text : String)
  | int (value : Int)
  | global (id : GlobalId)
  | node (id : NodeId)
  deriving DecidableEq

namespace MdOperand

def string? : MdOperand → Option String
  | string text => some text
  | _ => none

def int? : MdOperand → Option Int
  | int value => some value
  | _ => none

def global? : MdOperand → Option GlobalId
  | global id => some id
  | _ => none

def node? : MdOperand → Option NodeId
  | node id => some id
  | _ => none

end MdOperand

/-- A tuple of operands. -/
structure MdNode where
  operands : List MdOperand
  deriving DecidableEq

/-- The operand at `index`; behind the last one all operands are null. -/
def MdNode.operand (node : MdNode) (index : Nat) : MdOperand := node.operands.getD index .null

end Redzone
