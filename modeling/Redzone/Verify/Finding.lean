import Redzone.Ir.Module

/-!
# Findings of a verification

A verification collects every defect it meets, each with the place where it was met, and stops at
none.  A module without findings is well formed.
-/

namespace Redzone

/-- The name of a type in a message about it. -/
def Ty.shape : Ty → String
  | .int => "Int"
  | .bool => "Bool"
  | .ptr space => s!"Ptr({space})"
  | .unit => "Unit"

inductive Place
  | module
  | global (name : String)
  | function (name : String)
  | block (function : String) (block : BlockId)
  /-- Instructions are counted within their block. -/
  | instruction (function : String) (block : BlockId) (pos : Nat)
  deriving DecidableEq

def Place.text : Place → String
  | .module => "module"
  | .global name => s!"global @{name}"
  | .function name => s!"func @{name}"
  | .block name b => s!"func @{name}, bb{b}"
  | .instruction name b pos => s!"func @{name}, bb{b}, inst {pos}"

inductive Defect
  | duplicateFunction (name : String)
  | unknownListed (name : String)
  | duplicateGlobal
  | globalCollides
  | globalAlign (align : Nat)
  | globalPadding (padding size : Nat)
  | globalInit (bytes size : Nat)
  | missingNode (list : String) (node : NodeId)
  /-- The node refers to a global that is not there. -/
  | danglingGlobal (node : NodeId) (id : GlobalId)
  /-- The node refers to a node that is not there. -/
  | danglingNode (node id : NodeId)
  | entryArgs
  | missingInst (inst : InstId)
  | placedTwice (inst : InstId)
  | emptyBlock
  | terminatorInside
  | noTerminator
  | paramOutsideEntry
  | dangling (value : Value)
  /-- The operand playing the part `role` has the wrong type. -/
  | operandTy (role : String) (expected found : Ty)
  | operandNotPtr (role : String) (found : Ty)
  | resultTy (role : String) (expected found : Ty)
  | resultNotPtr (role : String) (found : Ty)
  | zeroWidth (role : String)
  | zeroBits
  | paramIndex (index count : Nat)
  | paramTy (index : Nat) (found declared : Ty)
  | selectArms (ifTrue ifFalse : Ty)
  | slotAlign (align : Nat)
  | unknownSymbol (symbol : SymbolId)
  | retUnexpected
  | retMissing
  | missingTarget (block : BlockId)
  | targetEntry
  | targetArgCount (block : BlockId) (found expected : Nat)
  | targetArgTy (block : BlockId) (position : Nat) (expected found : Ty)
  deriving DecidableEq

def Defect.message : Defect → String
  | .duplicateFunction name => s!"duplicate function name @{name}"
  | .unknownListed name => s!"ctor/dtor list references unknown function @{name}"
  | .duplicateGlobal => "duplicate global name"
  | .globalCollides => "global name collides with a function"
  | .globalAlign align => s!"alignment {align} is not a power of two"
  | .globalPadding padding size => s!"padding {padding} exceeds size {size}"
  | .globalInit bytes size => s!"initializer of {bytes} bytes exceeds size {size}"
  | .missingNode list node => s!"named metadata !{list} references missing node {node}"
  | .danglingGlobal node id =>
      s!"metadata node {node} has a dangling operand Global(GlobalId({id}))"
  | .danglingNode node id => s!"metadata node {node} has a dangling operand Node(MetadataRef({id}))"
  | .entryArgs => "entry block must not take arguments"
  | .missingInst inst => s!"instruction {inst} out of bounds"
  | .placedTwice inst => s!"instruction {inst} placed more than once"
  | .emptyBlock => "empty basic block"
  | .terminatorInside => "terminator in the middle of a block"
  | .noTerminator => "block does not end with a terminator"
  | .paramOutsideEntry => "param outside the entry block"
  | .dangling (.arg index) => s!"dangling block_arg reference {index}"
  | .dangling (.inst index) => s!"dangling inst_result reference {index}"
  | .operandTy role expected found => s!"{role}: expected {expected.shape}, got {found.shape}"
  | .operandNotPtr role found => s!"{role}: expected Ptr, got {found.shape}"
  | .resultTy role expected found =>
      s!"{role} result must be {expected.shape}, got {found.shape}"
  | .resultNotPtr role found => s!"{role} result must be Ptr, got {found.shape}"
  | .zeroWidth role => s!"{role}: access width must be > 0"
  | .zeroBits => "sext/zext bit width must be > 0"
  | .paramIndex index count => s!"param index {index} out of bounds ({count} params)"
  | .paramTy index found declared =>
      s!"param {index} type {found.shape} != declared {declared.shape}"
  | .selectArms ifTrue ifFalse =>
      s!"select arms: type mismatch {ifTrue.shape} vs {ifFalse.shape}"
  | .slotAlign align => s!"stack_slot alignment {align} is not a power of two"
  | .unknownSymbol symbol => s!"unknown symbol id {symbol}"
  | .retUnexpected => "ret with value but function returns nothing"
  | .retMissing => "ret without value but function has return type"
  | .missingTarget block => s!"branch target bb{block} out of bounds"
  | .targetEntry => "branch to the entry block is not allowed"
  | .targetArgCount block found expected =>
      s!"branch to bb{block} passes {found} args, expected {expected}"
  | .targetArgTy block position expected found =>
      s!"branch to bb{block} arg {position}: expected {expected.shape}, got {found.shape}"

structure Finding where
  place : Place
  defect : Defect
  deriving DecidableEq

def Finding.text (finding : Finding) : String :=
  s!"[{finding.place.text}] {finding.defect.message}"

def findingsText (findings : List Finding) : String :=
  if findings.isEmpty then
    "verification passed"
  else
    s!"verification failed with {findings.length} error(s):\n" ++
      String.join (findings.map fun finding => s!"  {finding.text}\n")

end Redzone
