import Redzone.Ir.Module

/-!
# Annotations of globals

A front end tells facts about globals in one named list of metadata, a node for each annotated
global:

```text
[ global, location node, "name", dynamic initialization, excluded ]
```

and a location node is `[ "file", line, column ]`.  Reading is lenient: what is missing or of the
wrong kind counts as not told.  A global may be annotated more than once.  Then the last location
and the last name stand, and a flag that is set once stays set.
-/

namespace Redzone

/-- A place in the source program. -/
structure SourceLocation where
  file : String := ""
  line : Nat := 0
  column : Nat := 0
  deriving DecidableEq

namespace SourceLocation

/-- Whether the place is unknown. -/
def isEmpty (loc : SourceLocation) : Bool := loc.file.isEmpty

def text (loc : SourceLocation) : String := s!"{loc.file}:{loc.line}:{loc.column}"

/-- A line or column: an integer that is none counts as 0. -/
def coordinate (operand : MdOperand) : Nat :=
  match operand.int? with
  | some value => if 0 ≤ value ∧ value < 0x100000000 then value.toNat else 0
  | none => 0

def ofNode (node : MdNode) : SourceLocation where
  file := (node.operand 0).string?.getD ""
  line := coordinate (node.operand 1)
  column := coordinate (node.operand 2)

/-- Read the location node with a given number. -/
def parse (m : Module) (id : NodeId) : SourceLocation :=
  match m.nodes[id]? with
  | some node => ofNode node
  | none => {}

end SourceLocation

/-- What is known about a global. -/
structure GlobalFacts where
  location : SourceLocation := {}
  /-- The name in the source program; empty if the symbol's name will do. -/
  name : String := ""
  /-- The global is initialized by code that runs at start-up. -/
  dynInit : Bool := false
  /-- The global must not be instrumented. -/
  excluded : Bool := false
  deriving DecidableEq

/-- A flag that an operand sets. -/
def MdOperand.isSet (operand : MdOperand) : Bool :=
  match operand.int? with
  | some value => value ≠ 0
  | none => false

/-- Add what a node tells. -/
def GlobalFacts.merge (m : Module) (node : MdNode) (facts : GlobalFacts) : GlobalFacts where
  location := match (node.operand 1).node? with
    | some id => SourceLocation.parse m id
    | none => facts.location
  name := (node.operand 2).string?.getD facts.name
  dynInit := facts.dynInit || (node.operand 3).isSet
  excluded := facts.excluded || (node.operand 4).isSet

/-- What is known about the globals of a module. -/
structure Annotations where
  facts : Dict GlobalId GlobalFacts := .empty
  deriving DecidableEq

namespace Annotations

/-- The list in which annotations are found. -/
def listName : String := "fasan.globals"

/-- The global that a node annotates, if it annotates one of the module's. -/
def subject? (m : Module) (node : MdNode) : Option GlobalId :=
  match (node.operand 0).global? with
  | some id => if id < m.globals.size then some id else none
  | none => none

/-- Add what the node numbered `id` tells. -/
def addNode (m : Module) (store : Annotations) (id : NodeId) : Annotations :=
  match m.nodes[id]? with
  | none => store
  | some node =>
      match subject? m node with
      | none => store
      | some global => ⟨store.facts.alter global fun old => (old.getD {}).merge m node⟩

def ofModule (m : Module) : Annotations := (m.namedNodes listName).foldl (addNode m) {}

/-- What is known about a global. -/
def get (store : Annotations) (global : GlobalId) : GlobalFacts :=
  (store.facts.get? global).getD {}

def contains (store : Annotations) (global : GlobalId) : Bool := store.facts.contains global

def size (store : Annotations) : Nat := store.facts.size

end Annotations

end Redzone
