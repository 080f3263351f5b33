import Redzone.Ir.Instruction

/-!
# Faults

A run that goes on where it must not is a mistake of its caller or of its own.  It follows a
reference that leads nowhere, it takes more from a number than there is, or something that it takes
for granted does not hold.  Each of these ends the run in a `Fault`; nothing is ever cut off or made
up to go on.
-/

namespace Redzone

/-- Why an operation could not be carried out at all. -/
inductive Fault
  /-- The arena has no such instruction. -/
  | noInstruction (index : InstId)
  /-- The function has no such block. -/
  | noBlock (block : BlockId)
  /-- The block's arguments are not all in the arena of block arguments. -/
  | noBlockArgs (block : BlockId)
  /-- The symbol table has no such name. -/
  | noSymbol (symbol : SymbolId)
  /-- The module has no such function. -/
  | noFunction (index : Nat)
  /-- The module has no such global. -/
  | noGlobal (index : Nat)
  /-- A position lies behind the end of a block. -/
  | pastEnd (position length : Nat)
  /-- A granule of no bytes. -/
  | zeroGranularity
  /-- The least redzone is larger than the greatest. -/
  | emptyRedzoneRange (least greatest : Nat)
  /-- A frame without variables. -/
  | noVariables
  /-- A range of shadow bytes that is not all there. -/
  | noShadow (stop length : Nat)
  /-- A difference that would be below zero. -/
  | underflow
  /-- The instruction of a site is not where the survey found it. -/
  | displaced (index : InstId)
  /-- Granules that are no power of two from 8 to 64 bytes. -/
  | unsupportedGranularity (bytes : Nat)
  /-- Lifetime markers that cover more than their variable. -/
  | overlongLifetime (covered size : Nat)
  /-- A mask and bytes that are not equally many. -/
  | unequalLengths (mask bytes : Nat)
  deriving DecidableEq

/-- The difference of two numbers. -/
def checkedSub (a b : Nat) : Except Fault Nat := if b ≤ a then .ok (a - b) else .error .underflow

/-- Test something that is taken for granted. -/
def require (holds : Prop) [Decidable holds] (fault : Fault) : Except Fault Unit :=
  if holds then .ok () else .error fault

end Redzone
