import Redzone.Shadow

/-!
# Layout of stack frames

The variables of a function are put into one frame, widest alignment first.  A frame starts with a
header; every variable starts on a granule and is followed by a redzone that ends where the next one
starts.  The frame's shadow says which bytes belong to a variable, and its description tells the
runtime what lies where.
-/

namespace Redzone

/-- Bytes at the start of a frame that are kept for the header. -/
def minFrameHeader : Nat := 32

/-- The least alignment of a variable in a frame. -/
def minVariableAlign : Nat := 16

structure StackVariable where
  name : String
  size : Nat
  align : Nat
  /-- Bytes that lifetime markers cover; none if there are no markers. -/
  lifetime : Nat := 0
  /-- Line of the declaration in the source program, 0 if unknown. -/
  line : Nat := 0
  /-- Distance from the start of the frame. -/
  offset : Nat := 0
  /-- Place in the list that the frame was laid out for. -/
  index : Nat
  deriving DecidableEq

/-- A frame that has been laid out. -/
structure Frame where
  granularity : Nat
  /-- The variables in the order of their offsets. -/
  vars : List StackVariable
  size : Nat
  align : Nat
  deriving DecidableEq

namespace Frame

/-! ### Placing variables -/

/-- Put a variable in front of the first one that is aligned no more than it. -/
def insertByAlign (var : StackVariable) : List StackVariable → List StackVariable
  | [] => [var]
  | other :: rest =>
      if other.align ≤ var.align then var :: other :: rest else other :: insertByAlign var rest

/-- Sort by decreasing alignment; variables of one alignment keep their order. -/
def sortByAlign (vars : List StackVariable) : List StackVariable := vars.foldr insertByAlign []

/-- Raise the alignment to the least one in a frame. -/
def raiseAlign (var : StackVariable) : StackVariable :=
  { var with align := max var.align minVariableAlign }

/-- Bytes of a variable and its redzone, before they are rounded up for the next variable. -/
def paddedSize (size : Nat) : Nat :=
  if size ≤ 4 then 16
  else if size ≤ 16 then 32
  else if size ≤ 128 then size + 32
  else if size ≤ 512 then size + 64
  else if size ≤ 4096 then size + 128
  else size + 256

/-- Bytes from the start of a variable to the start of what follows it. -/
def stride (size granularity nextAlign : Nat) : Nat :=
  roundUp (max (paddedSize size) (2 * granularity)) nextAlign

/-- The alignment that the end of a redzone needs: a granule, and what the next variable asks. -/
def nextAlign (granularity : Nat) : List StackVariable → Nat
  | [] => granularity
  | next :: _ => max granularity next.align

/-- Place variables one after the other, from `offset` on. -/
def placeFrom (granularity offset : Nat) : List StackVariable → List StackVariable
  | [] => []
  | var :: rest =>
      { var with offset := offset } ::
        placeFrom granularity
          (offset + stride var.size granularity (nextAlign granularity rest)) rest

/-- Where variables placed from `offset` on end. -/
def endFrom (granularity offset : Nat) : List StackVariable → Nat
  | [] => offset
  | var :: rest =>
      endFrom granularity (offset + stride var.size granularity (nextAlign granularity rest)) rest

/-- The end of a frame whose last redzone ends at `offset`. -/
def endOfFrame (offset : Nat) : Except Fault Nat :=
  if offset % minFrameHeader = 0 then
    .ok offset
  else do
    let rest ← checkedSub minFrameHeader (offset % minFrameHeader)
    .ok (offset + rest)

/-- Lay out a frame for some variables. -/
def layOut (vars : List StackVariable) (granularity : Nat) : Except Fault Frame :=
  if granularity = 0 then
    .error .zeroGranularity
  else
    let sorted := sortByAlign (vars.map raiseAlign)
    match sorted with
    | [] => .error .noVariables
    | first :: _ => do
        let start := max (max minFrameHeader granularity) first.align
        let size ← endOfFrame (endFrom granularity start sorted)
        .ok
          { granularity := granularity
            vars := placeFrom granularity start sorted
            size := size
            align := max granularity first.align }

/-- Test what a layout takes for granted: there are variables, and granules are of a size that is
supported. -/
def checkInput (vars : List StackVariable) (granularity : Nat) : Except Fault Unit := do
  require (vars ≠ []) .noVariables
  require (isPowerOfTwo granularity = true ∧ 8 ≤ granularity ∧ granularity ≤ 64)
    (.unsupportedGranularity granularity)

/-! ### Shadow -/

/-- The shadow of the variables, behind the shadow of what comes before them. -/
def shadowFrom (granularity : Nat) : List UInt8 → List StackVariable → List UInt8
  | shadow, [] => shadow
  | shadow, var :: rest =>
      shadowFrom granularity
        (resizeShadow shadow (var.offset / granularity) stackMidRedzone ++
          liveShadow var.size granularity)
        rest

/-- The shadow of a frame with all variables in scope. -/
def shadow (frame : Frame) : List UInt8 :=
  let header := match frame.vars with
    | [] => []
    | first :: _ => List.replicate (first.offset / frame.granularity) stackLeftRedzone
  resizeShadow (shadowFrom frame.granularity header frame.vars)
    (frame.size / frame.granularity) stackRightRedzone

/-- Overwrite `count` bytes from `start` on. -/
def fillShadow (shadow : List UInt8) (start count : Nat) (fill : UInt8) :
    Except Fault (List UInt8) :=
  if start + count ≤ shadow.length then
    .ok (shadow.take start ++ List.replicate count fill ++ shadow.drop (start + count))
  else
    .error (.noShadow (start + count) shadow.length)

/-- Poison the granules of a variable that lifetime markers cover. -/
def poisonScope (granularity : Nat) (shadow : List UInt8) (var : StackVariable) :
    Except Fault (List UInt8) := do
  require (var.lifetime ≤ var.size) (.overlongLifetime var.lifetime var.size)
  fillShadow shadow (var.offset / granularity) (ceilDiv var.lifetime granularity)
    stackUseAfterScope

/-- The shadow of a frame at function entry: what has lifetime markers is out of scope. -/
def entryShadow (frame : Frame) : Except Fault (List UInt8) :=
  frame.vars.foldlM (poisonScope frame.granularity) frame.shadow

end Frame

/-! ### Description -/

/-- The name of a variable in a description, with the line if it is known. -/
def StackVariable.displayName (var : StackVariable) : String :=
  if var.line = 0 then var.name else s!"{var.name}:{var.line}"

/-- The part of a description that tells of one variable.  The length of the name is counted in
bytes, so that the name may hold anything. -/
def StackVariable.description (var : StackVariable) : String :=
  s!" {var.offset} {var.size} {var.displayName.utf8ByteSize} {var.displayName}"

/-- What the runtime can read about a frame: the number of variables, then for each one its offset,
its size, the length of its name and its name. -/
def Frame.description (frame : Frame) : String :=
  s!"{frame.vars.length}" ++ String.join (frame.vars.map StackVariable.description)

end Redzone
