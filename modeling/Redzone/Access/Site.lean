import Redzone.Access.Pointer
import Redzone.Config.Basic
import Redzone.EntryPoint

/-!
# What in a function needs a check

Before any code is changed, the blocks of a function are read once and every access is judged: it
gets a check, or it is skipped because it is excluded, because it lies within its object for sure,
or because the same access was checked earlier in the block and nothing came between.  Bulk memory
operations are listed as well; they become calls.
-/

namespace Redzone

/-- Why a run did not get to its end. -/
inductive Failure
  /-- Something that the run takes for granted did not hold. -/
  | fault (cause : Fault)
  /-- The module cannot be instrumented. -/
  | error (cause : InstrumentError)
  deriving DecidableEq

/-- A computation that can only meet faults, as part of one that can fail otherwise. -/
def Failure.lift {α : Type} : Except Fault α → Except Failure α
  | .ok a => .ok a
  | .error cause => .error (.fault cause)

structure MemAccess where
  ptr : Value
  size : Nat
  kind : EntryPoint.Access
  atomic : Bool
  deriving DecidableEq

/-- The access that an operation makes.  What reads and writes counts as a write. -/
def Op.access? : Op → Option MemAccess
  | .load ptr size order => some ⟨ptr, size, .load, order.isSome⟩
  | .store _ ptr size order => some ⟨ptr, size, .store, order.isSome⟩
  | .rmw _ ptr _ size _ => some ⟨ptr, size, .store, true⟩
  | .cmpxchg ptr _ _ size _ => some ⟨ptr, size, .store, true⟩
  | _ => none

/-- What is done at a site. -/
inductive SiteKind
  /-- The access gets a check. -/
  | check (access : MemAccess)
  /-- The bulk memory operation becomes a call. -/
  | bulk
  deriving DecidableEq

/-- A place in a function where code is added. -/
structure Site where
  inst : InstId
  block : BlockId
  pos : Nat
  kind : SiteKind
  deriving DecidableEq

/-- Whether a site is a checked access. -/
def Site.isCheck (site : Site) : Bool :=
  match site.kind with
  | .check _ => true
  | .bulk => false

/-- Whether the instruction of a site is listed where the site says. -/
def Site.isInPlace (f : Func) (site : Site) : Bool :=
  f.blocks[site.block]?.any fun blk => blk.insts[site.pos]? = some site.inst

/-- What the judgement of accesses depends on. -/
structure Judge where
  config : Config
  globals : List Global
  store : Annotations
  /-- The function that is read, and its name. -/
  func : Func
  name : String
  /-- The stack slots that have lifetime markers. -/
  marked : List InstId

namespace Judge

/-- The last global with a given name among globals numbered from `id` on. -/
def lastNamed (symbol : SymbolId) : GlobalId → List Global → Option (GlobalId × Global)
  | _, [] => none
  | id, g :: rest =>
      match lastNamed symbol (id + 1) rest with
      | some found => some found
      | none => if g.name = symbol then some (id, g) else none

/-- Whether the bytes up to `stop` of what `op` points to may be accessed for sure. -/
def covers (judge : Judge) (base : InstId) (stop : Nat) : Op → Except Fault Bool
  | .stackSlot size _ =>
      .ok (judge.config.optStack && stop ≤ size &&
        !(judge.config.useAfterScope && judge.marked.contains base))
  | .symbolAddr symbol =>
      if judge.config.optGlobals then
        match lastNamed symbol 0 judge.globals with
        | none => .ok false
        | some (id, g) => do
            let size ← g.objectSize?
            .ok (stop ≤ size && !(judge.config.initOrder && (judge.store.get id).dynInit))
      else
        .ok false
  | _ => .ok false

/-- Whether an access lies within a stack slot or a global for sure. -/
def isSafe (judge : Judge) (access : MemAccess) : Except Fault Bool :=
  match judge.func.baseAndOffset access.ptr with
  | some (.inst base, offset) =>
      if 0 ≤ offset then do
        let target ← judge.func.inst base
        judge.covers base (offset.toNat + access.size) target.op
      else
        .ok false
  | _ => .ok false

/-- Whether accesses of this kind are checked at all. -/
def wants (judge : Judge) (access : MemAccess) : Bool :=
  (!access.atomic || judge.config.atomics) &&
    match access.kind with
    | .load => judge.config.reads
    | .store => judge.config.writes

/-- What an instruction means for the checks of its block. -/
inductive Verdict
  /-- It has nothing to do with memory. -/
  | unrelated
  /-- Earlier checks say nothing about what comes later. -/
  | barrier
  /-- A bulk memory operation that becomes a call.  It is a barrier, too. -/
  | replace
  /-- An access that gets no check. -/
  | skip
  /-- An access that gets a check. -/
  | check (access : MemAccess)

/-- Judge an access when the pointers and sizes in `checked` have been checked already. -/
def access (judge : Judge) (checked : List (Value × Nat)) (inst : InstId) (noSanitize : Bool)
    (access : MemAccess) : Except Failure Verdict :=
  if noSanitize || !judge.wants access then
    .ok .skip
  else if access.size = 0 then
    .error (.error (.emptyAccess judge.name inst))
  -- other address spaces have no shadow
  else if judge.func.valueTy access.ptr ≠ some (.ptr 0) then
    .ok .skip
  else do
    let safe ← Failure.lift (judge.isSafe access)
    .ok (if safe || (judge.config.optSameTemp && checked.contains (access.ptr, access.size)) then
        .skip
      else
        .check access)

def instruction (judge : Judge) (checked : List (Value × Nat)) (inst : InstId)
    (i : Instruction) : Except Failure Verdict :=
  match i.op with
  | .call .. | .lifetime .. => .ok .barrier
  | .bulk .. => .ok (if judge.config.bulkMemory && !i.noSanitize then .replace else .barrier)
  | op =>
      match op.access? with
      | none => .ok .unrelated
      | some access => judge.access checked inst i.noSanitize access

end Judge

/-- The sites of a function, and how many accesses were skipped. -/
structure Survey where
  sites : List Site := []
  skipped : Nat := 0
  deriving DecidableEq

def Survey.append (a b : Survey) : Survey := ⟨a.sites ++ b.sites, a.skipped + b.skipped⟩

namespace Judge

/-- Survey the instructions of block `b` from place `pos` on. -/
def surveyFrom (judge : Judge) (b : BlockId) :
    (pos : Nat) → (checked : List (Value × Nat)) → List InstId → Except Failure Survey
  | _, _, [] => .ok {}
  | pos, checked, inst :: rest => do
      let i ← Failure.lift (judge.func.inst inst)
      match ← judge.instruction checked inst i with
      | .unrelated => judge.surveyFrom b (pos + 1) checked rest
      | .barrier => judge.surveyFrom b (pos + 1) [] rest
      | .replace =>
          let survey ← judge.surveyFrom b (pos + 1) [] rest
          .ok { survey with sites := ⟨inst, b, pos, .bulk⟩ :: survey.sites }
      | .skip =>
          let survey ← judge.surveyFrom b (pos + 1) checked rest
          .ok { survey with skipped := survey.skipped + 1 }
      | .check access =>
          let survey ← judge.surveyFrom b (pos + 1) ((access.ptr, access.size) :: checked) rest
          .ok { survey with sites := ⟨inst, b, pos, .check access⟩ :: survey.sites }

/-- Survey blocks numbered from `b` on. -/
def surveyBlocks (judge : Judge) : BlockId → List Block → Except Failure Survey
  | _, [] => .ok {}
  | b, blk :: rest => do
      let first ← judge.surveyFrom b 0 [] blk.insts
      let others ← judge.surveyBlocks (b + 1) rest
      .ok (first.append others)

def survey (judge : Judge) : Except Failure Survey :=
  judge.surveyBlocks 0 judge.func.blocks.toList

end Judge

end Redzone
