import Redzone.Config.Basic
import Redzone.EntryPoint
import Redzone.Layout.Global

/-!
# Which globals get a redzone

A global is left alone if it must not be touched, if its place or its contents belong to someone
else, or if a redzone would not help.
-/

namespace Redzone

/-- Why a global gets no redzone. -/
inductive SkipReason
  | excluded
  | declaration
  | threadLocal
  | fixedAddress
  /-- The instrumentation made it. -/
  | generated
  /-- It lies in a section that the loader or the runtime reads. -/
  | specialSection
  /-- Another module's definition may take its place. -/
  | replaceable
  | overAligned
  | empty
  deriving DecidableEq

/-- Starts of the names of sections that the loader or the runtime reads. -/
def specialSections : List String :=
  [ ".init_array", ".fini_array", ".ctors", ".dtors", "__DATA,__mod_init_func", ".CRT",
    EntryPoint.elfSection ]

/-- Whether a section is read by the loader or the runtime. -/
def isSpecialSection (place : String) : Bool :=
  specialSections.any fun start => EntryPoint.startsWith place start

/-- Why a global called `name` gets no redzone; none if it gets one. -/
def Global.skipReason? (granularity : Nat) (name : String) (facts : GlobalFacts) (g : Global) :
    Option SkipReason :=
  if facts.excluded then some .excluded
  else if g.isDeclaration then some .declaration
  else if g.threadLocal then some .threadLocal
  else if g.fixedAddress then some .fixedAddress
  else if EntryPoint.isGenerated name then some .generated
  else if g.sectionName.any isSpecialSection then some .specialSection
  else if !g.linkage.hasExactDefinition then some .replaceable
  else if minGlobalRedzone granularity < g.align then some .overAligned
  else if g.size = 0 then some .empty
  else none

/-- The globals of a module that get a redzone, and what there is to say about the others. -/
structure Candidates where
  ids : List GlobalId := []
  skipped : Nat := 0
  diagnostics : List Diagnostic := []
  deriving DecidableEq

/-- What there is to say about a global that gets no redzone. -/
def Global.skipDiagnostics (name : String) (facts : GlobalFacts) (g : Global) : List Diagnostic :=
  if g.fixedAddress && facts.dynInit then
    [⟨name, facts.location, "dynamic initialization of a fixed-address global is not checked"⟩]
  else []

namespace Module

/-- Sort out globals that are numbered from `id` on. -/
def candidatesFrom (m : Module) (granularity : Nat) (store : Annotations) :
    GlobalId → List Global → Except Fault Candidates
  | _, [] => .ok {}
  | id, g :: rest => do
      let name ← m.resolve g.name
      let others ← m.candidatesFrom granularity store (id + 1) rest
      let facts := store.get id
      match g.skipReason? granularity name facts with
      | none => .ok { others with ids := id :: others.ids }
      | some _ =>
          .ok
            { others with
              skipped := others.skipped + 1
              diagnostics := g.skipDiagnostics name facts ++ others.diagnostics }

/-- Sort out the globals of a module. -/
def candidates (config : Config) (m : Module) (store : Annotations) : Except Fault Candidates :=
  if config.globals then
    m.candidatesFrom config.mapping.granularity store 0 m.globals.toList
  else
    .ok {}

end Module

end Redzone
