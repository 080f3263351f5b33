import Redzone.Proofs.Execution.Run

/-!
# The runtime

Instrumented code calls routines that are not part of it.  `Runtime` says what is assumed of those
that check and report: they do to memory what the program asked for and nothing else, and they come
back if the program is to go on after a report, or if there is nothing to report.

A call `FindsPoison` if it is one by which poison comes to light: any call of a report routine, and
a call of a routine that checks by itself if the range it is told of is poisoned.

Routines are called by name, so that each has to have a name of its own.  `Routine.name_eq_iff` says
when two have the same one: if they do the same to accesses that have no routine of their own size.
-/

namespace Redzone

/-- A range of memory has a byte that must not be accessed. -/
def ShadowMapping.PoisonedRange (mapping : ShadowMapping) (memory : Memory) (addr size : Nat) :
    Prop :=
  ∃ k < size, mapping.byteAddressable ((addr + k) % addressSpace)
    (memory (mapping.shadowAddr ((addr + k) % addressSpace))) = false

/-- What a routine that checks or reports an access is told. -/
def accessArgs (size : Nat) (addr : Int) : List Int :=
  if EntryPoint.isFixedSize size then [addr] else [addr, size]

/-- A range that a bulk operation reads or writes is poisoned. -/
def Bulk.FindsPoison (kind : Bulk) (mapping : ShadowMapping) (dest source length : Int)
    (memory : Memory) : Prop :=
  mapping.PoisonedRange memory (toAddress dest) (toAddress length) ∨
    kind ≠ .fill ∧ mapping.PoisonedRange memory (toAddress source) (toAddress length)

/-- A call by which poison comes to light. -/
inductive FindsPoison (config : Config) (machine : Machine) : Call → Prop
  | report {access : EntryPoint.Access} {size : Nat} {args : List Int} {memory : Memory} :
      FindsPoison config machine
        ⟨machine.address (EntryPoint.report access size config.recover), args, memory⟩
  | check {access : EntryPoint.Access} {size : Nat} {addr : Int} {memory : Memory}
      (h : config.mapping.PoisonedRange memory (toAddress addr) size) :
      FindsPoison config machine
        ⟨machine.address (EntryPoint.check access size config.recover), accessArgs size addr,
          memory⟩
  | bulk {kind : Bulk} {dest source length : Int} {memory : Memory}
      (h : kind.FindsPoison config.mapping dest source length memory) :
      FindsPoison config machine
        ⟨machine.address (EntryPoint.bulk kind), [dest, source, length], memory⟩

/-- What is assumed of the routines that check and report. -/
structure Runtime (config : Config) (machine : Machine) : Prop where
  report : config.recover = true → ∀ access size addr memory, ∃ value,
    machine.call (machine.address (EntryPoint.report access size config.recover))
      (accessArgs size addr) memory = .returns value memory
  check : ∀ access size addr memory,
    config.recover = true ∨ ¬ config.mapping.PoisonedRange memory (toAddress addr) size →
    ∃ value, machine.call (machine.address (EntryPoint.check access size config.recover))
      (accessArgs size addr) memory = .returns value memory
  /-- The twin of a bulk operation does the same and returns where it wrote. -/
  bulk : ∀ kind dest source length memory,
    config.recover = true ∨ ¬ Bulk.FindsPoison kind config.mapping dest source length memory →
    machine.call (machine.address (EntryPoint.bulk kind)) [dest, source, length] memory =
      .returns (some dest) (kind.apply dest source length memory)

/-! ### Names of the runtime -/

/-- A call of a routine of the runtime. -/
def Call.IsInternal (machine : Machine) (c : Call) : Prop :=
  ∃ name, EntryPoint.startsWith name "__asan_" = true ∧ c.callee = machine.address name

namespace EntryPoint

theorem startsWith_append {text start : String} (h : startsWith text start = true)
    (rest : String) : startsWith (text ++ rest) start = true := by
  unfold startsWith at *
  rw [String.toList_append, List.isPrefixOf_iff_prefix] at *
  exact h.trans (List.prefix_append _ _)

theorem startsWith_report (access : Access) (size : Nat) (recover : Bool) :
    startsWith (report access size recover) "__asan_" = true := by
  unfold report
  split <;> exact startsWith_append (startsWith_append (startsWith_append (by decide) _) _) _

theorem startsWith_check (access : Access) (size : Nat) (recover : Bool) :
    startsWith (check access size recover) "__asan_" = true := by
  unfold check
  split <;> exact startsWith_append (startsWith_append (startsWith_append (by decide) _) _) _

theorem startsWith_bulk (kind : Bulk) : startsWith (bulk kind) "__asan_" = true := by
  cases kind <;> decide

end EntryPoint

/-! ### Different routines have different names -/

/-- A routine that instrumented code goes through where it accesses memory. -/
inductive Routine
  | report (access : EntryPoint.Access) (size : Nat) (recover : Bool)
  | check (access : EntryPoint.Access) (size : Nat) (recover : Bool)
  | bulk (kind : Bulk)
  deriving DecidableEq

namespace Routine

def name : Routine → String
  | report access size recover => EntryPoint.report access size recover
  | check access size recover => EntryPoint.check access size recover
  | bulk kind => EntryPoint.bulk kind

/-- Sizes that have no routines of their own share those of size 0. -/
def ownSize (size : Nat) : Nat := if EntryPoint.isFixedSize size then size else 0

/-- A routine with the size that it has of its own. -/
def canonical : Routine → Routine
  | report access size recover => report access (ownSize size) recover
  | check access size recover => check access (ownSize size) recover
  | bulk kind => bulk kind

/-- The routines with the sizes that they have of their own. -/
def all : List Routine :=
  [.copy, .move, .fill].map bulk ++
    [0, 1, 2, 4, 8, 16].flatMap fun size => [.load, .store].flatMap fun access =>
      [false, true].flatMap fun recover => [report access size recover, check access size recover]

theorem isFixedSize_ownSize (size : Nat) :
    EntryPoint.isFixedSize (ownSize size) = EntryPoint.isFixedSize size := by
  unfold ownSize
  split
  · rfl
  · rename_i hsize
    rw [Bool.eq_false_of_not_eq_true hsize]
    rfl

theorem name_canonical (r : Routine) : r.canonical.name = r.name := by
  have hsize : ∀ size, EntryPoint.isFixedSize size = true → ownSize size = size :=
    fun size hfixed => if_pos hfixed
  cases r with
  | report access size recover =>
      simp only [canonical, name, EntryPoint.report, isFixedSize_ownSize]
      split
      · rw [hsize size ‹_›]
      · rfl
  | check access size recover =>
      simp only [canonical, name, EntryPoint.check, isFixedSize_ownSize]
      split
      · rw [hsize size ‹_›]
      · rfl
  | bulk kind => rfl

theorem canonical_mem_all (r : Routine) : r.canonical ∈ all := by
  have hsize : ∀ size, ownSize size ∈ [0, 1, 2, 4, 8, 16] := by
    intro size
    unfold ownSize
    split
    · rename_i hfixed
      simp only [EntryPoint.isFixedSize, Bool.or_eq_true, decide_eq_true_eq] at hfixed
      simp only [List.mem_cons, List.not_mem_nil, or_false]
      omega
    · exact List.mem_cons_self
  rw [all, List.mem_append]
  cases r with
  | report access size recover =>
      refine .inr (List.mem_flatMap.mpr ⟨_, hsize size, ?_⟩)
      cases access <;> cases recover <;> simp [canonical]
  | check access size recover =>
      refine .inr (List.mem_flatMap.mpr ⟨_, hsize size, ?_⟩)
      cases access <;> cases recover <;> simp [canonical]
  | bulk kind => cases kind <;> simp [canonical]

/-- Routines have one name only if they do the same for the same access, and its size is the same or
has no routines of its own. -/
theorem name_eq_iff {r r' : Routine} : r.name = r'.name ↔ r.canonical = r'.canonical := by
  have hnodup : (all.map name).Nodup := by decide +kernel
  constructor
  · intro h
    apply List.inj_on_of_nodup_map hnodup r.canonical_mem_all r'.canonical_mem_all
    rw [name_canonical, name_canonical, h]
  · intro h
    rw [← name_canonical, h, name_canonical]

end Routine

end Redzone
