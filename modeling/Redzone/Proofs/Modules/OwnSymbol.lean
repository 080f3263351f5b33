import Redzone.Proofs.Runtime

/-!
# The symbols of an instrumentation

What an instrumentation adds to a module goes by names of its own.  They start with one of a few
stems, none of which is the start of another one, so that names that are made for different things
differ (`OwnSymbol.text_injective`).  Routines of the runtime start differently again, and a program
has none of these names if it keeps to those that are not reserved.
-/

namespace Redzone

namespace EntryPoint

theorem startsWith_iff {text start : String} :
    startsWith text start = true ↔ start.toList <+: text.toList := by
  rw [startsWith, List.isPrefixOf_iff_prefix]

theorem startsWith_trans {text middle start : String} (h : startsWith text middle = true)
    (h' : startsWith middle start = true) : startsWith text start = true := by
  rw [startsWith_iff] at h h' ⊢
  exact h'.trans h

theorem startsWith_or_startsWith {text first second : String} (h : startsWith text first = true)
    (h' : startsWith text second = true) :
    startsWith first second = true ∨ startsWith second first = true := by
  simp only [startsWith_iff] at *
  rcases Nat.le_total first.toList.length second.toList.length with hle | hle
  · exact .inr (List.prefix_of_prefix_length_le h h' hle)
  · exact .inl (List.prefix_of_prefix_length_le h' h hle)

/-- Names that a program must not use. -/
def isReserved (name : String) : Bool :=
  isGenerated name || name = elfStart || name = elfStop

end EntryPoint

/-! ### Symbols of globals and functions -/

/-- What a symbol of the instrumentation is made for. -/
inductive OwnKind
  | string
  | location
  | moduleName
  | table
  | indicator
  | descriptor
  | binder
  | stack
  | flag
  | sectionStart
  | sectionStop
  | ctor
  | dtor
  deriving DecidableEq

namespace OwnKind

def all : List OwnKind :=
  [string, location, moduleName, table, indicator, descriptor, binder, stack, flag, sectionStart,
    sectionStop, ctor, dtor]

theorem mem_all (kind : OwnKind) : kind ∈ all := by cases kind <;> decide

/-- The start of the names that are made for something. -/
def stem : OwnKind → String
  | string => "__asan_gen_.str."
  | location => "__asan_gen_.loc."
  | moduleName => "__asan_gen_.module_name"
  | table => "__asan_gen_.globals"
  | indicator => "__odr_asan_gen_"
  | descriptor => "__asan_global_"
  | binder => "__asan_binder_"
  | stack => "__asan_stack_desc."
  | flag => EntryPoint.registeredFlag
  | sectionStart => EntryPoint.elfStart
  | sectionStop => EntryPoint.elfStop
  | ctor => EntryPoint.moduleCtor
  | dtor => EntryPoint.moduleDtor

/-- There is one symbol of the kind, and its name is the stem. -/
def isFixed : OwnKind → Bool
  | moduleName | table | flag | sectionStart | sectionStop | ctor | dtor => true
  | _ => false

/-- No stem is the start of another one. -/
theorem eq_of_startsWith_stem {first second : OwnKind}
    (h : EntryPoint.startsWith first.stem second.stem = true) : first = second := by
  have hall : ∀ first ∈ all, ∀ second ∈ all,
      EntryPoint.startsWith first.stem second.stem = true → first = second := by decide +kernel
  exact hall first first.mem_all second second.mem_all h

end OwnKind

/-- A symbol of the instrumentation: what it is made for, and what tells it from others of the
kind. -/
structure OwnSymbol where
  kind : OwnKind
  suffix : String := ""
  plain : kind.isFixed = true → suffix = "" := by simp [OwnKind.isFixed]

namespace OwnSymbol

def text (own : OwnSymbol) : String := own.kind.stem ++ own.suffix

theorem startsWith_text (own : OwnSymbol) : EntryPoint.startsWith own.text own.kind.stem = true :=
  EntryPoint.startsWith_append (EntryPoint.startsWith_iff.mpr List.prefix_rfl) _

theorem text_injective : Function.Injective text := by
  intro first second h
  have hkind : first.kind = second.kind := by
    have hstem := second.startsWith_text
    rw [← h] at hstem
    rcases EntryPoint.startsWith_or_startsWith first.startsWith_text hstem with hstem | hstem
    · exact OwnKind.eq_of_startsWith_stem hstem
    · exact (OwnKind.eq_of_startsWith_stem hstem).symm
  obtain ⟨kind, suffix, plain⟩ := first
  obtain ⟨kind', suffix', plain'⟩ := second
  obtain rfl : kind = kind' := hkind
  have hlist := congrArg String.toList h
  simp only [text, String.toList_append] at hlist
  obtain rfl : suffix = suffix' := String.toList_injective (List.append_cancel_left hlist)
  rfl

end OwnSymbol

/-! ### Routines -/

/-- The starts of the names of the runtime's routines. -/
def routineStems : List String :=
  [ "__asan_init", "__asan_version_", "__asan_register_", "__asan_unregister_", "__asan_before_",
    "__asan_after_", "__asan_mem", "__asan_report_", "__asan_load", "__asan_store",
    "__asan_set_shadow_" ]

/-- A name of a routine of the runtime. -/
def IsRoutine (name : String) : Prop :=
  ∃ stem ∈ routineStems, EntryPoint.startsWith name stem = true

instance (name : String) : Decidable (IsRoutine name) :=
  inferInstanceAs (Decidable (∃ stem ∈ routineStems, EntryPoint.startsWith name stem = true))

namespace EntryPoint

theorem isRoutine_of_stem {stem : String} (h : stem ∈ routineStems) (rest : String) :
    IsRoutine (stem ++ rest) :=
  ⟨stem, h, startsWith_append (startsWith_iff.mpr List.prefix_rfl) rest⟩

theorem isRoutine_report (access : Access) (size : Nat) (recover : Bool) :
    IsRoutine (report access size recover) := by
  unfold report
  split <;> simp only [String.append_assoc] <;> exact isRoutine_of_stem (by decide) _

theorem isRoutine_check (access : Access) (size : Nat) (recover : Bool) :
    IsRoutine (check access size recover) := by
  have hstem : ∀ rest, IsRoutine (toString "__asan_" ++ (toString access.text ++ rest)) := by
    intro rest
    cases access with
    | load => exact isRoutine_of_stem (show "__asan_load" ∈ routineStems by decide) rest
    | store => exact isRoutine_of_stem (show "__asan_store" ∈ routineStems by decide) rest
  unfold check
  split <;> simp only [String.append_assoc] <;> exact hstem _

theorem isRoutine_bulk (kind : Bulk) : IsRoutine (bulk kind) := by
  cases kind <;> decide +kernel

theorem isRoutine_setShadow (value : UInt8) : IsRoutine (setShadow value) :=
  isRoutine_of_stem (show "__asan_set_shadow_" ∈ routineStems by decide) (hexByte value)

end EntryPoint

/-- No symbol of the instrumentation is called like a routine. -/
theorem OwnSymbol.not_isRoutine (own : OwnSymbol) : ¬ IsRoutine own.text := by
  rintro ⟨stem, hstem, htext⟩
  have hall : ∀ stem ∈ routineStems, ∀ kind ∈ OwnKind.all,
      EntryPoint.startsWith stem kind.stem = false ∧
        EntryPoint.startsWith kind.stem stem = false := by decide +kernel
  obtain ⟨hleft, hright⟩ := hall stem hstem own.kind own.kind.mem_all
  rcases EntryPoint.startsWith_or_startsWith htext own.startsWith_text with h | h
  · rw [h] at hleft
    cases hleft
  · rw [h] at hright
    cases hright

/-! ### Reserved names -/

open EntryPoint in
theorem IsRoutine.isReserved {name : String} (h : IsRoutine name) : isReserved name = true := by
  obtain ⟨stem, hstem, hname⟩ := h
  have hall : ∀ stem ∈ routineStems, startsWith stem "__asan_" = true := by decide +kernel
  simp [EntryPoint.isReserved, isGenerated, startsWith_trans hname (hall stem hstem)]

open EntryPoint in
theorem OwnSymbol.isReserved_text (own : OwnSymbol) : isReserved own.text = true := by
  have hstem : startsWith own.kind.stem "__asan_" = true ∨
      startsWith own.kind.stem "__odr_asan_gen_" = true ∨
      own.kind.isFixed = true ∧ EntryPoint.isReserved own.kind.stem = true := by
    have hall : ∀ kind ∈ OwnKind.all, startsWith kind.stem "__asan_" = true ∨
        startsWith kind.stem "__odr_asan_gen_" = true ∨
        kind.isFixed = true ∧ EntryPoint.isReserved kind.stem = true := by decide +kernel
    exact hall own.kind own.kind.mem_all
  rcases hstem with hstem | hstem | ⟨hfixed, hstem⟩
  · simp [EntryPoint.isReserved, isGenerated, startsWith_trans own.startsWith_text hstem]
  · simp [EntryPoint.isReserved, isGenerated, startsWith_trans own.startsWith_text hstem]
  · rwa [text, own.plain hfixed, String.append_empty]

end Redzone
