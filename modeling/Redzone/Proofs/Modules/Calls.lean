import Redzone.Proofs.Modules.ModuleRun

/-!
# Calls of the module's constructor and destructor

The instrumentation's own functions compute addresses and numbers and call routines with them.
`Func.calls` reads the calls off a function again, with the names of what they refer to.
-/

namespace Redzone

/-- What a call refers to. -/
inductive Argument
  | address (name : String)
  | number (value : Int)
  deriving DecidableEq

/-- A call; none stands for a value that is computed in another way. -/
structure RoutineCall where
  callee : Option Argument
  args : List (Option Argument) := []
  deriving DecidableEq

/-- The address or number that an operation yields. -/
def Op.argument? (symbols : SymbolTable) : Op → Option Argument
  | .symbolAddr symbol => symbols.names[symbol]?.map Argument.address
  | .iconst value => some (.number value)
  | _ => none

/-- A call without arguments. -/
def plainCall (symbols : SymbolTable) (routine : SymbolId) : RoutineCall :=
  ⟨symbols.names[routine]?.map .address, []⟩

namespace Func

/-- The address or number that a value is. -/
def argument? (symbols : SymbolTable) (f : Func) (v : Value) : Option Argument :=
  (f.defOp v).bind (Op.argument? symbols)

def call? (symbols : SymbolTable) (f : Func) : Op → Option RoutineCall
  | .call callee args => some ⟨f.argument? symbols callee, args.map (f.argument? symbols)⟩
  | _ => none

/-- The calls in a function, in the order in which they are listed. -/
def calls (symbols : SymbolTable) (f : Func) : List RoutineCall :=
  f.listed.filterMap fun i => f.insts[i]?.bind fun instruction => f.call? symbols instruction.op

end Func

theorem filterMap_range_getElem? {α β : Type} (l : List α) (view : α → Option β) :
    ((List.range l.length).filterMap fun i => l[i]?.bind view) = l.filterMap view := by
  induction l with
  | nil => rfl
  | cons a rest ih =>
      rw [List.length_cons, List.range_succ_eq_map, List.filterMap_cons, List.filterMap_map,
        List.filterMap_cons, List.getElem?_cons_zero, Option.bind_some]
      simp only [Function.comp_def, List.getElem?_cons_succ, ih]

/-! ### Own functions -/

section

variable {symbols : SymbolTable} {name : SymbolId} {ops : List Op}

theorem argument?_ownFunction {i : Nat} {op : Op} (h : ops[i]? = some op) :
    (ownFunction name ops).argument? symbols (.inst i) = op.argument? symbols := by
  have hlt := (List.getElem?_eq_some_iff.mp h).1
  have hinst : (ownFunction name ops).defInst (.inst i) = some { op := op, ty := op.addedTy } := by
    rw [Func.defInst, Value.inst?, Option.bind_some, getElem?_insts_ownFunction, List.getElem?_map,
      List.getElem?_append_left hlt, h]
    rfl
  rw [Func.argument?, Func.defOp, hinst]
  rfl

theorem calls_ownFunction : (ownFunction name ops).calls symbols =
    ops.filterMap ((ownFunction name ops).call? symbols) := by
  have hlength : ops.length + 1 = (ops ++ [Op.ret none]).length := by simp
  have hview : ∀ i : Nat, ((ownFunction name ops).insts[i]?.bind fun instruction =>
      (ownFunction name ops).call? symbols instruction.op) =
      (ops ++ [Op.ret none])[i]?.bind ((ownFunction name ops).call? symbols) := by
    intro i
    rw [getElem?_insts_ownFunction, List.getElem?_map, Option.bind_map]
    rfl
  simp only [Func.calls, listed_ownFunction, hview]
  rw [hlength, filterMap_range_getElem?, List.filterMap_append]
  exact List.append_nil _

variable {f : Func} {n : Nat}

theorem filterMap_plainCalls {routines : List SymbolId}
    (h : ∀ k op, (plainCalls n routines)[k]? = some op →
      f.argument? symbols (.inst (n + k)) = op.argument? symbols) :
    (plainCalls n routines).filterMap (f.call? symbols) = routines.map (plainCall symbols) := by
  induction routines generalizing n with
  | nil => rfl
  | cons routine rest ih =>
      have hcallee : f.argument? symbols (.inst n) = symbols.names[routine]?.map .address :=
        h 0 (.symbolAddr routine) rfl
      have hrest := ih fun k op hop => by
        rw [show n + 2 + k = n + (k + 2) by omega]
        exact h (k + 2) op hop
      simp only [plainCalls, List.filterMap_cons, Func.call?, hcallee, hrest, List.map_nil,
        List.map_cons, plainCall]

theorem filterMap_callCode {r : Registration} {routine : SymbolId}
    (h : ∀ k op, (r.callCode n routine)[k]? = some op →
      f.argument? symbols (.inst (n + k)) = op.argument? symbols) :
    (r.callCode n routine).filterMap (f.call? symbols) =
      [⟨symbols.names[routine]?.map .address, r.argCode.map (Op.argument? symbols)⟩] := by
  have hcallee : f.argument? symbols (.inst (n + r.argCode.length)) =
      symbols.names[routine]?.map .address := by
    refine h r.argCode.length (.symbolAddr routine) ?_
    rw [Registration.callCode, List.getElem?_append_right le_rfl, Nat.sub_self]
    rfl
  have hargs : ((List.range' n r.argCode.length).map Value.inst).map (f.argument? symbols) =
      r.argCode.map (Op.argument? symbols) := by
    apply List.ext_getElem
    · simp
    · intro k hk hk'
      rw [List.length_map] at hk'
      have hop := List.getElem?_eq_getElem hk'
      have hget := h k _ ((List.getElem?_append_left hk').trans hop)
      simpa using hget
  have hnone : r.argCode.filterMap (f.call? symbols) = [] := by
    rw [List.filterMap_eq_nil_iff]
    intro op hop
    rw [Registration.argCode, List.mem_append] at hop
    rcases hop with hop | hop
    · obtain ⟨symbol, -, rfl⟩ := List.mem_map.mp hop
      rfl
    · obtain ⟨count, -, rfl⟩ := Option.map_eq_some_iff.mp (Option.mem_toList.mp hop)
      rfl
  rw [Registration.callCode, List.filterMap_append, hnone, List.nil_append]
  simp only [List.filterMap_cons, List.filterMap_nil, Func.call?, hcallee, hargs]

theorem calls_plainCalls (routines : List SymbolId) :
    (ownFunction name (plainCalls 0 routines)).calls symbols =
      routines.map (plainCall symbols) := by
  rw [calls_ownFunction]
  refine filterMap_plainCalls fun k op hop => ?_
  rw [Nat.zero_add]
  exact argument?_ownFunction hop

theorem calls_callCode (symbols : SymbolTable) (name : SymbolId) (routines : List SymbolId)
    (routine : SymbolId) (r : Registration) :
    (ownFunction name (plainCalls 0 routines ++
        r.callCode (plainCalls 0 routines).length routine)).calls symbols =
      routines.map (plainCall symbols) ++
        [⟨symbols.names[routine]?.map .address, r.argCode.map (Op.argument? symbols)⟩] := by
  rw [calls_ownFunction, List.filterMap_append]
  congr 1
  · refine filterMap_plainCalls fun k op hop => ?_
    rw [Nat.zero_add]
    refine argument?_ownFunction ?_
    rw [List.getElem?_append_left (List.getElem?_eq_some_iff.mp hop).1]
    exact hop
  · refine filterMap_callCode fun k op hop => argument?_ownFunction ?_
    rw [List.getElem?_append_right (Nat.le_add_right _ _), Nat.add_sub_cancel_left]
    exact hop

end

/-! ### Constructor and destructor -/

namespace Annex

variable {config : Config} {a : Annex} {uses : RuntimeUses} {symbols : SymbolTable}

/-- Routines go by their names, whatever names are added behind them. -/
theorem names_useAll {names : List String}
    (h : (a.useAll uses names).1.module.symbols.GrowsTo symbols) :
    (a.useAll uses names).2.2.map (fun symbol => symbols.names[symbol]?) = names.map some := by
  induction names generalizing a uses with
  | nil => rfl
  | cons name rest ih =>
      have hrest : Makes 0 {} _ _ _ :=
        makes_useAll (a.use uses name []).1 (a.use uses name []).2.1 rest
      have hname := (hrest.keeps.symbols.trans h) _ _ (a.names_intern name)
      rw [List.map_cons, ← ih h]
      exact congrArg (· :: _) hname

theorem calls_makeCtor {registration : Option Registration}
    (h : (a.makeCtor config registration).1.module.symbols.GrowsTo symbols) :
    (a.makeCtor config registration).2.2.calls symbols =
      (starters config).map (fun name => ⟨some (.address name), []⟩) ++
        registration.toList.map fun r =>
          ⟨some (.address r.register), r.argCode.map (Op.argument? symbols)⟩ := by
  have hstarters : (a.start config).1.module.symbols.GrowsTo symbols →
      (a.start config).2.2.map (plainCall symbols) =
        (starters config).map fun name => ⟨some (.address name), []⟩ := by
    intro hgrows
    have hnames := congrArg (List.map fun name? : Option String =>
      (⟨name?.map .address, []⟩ : RoutineCall)) (names_useAll hgrows)
    rw [List.map_map, List.map_map] at hnames
    exact hnames
  cases registration with
  | none =>
      rw [makeCtor_none] at h ⊢
      rw [calls_plainCalls, hstarters h, Option.toList_none, List.map_nil, List.append_nil]
  | some r =>
      rw [makeCtor_some] at h ⊢
      dsimp only at h ⊢
      have huse : Makes 0 {} (fun _ => False) _ _ :=
        makes_use (a.start config).1 (a.start config).2.1 r.register r.params
      have hroutine : symbols.names[_]? = some r.register :=
        h _ _ ((a.start config).1.names_intern r.register)
      rw [calls_callCode, hstarters (huse.keeps.symbols.trans h), Annex.use, hroutine]
      rfl

theorem makeDtor_eq (a : Annex) (uses : RuntimeUses) (r : Registration) :
    a.makeDtor uses r =
      let first := a.intern EntryPoint.moduleDtor
      let second := first.1.use uses r.unregister r.params
      (second.1, second.2.1, ownFunction first.2 (r.callCode 0 second.2.2)) := rfl

theorem calls_makeDtor {r : Registration}
    (h : (a.makeDtor uses r).1.module.symbols.GrowsTo symbols) :
    (a.makeDtor uses r).2.2.calls symbols =
      [⟨some (.address r.unregister), r.argCode.map (Op.argument? symbols)⟩] := by
  rw [makeDtor_eq] at h ⊢
  dsimp only at h ⊢
  have hroutine : symbols.names[_]? = some r.unregister :=
    h _ _ ((a.intern EntryPoint.moduleDtor).1.names_intern r.unregister)
  have hcalls := calls_callCode symbols (a.intern EntryPoint.moduleDtor).2 []
    ((a.intern EntryPoint.moduleDtor).1.use uses r.unregister r.params).2.2 r
  rw [plainCalls, List.nil_append, List.length_nil] at hcalls
  rw [hcalls, Annex.use, hroutine]
  rfl

end Annex

end Redzone
