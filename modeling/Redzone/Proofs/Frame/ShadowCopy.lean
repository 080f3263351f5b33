import Redzone.Proofs.Frame.Path
import Redzone.Proofs.Progress.Frame

/-!
# Shadow bytes are copied as asked

Executing the code of a plan writes what is wanted, may write what is not, and leaves everything
outside the range alone (`plan_copies`).

What is in memory in the end is known from the plan (`Plans.copies`).  What the code accesses on the
way is read off each piece of it (`access_of_coded`): a routine's call accesses nothing by itself,
and a store accesses the bytes that the plan has for it, which are 1, 2, 4 or 8 and within the
range.
-/

namespace Redzone

namespace ShadowWrite

variable {first last : Nat} {write : ShadowWrite}

/-! ### What writes access -/

section

variable {x : Activation} {base : Value} {n : InstId} {v : Int} {writes : List ShadowWrite}
  {ops : List Op} {s t : State} {es : List Event}

theorem access_of_coded (hfills : FillsShadow x.machine) (hcoded : write.Coded x.symbols base n ops)
    (hcodable : write.Codable) (hbelow : base.Below n) (hbase : s.env base = some v)
    (hline : execLine x n ops s = some (es, t)) :
    ∀ e ∈ es, ∀ access, e.access = some access → ∃ offset bytes,
      write = store offset bytes ∧ access = (toAddress (v + offset), bytes.length) := by
  have hne : base ≠ .inst n := by
    rintro rfl
    exact lt_irrefl n hbelow
  cases hcoded with
  | store offset bytes =>
      simp [execLine, Op.exec, Op.keeps, Op.addedTy, Op.resultTy?, Env.set, hbase, hne,
        Arith.eval] at hline
      obtain ⟨rfl, -⟩ := hline
      simp
  | fill offset length value hroutine =>
      obtain ⟨result, hcall⟩ := hfills value hcodable (v + offset) length s.memory
      simp [execLine, Op.exec, Op.keeps, Op.addedTy, Op.resultTy?, Env.set, hbase, hne, Arith.eval,
        Activation.symbol, hroutine, hcall] at hline
      obtain ⟨rfl, -⟩ := hline
      simp

theorem access_of_writesCoded (hfills : FillsShadow x.machine)
    (hcoded : WritesCoded x.symbols base n writes ops)
    (hcodable : ∀ write ∈ writes, write.Codable) (hbelow : base.Below n)
    (hbase : s.env base = some v) (hline : execLine x n ops s = some (es, t)) :
    ∀ e ∈ es, ∀ access, e.access = some access → ∃ offset bytes,
      store offset bytes ∈ writes ∧ access = (toAddress (v + offset), bytes.length) := by
  induction hcoded generalizing s es with
  | nil n =>
      cases hline
      simp
  | @cons n write writes ops others hfirst _ ih =>
      rw [List.forall_mem_cons] at hcodable
      obtain ⟨es, es', u, rfl, hhead, htail⟩ := execLine_append_eq_some hline
      rw [List.forall_mem_append]
      constructor
      · intro e he access haccess
        obtain ⟨offset, bytes, rfl, heq⟩ :=
          access_of_coded hfills hfirst hcodable.1 hbelow hbase hhead e he access haccess
        exact ⟨offset, bytes, List.mem_cons_self, heq⟩
      · intro e he access haccess
        obtain ⟨offset, bytes, hmem, heq⟩ := ih hcodable.2 (hbelow.mono (Nat.le_add_right n _))
          ((execLine_env hhead hbelow).trans hbase) htail e he access haccess
        exact ⟨offset, bytes, List.mem_cons_of_mem write hmem, heq⟩

end

/-! ### Plans -/

/-- Memory behind `v` where bytes were copied from `first` to `last`: those that the mask wants have
been written, others may have been, and nothing else is different. -/
structure Copies (mask bytes : List UInt8) (first last : Nat) (v : Int) (before after : Memory) :
    Prop where
  wanted : ∀ k byte, first ≤ k → k < last → mask[k]? ≠ some 0 → bytes[k]? = some byte →
    after (toAddress (v + k)) = byte
  unwanted : ∀ k byte, first ≤ k → k < last → mask[k]? = some 0 → bytes[k]? = some byte →
    after (toAddress (v + k)) = before (toAddress (v + k)) ∨ after (toAddress (v + k)) = byte
  outside : ∀ a, (∀ k, first ≤ k → k < last → a ≠ toAddress (v + k)) → after a = before a

theorem Plans.copies {mask bytes : List UInt8} {writes : List ShadowWrite}
    (h : Plans mask bytes first last writes) (hlast : last ≤ addressSpace) (v : Int)
    (memory : Memory) : Copies mask bytes first last v memory (runAll v memory writes) where
  wanted k byte hfirst hk hmask hbyte := by
    rcases h.apply hlast hfirst hk hbyte with hnew | ⟨hzero, -⟩
    · exact hnew
    · exact absurd hzero hmask
  unwanted k byte hfirst hk _ hbyte := by
    rcases h.apply hlast hfirst hk hbyte with hnew | ⟨-, hold⟩
    · exact .inr hnew
    · exact .inl hold
  outside a ha := h.apply_of_ne ha

/-- Every range of bytes can be copied to the shadow.  A function that lists the code of the writes
runs through it, has copied the bytes then, and on the way has only made stores of 1, 2, 4 or 8
bytes within the range. -/
theorem plan_copies {maxInline first last : Nat} {mask bytes : List UInt8}
    (hlength : mask.length = bytes.length) (hlast : last ≤ mask.length)
    (hspace : mask.length ≤ addressSpace) :
    ∃ writes, plan maxInline mask bytes first last = .ok writes ∧
      (∀ write ∈ writes, write.Fits first last) ∧
      ∀ (d : Draft) (n : InstId) (base : Value) (f : Func) (x : Activation) (s : State) (v : Int)
        (rest : List InstId), base.Below n → f.Holds n (d.writesCode n base writes).2 →
        (d.writesCode n base writes).1.symbols.GrowsTo x.symbols → FillsShadow x.machine →
        s.env base = some v →
        s.rest = List.range' n (d.writesCode n base writes).2.length ++ rest →
        ∃ es t, f.Runs x s es t ∧ t.rest = rest ∧
          Copies mask bytes first last v s.memory t.memory ∧
          ∀ e ∈ es, ∀ addr width, e.access = some (addr, width) →
            width ∈ [1, 2, 4, 8] ∧
              ∃ k, first ≤ k ∧ k + width ≤ last ∧ addr = toAddress (v + k) := by
  obtain ⟨writes, hplan, hplans⟩ := exists_plan maxInline first hlength hlast
  refine ⟨writes, hplan, hplans.fits, ?_⟩
  intro d n base f x s v rest hbelow hholds hgrows hfills hbase hrest
  obtain ⟨-, -, hcoded⟩ := d.writesCode_spec n base writes
  replace hcoded := hcoded.mono hgrows
  obtain ⟨es, t, hline, hmemory, -, -⟩ :=
    execLine_writesCoded hfills hcoded hplans.codable hbelow hbase
  obtain ⟨hruns, hrest'⟩ := runs_of_execLine hholds hrest hline
  refine ⟨es, t, hruns, hrest', ?_, ?_⟩
  · rw [hmemory]
    exact hplans.copies (hlast.trans hspace) v s.memory
  · intro e he addr width haccess
    obtain ⟨offset, bytes', hmem, heq⟩ :=
      access_of_writesCoded hfills hcoded hplans.codable hbelow hbase hline e he _ haccess
    obtain ⟨rfl, rfl⟩ := Prod.mk.inj heq
    obtain ⟨hwidth, hfirst, hend⟩ := hplans.fits _ hmem
    exact ⟨hwidth, offset, hfirst, hend, rfl⟩

end ShadowWrite

/-- The shadow of a frame with a redzone on each side. -/
def fencedShadow : List UInt8 := [0xf1, 0xf1, 0xf1, 0xf1, 0, 0, 0xf3, 0xf3]

theorem plan_copies_fenced :
    ∃ writes, ShadowWrite.plan 4 fencedShadow fencedShadow 0 7 = .ok writes ∧
      ∃ (f : Func) (x : Activation) (s t : State) (es : List Event), f.Runs x s es t ∧
        t.rest = [] ∧ t.memory 4096 = 0xf1 ∧ t.memory 4102 = 0xf3 ∧
        t.memory 4103 = s.memory 4103 := by
  obtain ⟨writes, hplan, -, hruns⟩ := @ShadowWrite.plan_copies 4 0 7 fencedShadow fencedShadow rfl
    (by decide) (by decide)
  refine ⟨writes, hplan, ?_⟩
  let d : Draft := { func := { name := 0, params := [], ret := none }, symbols := .empty }
  let code := d.writesCode 1 (.inst 0) writes
  let f : Func :=
    { name := 0, params := [], ret := none,
      insts := (⟨.iconst 4096, .int, [], true⟩ :: addedCode [] code.2).toArray }
  let x : Activation := ⟨Module.fillingMachine, code.1.symbols, []⟩
  let s : State := ⟨List.range' 1 code.2.length, fun _ => some 4096, fun _ => 0, 0⟩
  have hholds : f.Holds 1 code.2 := by
    intro k op hop
    refine ⟨[], ?_⟩
    rw [List.getElem?_toArray, Nat.add_comm, List.getElem?_cons_succ, addedCode, List.getElem?_map,
      hop, Option.map_some]
  obtain ⟨es, t, hrun, hrest, hcopies, -⟩ := hruns d 1 (.inst 0) f x s 4096 [] Nat.one_pos hholds
    (.refl _) Module.fillsShadow_fillingMachine rfl (List.append_nil _).symm
  refine ⟨f, x, s, t, es, hrun, hrest, ?_, ?_, ?_⟩
  · exact hcopies.wanted 0 0xf1 (by decide) (by decide) (by decide) rfl
  · exact hcopies.wanted 6 0xf3 (by decide) (by decide) (by decide) rfl
  · refine hcopies.outside 4103 fun k _ hk => ?_
    have hlt : 4096 + k < addressSpace := by
      unfold addressSpace
      omega
    have haddress : toAddress (4096 + k) = 4096 + k := by exact_mod_cast toAddress_natCast hlt
    omega

end Redzone
