import Redzone.Proofs.Frame.ShadowPlan
import Redzone.Proofs.Frame.Steps

/-!
# What writes to the shadow do

The writes of a plan all put the bytes that it was given for their places, so their order does not
matter: a place ends up with its new byte, or with the old one if it was not wanted (`Plans.apply`),
and no other place changes (`Plans.apply_of_ne`).

The code of a plan does to memory what the plan says (`execLine_writesCoded`), if the runtime's
routines fill shadow memory as they are told (`FillsShadow`).  That is proved write by write: a
store is the code of one word (`execLine_coded`), and at any moment in between, a prefix of the
writes has been done, which is what the frame's code needs to know about the moments in which it is
interrupted.
-/

namespace Redzone

namespace ShadowWrite

/-! ### Memory -/

section

variable {v : Int} {memory : Memory} {write : ShadowWrite} {writes : List ShadowWrite} {k : Nat}

/-- Memory after a write to the shadow that starts at `v`. -/
def run (v : Int) (memory : Memory) (write : ShadowWrite) : Memory :=
  memory.write (toAddress (v + write.start)) write.bytes

/-- Memory after some writes, one after the other. -/
def runAll (v : Int) (memory : Memory) (writes : List ShadowWrite) : Memory :=
  writes.foldl (run v) memory

theorem run_of_ne {a : Nat}
    (h : ∀ k byte, write.byteAt? k = some byte → a ≠ toAddress (v + k)) :
    write.run v memory a = memory a := by
  apply Memory.write_apply_of_ne
  intro j hj
  rw [toAddress_add]
  exact h _ _ (byteAt?_eq_some_iff.mpr ⟨j, rfl, List.getElem?_eq_getElem hj⟩)

theorem run_apply (hbound : ∀ k byte, write.byteAt? k = some byte → k < addressSpace)
    (hk : k < addressSpace) :
    write.run v memory (toAddress (v + k)) =
      (write.byteAt? k).getD (memory (toAddress (v + k))) := by
  cases hbyte : write.byteAt? k with
  | none =>
      refine run_of_ne fun j byte hj heq => ?_
      obtain rfl := toAddress_add_inj hk (hbound j byte hj) heq
      rw [hbyte] at hj
      cases hj
  | some byte =>
      obtain ⟨j, rfl, hj⟩ := byteAt?_eq_some_iff.mp hbyte
      obtain ⟨hlt, rfl⟩ := List.getElem?_eq_some_iff.mp hj
      have hlength : write.bytes.length ≤ addressSpace := by
        by_contra hlong
        have hfar := hbound (write.start + addressSpace) _ (byteAt?_eq_some_iff.mpr
          ⟨addressSpace, rfl, List.getElem?_eq_getElem (Nat.not_le.mp hlong)⟩)
        omega
      rw [run, ← toAddress_add, Memory.write_apply_of_lt hlength hlt]
      rfl

theorem runAll_of_ne {a : Nat} (h : ∀ write ∈ writes, ∀ k byte,
    write.byteAt? k = some byte → a ≠ toAddress (v + k)) : runAll v memory writes a = memory a := by
  induction writes generalizing memory with
  | nil => rfl
  | cons write rest ih =>
      rw [List.forall_mem_cons] at h
      rw [runAll, List.foldl_cons, ← runAll, ih h.2, run_of_ne h.1]

/-- Writes that agree about a place leave there what they agree on, if one of them gets to it. -/
theorem runAll_apply (v : Int) (memory : Memory) {byte : UInt8}
    (hbound : ∀ write ∈ writes, ∀ k byte, write.byteAt? k = some byte → k < addressSpace)
    (hk : k < addressSpace)
    (hagree : ∀ write ∈ writes, ∀ byte', write.byteAt? k = some byte' → byte' = byte) :
    runAll v memory writes (toAddress (v + k)) = byte ∨
      (∀ write ∈ writes, write.byteAt? k = none) ∧
        runAll v memory writes (toAddress (v + k)) = memory (toAddress (v + k)) := by
  induction writes generalizing memory with
  | nil => exact .inr ⟨by simp, rfl⟩
  | cons write rest ih =>
      rw [List.forall_mem_cons] at hbound hagree
      rw [runAll, List.foldl_cons, ← runAll]
      rcases ih (write.run v memory) hbound.2 hagree.2 with hnew | ⟨hnone, hold⟩
      · exact .inl hnew
      · rw [hold, run_apply hbound.1 hk]
        cases hbyte : write.byteAt? k with
        | none => exact .inr ⟨by simpa [hbyte] using hnone, rfl⟩
        | some byte' => exact .inl (hagree.1 byte' hbyte)

variable {mask bytes : List UInt8} {first last : Nat}

theorem Plans.apply_of_ne (h : Plans mask bytes first last writes) {a : Nat}
    (ha : ∀ k, first ≤ k → k < last → a ≠ toAddress (v + k)) :
    runAll v memory writes a = memory a := by
  apply runAll_of_ne
  intro write hwrite k byte hbyte
  obtain ⟨hfirst, hlast, -⟩ := h.within write hwrite k byte hbyte
  exact ha k hfirst hlast

/-- A planned place ends up with its new byte, or with the old one if it was not wanted. -/
theorem Plans.apply (h : Plans mask bytes first last writes) (hlast : last ≤ addressSpace)
    {byte : UInt8} (hfirst : first ≤ k) (hk : k < last) (hbyte : bytes[k]? = some byte) :
    runAll v memory writes (toAddress (v + k)) = byte ∨ mask[k]? = some 0 ∧
      runAll v memory writes (toAddress (v + k)) = memory (toAddress (v + k)) := by
  have hbound : ∀ write ∈ writes, ∀ k byte, write.byteAt? k = some byte → k < addressSpace :=
    fun write hwrite k byte hbyte => (h.within write hwrite k byte hbyte).2.1.trans_le hlast
  have hagree : ∀ write ∈ writes, ∀ byte', write.byteAt? k = some byte' → byte' = byte := by
    intro write hwrite byte' hbyte'
    exact Option.some.inj ((h.within write hwrite k byte' hbyte').2.2.symm.trans hbyte)
  rcases runAll_apply v memory hbound (hk.trans_le hlast) hagree with
    hnew | ⟨hnone, hold⟩
  · exact .inl hnew
  · refine .inr ⟨?_, hold⟩
    by_contra hmask
    obtain ⟨write, hwrite, hsome⟩ := h.covers k hfirst hk hmask
    exact hsome (hnone write hwrite)

end

/-! ### Code -/

section

variable {x : Activation} {base : Value} {n : InstId} {v : Int} {write : ShadowWrite}
  {writes : List ShadowWrite} {ops : List Op}

/-- What is assumed of the routines that fill shadow memory. -/
def FillsShadow (machine : Machine) : Prop :=
  ∀ value ∈ EntryPoint.setShadowValues, ∀ (addr : Int) (length : Nat) (memory : Memory),
    ∃ result, machine.call (machine.address (EntryPoint.setShadow value)) [addr, length] memory =
      .returns result (memory.write (toAddress addr) (List.replicate length value))

theorem execLine_coded (hfills : FillsShadow x.machine) (hcoded : write.Coded x.symbols base n ops)
    (hcodable : write.Codable) (hbelow : base.Below n) {s : State} (hbase : s.env base = some v) :
    ∃ es t, execLine x n ops s = some (es, t) ∧ t.memory = write.run v s.memory ∧
      t.stack = s.stack ∧ ∀ e ∈ es, e.memory = s.memory ∨ e.memory = write.run v s.memory := by
  have hne : base ≠ .inst n := by
    rintro rfl
    exact lt_irrefl n hbelow
  cases hcoded with
  | store offset bytes =>
      simp [execLine, Op.exec, Op.keeps, Op.addedTy, Op.resultTy?, Env.set, hbase, hne, Arith.eval,
        Memory.writeInt, bytesOf_signed64 hcodable.2, run, start, ShadowWrite.bytes]
  | fill offset length value hroutine =>
      obtain ⟨result, hcall⟩ := hfills value hcodable (v + offset) length s.memory
      simp [execLine, Op.exec, Op.keeps, Op.addedTy, Op.resultTy?, Env.set, hbase, hne, Arith.eval,
        Activation.symbol, hroutine, hcall, run, start, ShadowWrite.bytes]

/-- The code of some writes does what they say.  At any moment some of them have been done. -/
theorem execLine_writesCoded (hfills : FillsShadow x.machine)
    (hcoded : WritesCoded x.symbols base n writes ops)
    (hcodable : ∀ write ∈ writes, write.Codable) (hbelow : base.Below n) {s : State}
    (hbase : s.env base = some v) :
    ∃ es t, execLine x n ops s = some (es, t) ∧ t.memory = runAll v s.memory writes ∧
      t.stack = s.stack ∧ ∀ e ∈ es, ∃ finished, finished <+: writes ∧
        e.memory = runAll v s.memory finished := by
  induction hcoded generalizing s with
  | nil n => exact ⟨[], s, rfl, rfl, rfl, by simp⟩
  | @cons n write writes ops others hfirst _ ih =>
      rw [List.forall_mem_cons] at hcodable
      obtain ⟨es, t, hline, hmemory, hstack, hevents⟩ :=
        execLine_coded hfills hfirst hcodable.1 hbelow hbase
      obtain ⟨es', u, hline', hmemory', hstack', hevents'⟩ := ih hcodable.2
        (hbelow.mono (Nat.le_add_right n _)) ((execLine_env hline hbelow).trans hbase)
      refine ⟨es ++ es', u, execLine_append hline hline', ?_, hstack'.trans hstack, ?_⟩
      · rw [hmemory', hmemory]
        rfl
      · rw [List.forall_mem_append]
        constructor
        · intro e he
          rcases hevents e he with hold | hnew
          · exact ⟨[], List.nil_prefix, hold⟩
          · exact ⟨[write], by simp, hnew⟩
        · intro e he
          obtain ⟨finished, hdone, hmem⟩ := hevents' e he
          refine ⟨write :: finished, by simpa using hdone, ?_⟩
          rw [hmem, hmemory]
          rfl

end

end ShadowWrite

end Redzone
