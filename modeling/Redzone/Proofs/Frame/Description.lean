import Redzone.Layout.Frame

/-!
# What a frame's description tells

The parts of a description are divided by blanks, but a name may hold blanks and digits itself.  It
is the length in front of a name that says where the name ends, and it counts bytes, so the
description is read as bytes too.

`Description.decode` reads it back.  Its parts are readers that take a value off the front of some
bytes, and `Takes` says which bytes a reader takes if it is known what comes behind them: a number
must not be followed by a digit, an entry may be followed by anything.
-/

namespace Redzone

/-- What a description tells of a variable. -/
structure FrameEntry where
  offset : Nat
  size : Nat
  /-- The name in the source program, with the line if it is known. -/
  name : String
  deriving DecidableEq

/-- What the description of a frame has to tell of a variable. -/
def StackVariable.entry (var : StackVariable) : FrameEntry :=
  ⟨var.offset, var.size, var.displayName⟩

namespace Description

/-- The bytes of a text. -/
def utf8 (text : String) : List UInt8 := text.toUTF8.data.toList

/-- Takes a value off the front of some bytes. -/
abbrev Reader := StateT (List UInt8) Option

/-- Whether a byte is a decimal digit. -/
def isDigit (byte : UInt8) : Bool := 48 ≤ byte.toNat && byte.toNat ≤ 57

/-- The number that some digits write. -/
def ofDigits (digits : List UInt8) : Nat :=
  digits.foldl (fun number digit => 10 * number + (digit.toNat - 48)) 0

/-- A number has at least one digit and goes on as long as there are digits. -/
def number : Reader Nat := fun bytes =>
  if bytes.takeWhile isDigit = [] then
    none
  else
    some (ofDigits (bytes.takeWhile isDigit), bytes.dropWhile isDigit)

/-- A single blank. -/
def blank : Reader Unit := fun bytes =>
  if bytes.head? = some 32 then some ((), bytes.tail) else none

/-- A text of exactly `length` bytes. -/
def text (length : Nat) : Reader String := fun bytes =>
  if length ≤ bytes.length then
    (String.fromUTF8? (bytes.take length).toByteArray).map fun text => (text, bytes.drop length)
  else
    none

/-- Offset, size, length of the name and name, with a blank in front of each. -/
def entry : Reader FrameEntry := do
  blank
  let offset ← number
  blank
  let size ← number
  blank
  let length ← number
  blank
  let name ← text length
  return ⟨offset, size, name⟩

/-- So many entries. -/
def entries : Nat → Reader (List FrameEntry)
  | 0 => return []
  | count + 1 => do
      let first ← entry
      let rest ← entries count
      return first :: rest

/-- The entries of a description, which holds nothing else. -/
def decode (bytes : List UInt8) : Option (List FrameEntry) :=
  match (number >>= entries).run bytes with
  | some (found, []) => some found
  | _ => none

/-! ### Bytes of a text -/

theorem utf8_append (first second : String) :
    utf8 (first ++ second) = utf8 first ++ utf8 second := by
  simp [utf8, String.toByteArray_append]

theorem length_utf8 (text : String) : (utf8 text).length = text.utf8ByteSize := by
  simp [utf8, ← String.size_toByteArray]

theorem utf8_blank : utf8 " " = [32] := by decide

theorem utf8_ofList (chars : List Char) :
    utf8 (String.ofList chars) = chars.flatMap String.utf8EncodeChar := by
  simp [utf8, List.utf8Encode]

theorem fromUTF8?_utf8 (text : String) : String.fromUTF8? (utf8 text).toByteArray = some text := by
  have hbytes : (utf8 text).toByteArray = text.toByteArray := by
    apply ByteArray.ext
    simp [utf8]
  rw [hbytes, String.fromUTF8?, dif_pos text.isValidUTF8]
  rfl

/-! ### Digits -/

/-- A digit is a single byte. -/
theorem utf8EncodeChar_of_isDigit {c : Char} (h : c.isDigit = true) :
    String.utf8EncodeChar c = [UInt8.ofNat c.toNat] := by
  have hle : c.val.toNat ≤ 0x7f := Nat.le_trans (Char.isDigit_iff_toNat.mp h).2 (by decide)
  rw [String.utf8EncodeChar]
  exact if_pos hle

theorem toNat_of_isDigit {c : Char} (h : c.isDigit = true) :
    (UInt8.ofNat c.toNat).toNat = c.toNat ∧ isDigit (UInt8.ofNat c.toNat) = true := by
  obtain ⟨hlow, hhigh⟩ := Char.isDigit_iff_toNat.mp h
  have hlow : 48 ≤ c.toNat := hlow
  have hhigh : c.toNat ≤ 57 := hhigh
  have htoNat : (UInt8.ofNat c.toNat).toNat = c.toNat :=
    UInt8.toNat_ofNat_of_lt' (Nat.lt_of_le_of_lt hhigh (by decide))
  refine ⟨htoNat, ?_⟩
  rw [isDigit, htoNat, decide_eq_true hlow, decide_eq_true hhigh]
  rfl

/-- The digits of a number, as bytes. -/
def digits (n : Nat) : List UInt8 := (Nat.toDigits 10 n).map fun c => UInt8.ofNat c.toNat

theorem utf8_toString (n : Nat) : utf8 (toString n) = digits n := by
  rw [Nat.toString_eq_ofList_toDigits, utf8_ofList, digits, List.map_eq_flatMap, List.flatMap_def,
    List.flatMap_def]
  congr 1
  apply List.map_congr_left
  intro c hc
  exact utf8EncodeChar_of_isDigit (Nat.isDigit_of_mem_toDigits (by decide) (by decide) hc)

theorem isDigit_of_mem_digits {n : Nat} {byte : UInt8} (h : byte ∈ digits n) :
    isDigit byte = true := by
  obtain ⟨c, hc, rfl⟩ := List.mem_map.mp h
  exact (toNat_of_isDigit (Nat.isDigit_of_mem_toDigits (by decide) (by decide) hc)).2

theorem digits_ne_nil (n : Nat) : digits n ≠ [] := by
  simp [digits]

/-- Digits are read in the order in which they are written. -/
theorem foldl_digits {chars : List Char} (h : ∀ c ∈ chars, c.isDigit = true) (start : Nat) :
    (chars.map fun c => UInt8.ofNat c.toNat).foldl
        (fun number digit => 10 * number + (digit.toNat - 48)) start =
      Nat.ofDigitChars 10 chars start := by
  induction chars generalizing start with
  | nil => simp
  | cons c rest ih =>
      rw [List.forall_mem_cons] at h
      rw [List.map_cons, List.foldl_cons, Nat.ofDigitChars_cons, (toNat_of_isDigit h.1).1]
      exact ih h.2 _

theorem ofDigits_digits (n : Nat) : ofDigits (digits n) = n :=
  calc ofDigits (digits n) = Nat.ofDigitChars 10 (Nat.toDigits 10 n) 0 :=
        foldl_digits (fun _ => Nat.isDigit_of_mem_toDigits (by decide) (by decide)) 0
    _ = n := Nat.ofDigitChars_ten_toDigits

/-! ### What readers take -/

section Takes

variable {α β : Type} {bytes more rest : List UInt8} {a : α} {b : β}

/-- The reader takes `bytes` for the value `a` where `rest` comes behind them. -/
def Takes (reader : Reader α) (bytes : List UInt8) (a : α) (rest : List UInt8) : Prop :=
  reader.run (bytes ++ rest) = some (a, rest)

theorem Takes.bind {reader : Reader α} {next : α → Reader β}
    (h : Takes reader bytes a (more ++ rest)) (h' : Takes (next a) more b rest) :
    Takes (reader >>= next) (bytes ++ more) b rest := by
  unfold Takes at *
  rw [StateT.run_bind, List.append_assoc, h]
  exact h'

/-- A reader that looks at nothing more changes the value only. -/
theorem Takes.bind_pure {reader : Reader α} {next : α → β} (h : Takes reader bytes a rest) :
    Takes (reader >>= fun a => pure (next a)) bytes (next a) rest := by
  unfold Takes at *
  rw [StateT.run_bind, h]
  rfl

theorem takes_blank (rest : List UInt8) : Takes blank (utf8 " ") () rest := by
  rw [utf8_blank]
  rfl

theorem takes_number (n : Nat) (hrest : ∀ byte, rest.head? = some byte → isDigit byte = false) :
    Takes number (utf8 (toString n)) n rest := by
  have hall : ∀ byte ∈ digits n, isDigit byte = true := fun _ => isDigit_of_mem_digits
  have hstop : rest.takeWhile isDigit = [] ∧ rest.dropWhile isDigit = rest := by
    cases rest with
    | nil => exact ⟨rfl, rfl⟩
    | cons byte rest =>
        have hbyte := hrest byte rfl
        simp [hbyte]
  have htake : (digits n ++ rest).takeWhile isDigit = digits n := by
    rw [List.takeWhile_append_of_pos hall, hstop.1, List.append_nil]
  have hdrop : (digits n ++ rest).dropWhile isDigit = rest := by
    rw [List.dropWhile_append_of_pos hall, hstop.2]
  rw [utf8_toString]
  show number (digits n ++ rest) = _
  rw [number, htake, hdrop, if_neg (digits_ne_nil n), ofDigits_digits]

theorem takes_text (name : String) (rest : List UInt8) :
    Takes (text name.utf8ByteSize) (utf8 name) name rest := by
  have hlength := length_utf8 name
  show text name.utf8ByteSize (utf8 name ++ rest) = _
  rw [text, ← hlength, if_pos (by simp), List.take_left, List.drop_left, fromUTF8?_utf8]
  rfl

/-- A number behind a blank and in front of one. -/
theorem takes_field (n : Nat) {next : Nat → Reader β}
    (h : Takes (next n) (utf8 " " ++ more) b rest) :
    Takes (blank >>= fun _ => number >>= next)
      (utf8 " " ++ (utf8 (toString n) ++ (utf8 " " ++ more)))
      b rest := by
  apply Takes.bind (takes_blank _)
  refine Takes.bind (takes_number n fun byte hbyte => ?_) h
  rw [utf8_blank] at hbyte
  obtain rfl : 32 = byte := by simpa using hbyte
  decide

end Takes

theorem utf8_description (var : StackVariable) :
    utf8 var.description =
      utf8 " " ++ (utf8 (toString var.offset) ++ (utf8 " " ++ (utf8 (toString var.size) ++
        (utf8 " " ++ (utf8 (toString var.displayName.utf8ByteSize) ++
          (utf8 " " ++ utf8 var.displayName)))))) := by
  rw [StackVariable.description]
  simp only [utf8_append, List.append_assoc]
  rfl

theorem takes_entry (var : StackVariable) (rest : List UInt8) :
    Takes entry (utf8 var.description) var.entry rest := by
  rw [utf8_description]
  apply takes_field
  apply takes_field
  apply takes_field
  apply Takes.bind (takes_blank _)
  exact (takes_text _ rest).bind_pure

theorem takes_entries (vars : List StackVariable) (rest : List UInt8) :
    Takes (entries vars.length) (utf8 (String.join (vars.map StackVariable.description)))
      (vars.map StackVariable.entry) rest := by
  induction vars with
  | nil => rfl
  | cons var vars ih =>
      rw [List.map_cons, String.join_cons, utf8_append]
      exact (takes_entry var _).bind ih.bind_pure

theorem head?_join_description {vars : List StackVariable} {byte : UInt8}
    (h : (utf8 (String.join (vars.map StackVariable.description))).head? = some byte) :
    isDigit byte = false := by
  cases vars with
  | nil => cases h
  | cons var vars =>
      rw [List.map_cons, String.join_cons, utf8_append, utf8_description, utf8_blank] at h
      obtain rfl : 32 = byte := by simpa using h
      decide

theorem decode_utf8_description (frame : Frame) :
    decode (utf8 frame.description) = some (frame.vars.map StackVariable.entry) := by
  have htakes : Takes (number >>= entries) (utf8 frame.description)
      (frame.vars.map StackVariable.entry) [] := by
    rw [Frame.description, utf8_append]
    refine Takes.bind (takes_number _ fun byte hbyte => ?_) (takes_entries _ [])
    rw [List.append_nil] at hbyte
    exact head?_join_description hbyte
  unfold Takes at htakes
  rw [List.append_nil] at htakes
  rw [decode, htakes]

end Description

/-- The part of a description that an entry is read from. -/
def FrameEntry.text (entry : FrameEntry) : String :=
  s!" {entry.offset} {entry.size} {entry.name.utf8ByteSize} {entry.name}"

theorem Frame.description_eq_entries (frame : Frame) :
    frame.description = s!"{(frame.vars.map StackVariable.entry).length}" ++
      String.join ((frame.vars.map StackVariable.entry).map FrameEntry.text) := by
  rw [List.length_map, List.map_map]
  rfl

/-- A description tells the offset, the size and the name of every variable in order, whatever the
names hold, and nothing else: frames have the same description exactly if they agree in that. -/
theorem Frame.description_unambiguous (frame other : Frame) :
    Description.decode (Description.utf8 frame.description) =
        some (frame.vars.map StackVariable.entry) ∧
      (frame.description = other.description ↔
        frame.vars.map StackVariable.entry = other.vars.map StackVariable.entry) := by
  refine ⟨Description.decode_utf8_description frame, fun h => ?_, fun h => ?_⟩
  · apply Option.some.inj
    rw [← Description.decode_utf8_description, h, Description.decode_utf8_description]
  · rw [description_eq_entries, h, ← description_eq_entries]

-- a name that looks like an entry, and a name without letters
example : Description.decode (Description.utf8 "2 32 8 10 a 64 4 1 b 64 4 0 ") =
    some [⟨32, 8, "a 64 4 1 b"⟩, ⟨64, 4, ""⟩] := by
  decide +kernel

end Redzone
