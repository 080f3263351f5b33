import Redzone.Json.Scan

/-!
# Reading records from JSON

A record is written as an object, or as an array of its fields in their order.  Fields that are
missing keep the values they have; an object may have members that the record does not know, but
none that it knows twice.
-/

namespace Redzone.Json

/-- Read a value of one kind: what is in front of it may be blank, and a text that ends there ends
too early. -/
def expect {α : Type} (read : Scanner α) : Scanner α := fun cs =>
  match skipBlank cs with
  | [] => .error .truncated
  | cs => read cs

def bool : Scanner Bool := expect fun
  | 't' :: rest => do
      let rest ← word ['r', 'u', 'e'] rest
      .ok (true, rest)
  | 'f' :: rest => do
      let rest ← word ['a', 'l', 's', 'e'] rest
      .ok (false, rest)
  | cs => .error (mismatch cs)

/-- A whole number that is at most `greatest`. -/
def bounded (greatest : Nat) : Number × List Char → Except ReadError (Nat × List Char)
  | (.natural value, rest) => if value ≤ greatest then .ok (value, rest) else .error .mismatched
  | (.other, _) => .error .mismatched

/-- Read a whole number that is at most `greatest`. -/
def natural (greatest : Nat) : Scanner Nat := expect fun cs =>
  match cs with
  | '-' :: rest => do
      let read ← number true rest
      bounded greatest read
  | c :: _ =>
      if isDigit c then do
        let read ← number false cs
        bounded greatest read
      else
        .error (mismatch cs)
  | [] => .error .truncated

def optional {α : Type} (read : Scanner α) : Scanner (Option α) := fun cs =>
  match skipBlank cs with
  | 'n' :: rest => do
      let rest ← word ['u', 'l', 'l'] rest
      .ok (none, rest)
  | cs => do
      let (value, rest) ← read cs
      .ok (some value, rest)

/-- Read one of some names, each of which stands for a value.  Where a name has to stand, anything
that is no string is malformed. -/
def name {α : Type} (names : List (String × α)) : Scanner α := expect fun
  | '"' :: rest => do
      let (text, rest) ← string rest
      match names.find? fun entry => entry.1.toList = text with
      | some entry => .ok (entry.2, rest)
      | none => .error .mismatched
  | _ => .error .malformed

def null : Scanner Unit := expect fun
  | 'n' :: rest => do
      let rest ← word ['u', 'l', 'l'] rest
      .ok ((), rest)
  | cs => .error (mismatch cs)

/-- Read a choice: a name, or an object with that name as its only key and null as its value. -/
def choice {α : Type} (names : List (String × α)) : Scanner α := expect fun cs =>
  match cs with
  | '"' :: _ => name names cs
  | '{' :: rest => do
      let (value, rest) ← name names rest
      let rest ← colon rest
      let (_, rest) ← null rest
      match skipBlank rest with
      | '}' :: rest => .ok (value, rest)
      | [] => .error .truncated
      | _ => .error .malformed
  | _ => .error .malformed

/-- A field of a record: its name, and how its value is read into the record. -/
structure Field (ρ : Type) where
  name : String
  read : ρ → Scanner ρ

/-- A field that is read on its own and then set. -/
def Field.of {ρ α : Type} (name : String) (read : Scanner α) (set : ρ → α → ρ) : Field ρ where
  name := name
  read := fun record cs => do
    let (value, rest) ← read cs
    .ok (set record value, rest)

/-- Read up to the opening quote of the next key of an object, or up to its end.  The answer is
whether there is a key, and the text behind the quote or behind the object. -/
def nextKey (first : Bool) : Scanner Bool := fun cs =>
  match skipBlank cs with
  | [] => .error .truncated
  | '}' :: rest => .ok (false, rest)
  | c :: rest =>
      if first then
        if c = '"' then .ok (true, rest) else .error .malformed
      else if c = ',' then
        match skipBlank rest with
        | '"' :: rest => .ok (true, rest)
        | [] => .error .truncated
        | _ => .error .malformed
      else
        .error .malformed

/-- Read the members of an object into a record, of whose fields `seen` have been read.  Each step
takes a member. -/
def members {ρ : Type} (fields : List (Field ρ)) :
    (steps : Nat) → (seen : List String) → (first : Bool) → ρ → Scanner ρ
  | 0, _, _, _, _ => .error .truncated
  | steps + 1, seen, first, record, cs => do
      match ← nextKey first cs with
      | (false, rest) => .ok (record, rest)
      | (true, rest) =>
          let (key, rest) ← string rest
          match fields.find? fun field => field.name.toList = key with
          | none =>
              let rest ← colon rest
              let rest ← skipValue rest
              members fields steps seen false record rest
          | some field =>
              if field.name ∈ seen then
                .error .mismatched
              else
                let rest ← colon rest
                let (record, rest) ← field.read record rest
                members fields steps (field.name :: seen) false record rest

/-- Go to the next element of an array; `none` if the array ends here. -/
def nextElement (first : Bool) (cs : List Char) : Except ReadError (Option (List Char)) :=
  match skipBlank cs with
  | [] => .error .truncated
  | c :: rest =>
      if c = ']' then
        .ok none
      else if first then
        .ok (some (c :: rest))
      else if c = ',' then
        match skipBlank rest with
        | [] => .error .truncated
        | ']' :: _ => .error .malformed
        | cs => .ok (some cs)
      else
        .error .malformed

/-- Read the end of an array. -/
def endArray (cs : List Char) : Except ReadError (List Char) :=
  match skipBlank cs with
  | [] => .error .truncated
  | ']' :: rest => .ok rest
  | _ => .error .malformed

/-- Read the elements of an array into the fields of a record, as far as there are elements. -/
def elements {ρ : Type} : (fields : List (Field ρ)) → (first : Bool) → ρ → Scanner ρ
  | [], _, record, cs => do
      let rest ← endArray cs
      .ok (record, rest)
  | field :: fields, first, record, cs => do
      match ← nextElement first cs with
      | none =>
          let rest ← endArray cs
          .ok (record, rest)
      | some cs =>
          let (record, rest) ← field.read record cs
          elements fields false record rest

def record {ρ : Type} (fields : List (Field ρ)) (initial : ρ) : Scanner ρ := expect fun cs =>
  match cs with
  | '[' :: rest => elements fields true initial rest
  | '{' :: rest => members fields (rest.length + 1) [] true initial rest
  | _ => .error (mismatch cs)

def whole {α : Type} (read : Scanner α) (text : String) : Except ReadError α := do
  let (value, rest) ← read text.toList
  match skipBlank rest with
  | [] => .ok value
  | _ => .error .malformed

end Redzone.Json
