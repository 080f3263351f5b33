/-!
# Scanning JSON text

Scanners take the text that is left and return what they read together with the text behind it.  The
first thing that is wrong decides the error: the text ends too early, it is not JSON, or it is JSON
of a kind that is not wanted here.

A value that nobody asked for is skipped.  Skipping follows the grammar and nothing else: a number
may have any magnitude and an escape may name half of a surrogate pair.
-/

namespace Redzone.Json

/-- What is wrong with a text. -/
inductive ReadError
  /-- The text ends before the value does. -/
  | truncated
  /-- The text is not JSON. -/
  | malformed
  /-- The text is JSON, but not of the kind that is wanted. -/
  | mismatched
  deriving DecidableEq

/-- A scanner: from the text that is left to a result and the text behind it. -/
abbrev Scanner (α : Type) := List Char → Except ReadError (α × List Char)

/-- Whether a character may stand between tokens. -/
def isBlank (c : Char) : Bool := c = ' ' || c = '\n' || c = '\t' || c = '\r'

/-- Skip what stands between tokens. -/
def skipBlank (cs : List Char) : List Char := cs.dropWhile isBlank

/-- Read the rest of a word. -/
def word : List Char → List Char → Except ReadError (List Char)
  | [], cs => .ok cs
  | _ :: _, [] => .error .truncated
  | expected :: rest, c :: cs => if c = expected then word rest cs else .error .malformed

/-! ### Strings -/

def hexDigit? (c : Char) : Option Nat :=
  if '0' ≤ c ∧ c ≤ '9' then some (c.toNat - 48)
  else if 'a' ≤ c ∧ c ≤ 'f' then some (c.toNat - 87)
  else if 'A' ≤ c ∧ c ≤ 'F' then some (c.toNat - 55)
  else none

/-- The text is too short, in bytes, to hold four digits. -/
def tooShort (cs : List Char) : Bool := (String.ofList cs).utf8ByteSize < 4

def hex4 (cs : List Char) : Except ReadError (Nat × List Char) :=
  match cs with
  | a :: b :: c :: d :: rest =>
      match hexDigit? a, hexDigit? b, hexDigit? c, hexDigit? d with
      | some a, some b, some c, some d => .ok (((a * 16 + b) * 16 + c) * 16 + d, rest)
      | _, _, _, _ => .error .malformed
  | _ => if tooShort cs then .error .truncated else .error .malformed

/-- The character that a one-letter escape stands for. -/
def plainEscape? : Char → Option Char
  | '"' => some '"'
  | '\\' => some '\\'
  | '/' => some '/'
  | 'b' => some '\x08'
  | 'f' => some '\x0c'
  | 'n' => some '\n'
  | 'r' => some '\r'
  | 't' => some '\t'
  | _ => none

/-- Whether a number is the first half of a surrogate pair. -/
def isHighSurrogate (n : Nat) : Bool := 0xd800 ≤ n && n ≤ 0xdbff

/-- Whether a number is the second half of a surrogate pair. -/
def isLowSurrogate (n : Nat) : Bool := 0xdc00 ≤ n && n ≤ 0xdfff

/-- Read the second half of a surrogate pair, an escape of its own. -/
def lowSurrogate : List Char → Except ReadError (Nat × List Char)
  | [] => .error .truncated
  | '\\' :: [] => .error .truncated
  | '\\' :: 'u' :: rest => do
      let (low, rest) ← hex4 rest
      if isLowSurrogate low then .ok (low, rest) else .error .malformed
  | _ => .error .malformed

/-- Read an escape behind its backslash. -/
def escape : Scanner Char
  | [] => .error .truncated
  | 'u' :: rest => do
      let (high, rest) ← hex4 rest
      if isLowSurrogate high then
        .error .malformed
      else if isHighSurrogate high then
        let (low, rest) ← lowSurrogate rest
        .ok (Char.ofNat ((high - 0xd800) * 0x400 + (low - 0xdc00) + 0x10000), rest)
      else
        .ok (Char.ofNat high, rest)
  | c :: rest =>
      match plainEscape? c with
      | some plain => .ok (plain, rest)
      | none => .error .malformed

/-- Skip an escape behind its backslash. -/
def skipEscape : List Char → Except ReadError (List Char)
  | [] => .error .truncated
  | 'u' :: rest => do
      let (_, rest) ← hex4 rest
      .ok rest
  | c :: rest => if (plainEscape? c).isSome then .ok rest else .error .malformed

/-- Read a string behind its opening quote.  Each step takes at least one character, so that as many
steps as there are characters are enough. -/
def stringFrom : (steps : Nat) → Scanner (List Char)
  | _, [] => .error .truncated
  | 0, _ => .error .truncated
  | steps + 1, c :: rest =>
      if c = '"' then
        .ok ([], rest)
      else if c = '\\' then do
        let (plain, rest) ← escape rest
        let (text, rest) ← stringFrom steps rest
        .ok (plain :: text, rest)
      else if c.toNat < 32 then
        .error .malformed
      else do
        let (text, rest) ← stringFrom steps rest
        .ok (c :: text, rest)

/-- Read a string behind its opening quote. -/
def string : Scanner (List Char) := fun cs => stringFrom cs.length cs

/-- Skip a string behind its opening quote. -/
def skipStringFrom : (steps : Nat) → List Char → Except ReadError (List Char)
  | _, [] => .error .truncated
  | 0, _ => .error .truncated
  | steps + 1, c :: rest =>
      if c = '"' then
        .ok rest
      else if c = '\\' then do
        let rest ← skipEscape rest
        skipStringFrom steps rest
      else if c.toNat < 32 then
        .error .malformed
      else
        skipStringFrom steps rest

/-- Skip a string behind its opening quote. -/
def skipString (cs : List Char) : Except ReadError (List Char) := skipStringFrom cs.length cs

/-! ### Numbers -/

def isDigit (c : Char) : Bool := '0' ≤ c && c ≤ '9'

def digitValue (c : Char) : Nat := c.toNat - 48

/-- Skip the digits of an integer, which has no superfluous zero in front. -/
def skipDigits : List Char → Except ReadError (List Char)
  | [] => .error .malformed
  | c :: rest =>
      if c = '0' then
        if rest.head?.any isDigit then .error .malformed else .ok rest
      else if isDigit c then
        .ok (rest.dropWhile isDigit)
      else
        .error .malformed

/-- Skip an exponent behind its letter. -/
def skipExponent (cs : List Char) : Except ReadError (List Char) :=
  let cs := match cs with
    | '+' :: rest => rest
    | '-' :: rest => rest
    | cs => cs
  if cs.head?.any isDigit then .ok (cs.dropWhile isDigit) else .error .malformed

/-- Skip the exponent of a number, if it has one. -/
def skipScale : List Char → Except ReadError (List Char)
  | 'e' :: rest => skipExponent rest
  | 'E' :: rest => skipExponent rest
  | cs => .ok cs

/-- Skip a number behind its sign. -/
def skipNumber (cs : List Char) : Except ReadError (List Char) := do
  match ← skipDigits cs with
  | '.' :: rest =>
      if rest.head?.any isDigit then skipScale (rest.dropWhile isDigit) else .error .malformed
  | rest => skipScale rest

/-- A number as far as a reader of whole numbers has to know it. -/
inductive Number
  | natural (value : Nat)
  /-- A number with a sign, a fraction or an exponent, or too large for a word. -/
  | other
  deriving DecidableEq

/-- The largest whole number. -/
def maxNatural : Nat := 0xffffffffffffffff

/-- Append digits to a number while it fits a word.  Returns also how many did not fit. -/
def absorb (value : Nat) : List Char → Nat × Nat
  | [] => (value, 0)
  | c :: rest =>
      if value * 10 + digitValue c ≤ maxNatural then
        absorb (value * 10 + digitValue c) rest
      else
        (value, rest.length + 1)

/-- The nearest number with 53 significant bits, to even if there are two. -/
def round53 (n : Nat) : Nat :=
  let shift := n.log2 - 52
  let unit := 1 <<< shift
  let quotient := n / unit
  let remainder := n % unit
  let up := unit < 2 * remainder || (unit = 2 * remainder && quotient % 2 = 1)
  (if up then quotient + 1 else quotient) * unit

/-- Whether `significand * 10 ^ exponent` is too large for a double, computed by a product of two
doubles. -/
def overflows (significand : Nat) (exponent : Int) : Bool :=
  significand ≠ 0 && 0 ≤ exponent &&
    (308 < exponent ||
      1 <<< 1024 ≤ round53 (round53 significand * round53 (Nat.pow 10 exponent.toNat)))

/-- A number that is too large for a double is no JSON that can be read. -/
def real (significand : Nat) (exponent : Int) (rest : List Char) :
    Except ReadError (Number × List Char) :=
  if overflows significand exponent then .error .malformed else .ok (.other, rest)

/-- Read an exponent behind its letter, for a number that has `exponent` already. -/
def exponentPart (significand : Nat) (exponent : Int) (cs : List Char) :
    Except ReadError (Number × List Char) :=
  let (negative, cs) := match cs with
    | '+' :: rest => (false, rest)
    | '-' :: rest => (true, rest)
    | cs => (false, cs)
  match cs with
  | [] => .error .truncated
  | c :: _ =>
      if isDigit c then
        let value : Nat := (cs.takeWhile isDigit).foldl (fun n d => n * 10 + digitValue d) 0
        let rest := cs.dropWhile isDigit
        real significand (if negative then exponent - value else exponent + value) rest
      else
        .error .malformed

/-- Read the exponent of a number, if it has one. -/
def scalePart (significand : Nat) (exponent : Int) :
    List Char → Except ReadError (Number × List Char)
  | 'e' :: rest => exponentPart significand exponent rest
  | 'E' :: rest => exponentPart significand exponent rest
  | cs => real significand exponent cs

/-- Read a fraction behind its point. -/
def fractionPart (significand : Nat) (exponent : Int) (cs : List Char) :
    Except ReadError (Number × List Char) :=
  let digits := cs.takeWhile isDigit
  match digits, cs with
  | [], [] => .error .truncated
  | [], _ :: _ => .error .malformed
  | _, _ =>
      let (significand, left) := absorb significand digits
      scalePart significand (exponent - (digits.length - left : Nat)) (cs.dropWhile isDigit)

/-- Read what follows the digits of a number whose whole part is `significand`, `left` of its digits
apart. -/
def numberTail (negative : Bool) (significand left : Nat) :
    List Char → Except ReadError (Number × List Char)
  | '.' :: rest => fractionPart significand left rest
  | cs =>
      match cs with
      | 'e' :: rest => exponentPart significand left rest
      | 'E' :: rest => exponentPart significand left rest
      | cs =>
          if left ≠ 0 then real significand left cs
          else .ok (if negative then .other else .natural significand, cs)

/-- Read a number behind its sign. -/
def number (negative : Bool) : Scanner Number
  | [] => .error .truncated
  | c :: rest =>
      if c = '0' then
        if rest.head?.any isDigit then .error .malformed else numberTail negative 0 0 rest
      else if isDigit c then
        let digits := (c :: rest).takeWhile isDigit
        let (significand, left) := absorb 0 digits
        numberTail negative significand left ((c :: rest).dropWhile isDigit)
      else
        .error .malformed

/-! ### Values that are not wanted -/

/-- Skip a value that is neither an array nor an object. -/
def skipScalar : List Char → Except ReadError (List Char)
  | [] => .error .truncated
  | 'n' :: rest => word ['u', 'l', 'l'] rest
  | 't' :: rest => word ['r', 'u', 'e'] rest
  | 'f' :: rest => word ['a', 'l', 's', 'e'] rest
  | '-' :: rest => skipNumber rest
  | '"' :: rest => skipString rest
  | c :: rest => if isDigit c then skipNumber (c :: rest) else .error .malformed

/-- Read the colon behind a key. -/
def colon (cs : List Char) : Except ReadError (List Char) :=
  match skipBlank cs with
  | ':' :: rest => .ok rest
  | [] => .error .truncated
  | _ => .error .malformed

/-- Skip a key and the colon behind it. -/
def skipKey (cs : List Char) : Except ReadError (List Char) :=
  match skipBlank cs with
  | '"' :: rest => do
      let rest ← skipString rest
      colon rest
  | [] => .error .truncated
  | _ => .error .malformed

/-- What is open around a value. -/
inductive Bracket
  | array
  | object
  deriving DecidableEq

/-- The bracket that closes an array or an object. -/
def Bracket.close : Bracket → Char
  | .array => ']'
  | .object => '}'

/-- Where in a value one is. -/
inductive Stage
  /-- In front of a value. -/
  | value
  /-- Behind an opening bracket. -/
  | opened
  /-- Behind a value. -/
  | behind

/-- Skip what is left of a value, when `brackets` are open, the innermost one first.  Of two steps
at least one takes a character. -/
def skipFrom : (steps : Nat) → Stage → (brackets : List Bracket) → List Char →
    Except ReadError (List Char)
  | 0, _, _, _ => .error .truncated
  | steps + 1, stage, brackets, cs =>
      match stage, brackets, skipBlank cs with
      | .value, _, [] => .error .truncated
      | .value, _, '[' :: rest => skipFrom steps .opened (.array :: brackets) rest
      | .value, _, '{' :: rest => skipFrom steps .opened (.object :: brackets) rest
      | .value, _, cs => do
          let rest ← skipScalar cs
          skipFrom steps .behind brackets rest
      -- nothing is open any more
      | _, [], cs => .ok cs
      | _, _ :: _, [] => .error .truncated
      | .opened, inner :: outer, c :: rest =>
          if c = inner.close then
            skipFrom steps .behind outer rest
          else
            match inner with
            | .array => skipFrom steps .value brackets (c :: rest)
            | .object => do
                let rest ← skipKey (c :: rest)
                skipFrom steps .value brackets rest
      | .behind, inner :: outer, c :: rest =>
          if c = inner.close then
            skipFrom steps .behind outer rest
          else if c = ',' then
            match inner with
            | .array => skipFrom steps .value brackets rest
            | .object => do
                let rest ← skipKey rest
                skipFrom steps .value brackets rest
          else
            .error .malformed

def skipValue (cs : List Char) : Except ReadError (List Char) :=
  skipFrom (2 * cs.length + 2) .value [] cs

/-- The error for a value of a kind that is not wanted.  A word, a number or a string has to be one;
an array or an object is not looked into. -/
def mismatch : List Char → ReadError
  | [] => .malformed
  | c :: rest =>
      let read : Except ReadError Unit :=
        if c = 'n' then (word ['u', 'l', 'l'] rest).map fun _ => ()
        else if c = 't' then (word ['r', 'u', 'e'] rest).map fun _ => ()
        else if c = 'f' then (word ['a', 'l', 's', 'e'] rest).map fun _ => ()
        else if c = '-' then (number true rest).map fun _ => ()
        else if isDigit c then (number false (c :: rest)).map fun _ => ()
        else if c = '"' then (string rest).map fun _ => ()
        else if c = '[' || c = '{' then .ok ()
        else .error .malformed
      match read with
      | .ok () => .mismatched
      | .error cause => cause

end Redzone.Json
