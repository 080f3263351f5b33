import Redzone.Text.Unprintable

/-!
# Quoted text

A text between double quotes, in which quotes and backslashes are escaped and characters without a
shape of their own are shown by letter or by number.
-/

namespace Redzone.Text

/-- A character as it stands in quoted text. -/
def quoteChar (c : Char) : List Char :=
  match c with
  | '"' => ['\\', '"']
  | '\\' => ['\\', '\\']
  | '\t' => ['\\', 't']
  | '\r' => ['\\', 'r']
  | '\n' => ['\\', 'n']
  | c =>
      if c.toNat = 0 then
        ['\\', '0']
      else if isUnprintable c then
        ['\\', 'u', '{'] ++ Nat.toDigits 16 c.toNat ++ ['}']
      else
        [c]

/-- A text between quotes. -/
def quote (text : String) : String :=
  String.ofList ('"' :: text.toList.flatMap quoteChar ++ ['"'])

end Redzone.Text
