/-
**Text in ASCII between double quotes.**

A text is written in printable ASCII: the double quote and the backslash are escaped, the five
control characters with short escapes use them, and every other character outside the printable
ASCII range is written by its UTF-16 units in four hexadecimal digits each.

Main definitions:

* `GraphRoutes.Text.units16` — the UTF-16 units of a character;
* `GraphRoutes.Text.asciiQuoted` — a text between double quotes.

Main results:

* `GraphRoutes.Text.asciiChar_of_plain` — most of ASCII is written as it is.
-/
import GraphRoutes.Text.Quoted

set_option relaxedAutoImplicit false
set_option autoImplicit false

namespace GraphRoutes.Text

/-- The UTF-16 units of a code point. -/
def units16 (n : Nat) : List Nat :=
  if n < 65536 then [n] else [55296 + (n - 65536) / 1024, 56320 + (n - 65536) % 1024]

/-- A character as it is written between double quotes. -/
def asciiChar (c : Char) : List Char :=
  if c = '"' ∨ c = '\\' then ['\\', c]
  else if 32 ≤ c.toNat ∧ c.toNat < 127 then [c]
  else if c = '\n' then ['\\', 'n']
  else if c = '\r' then ['\\', 'r']
  else if c = '\t' then ['\\', 't']
  else if c.toNat = 8 then ['\\', 'b']
  else if c.toNat = 12 then ['\\', 'f']
  else (units16 c.toNat).flatMap fun u => '\\' :: 'u' :: hexDigits 4 u

/-- A text between double quotes. -/
def asciiQuoted (s : String) : String :=
  String.ofList ('"' :: s.toList.flatMap asciiChar ++ ['"'])

theorem asciiChar_of_plain (c : Char) (h : c ≠ '"' ∧ c ≠ '\\') (h' : 32 ≤ c.toNat ∧ c.toNat < 127) :
    asciiChar c = [c] := by
  simp [asciiChar, h, h']

end GraphRoutes.Text
