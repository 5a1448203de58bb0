/-
**Quoted text.**

A text is quoted between single quotes, or between double quotes if it holds single quotes and no
double ones.  Inside, the quote in use and the backslash are escaped, line feed, carriage return and
tab have escapes of their own, and every other character that is not shown as it is is written by
its code point, in two, four or eight hexadecimal digits.

Main definitions:

* `GraphRoutes.Text.hexDigits` — a number in so many hexadecimal digits;
* `GraphRoutes.Text.escapeChar` — a character between quotes;
* `GraphRoutes.Text.quoted` — a quoted text.
-/
import GraphRoutes.Text.Shown

set_option relaxedAutoImplicit false
set_option autoImplicit false

namespace GraphRoutes.Text

/-- A hexadecimal digit in lower case. -/
def hexDigit (n : Nat) : Char :=
  if n < 10 then Char.ofNat (48 + n) else Char.ofNat (87 + n)

/-- The last `width` hexadecimal digits of a number. -/
def hexDigits : Nat → Nat → List Char
  | 0, _ => []
  | width + 1, n => hexDigits width (n / 16) ++ [hexDigit (n % 16)]

@[simp] theorem length_hexDigits (width n : Nat) : (hexDigits width n).length = width := by
  induction width generalizing n with
  | zero => rfl
  | succ width ih => simp [hexDigits, ih]

/-- A character as it is written between the quotes `q`. -/
def escapeChar (q c : Char) : List Char :=
  if c = q ∨ c = '\\' then ['\\', c]
  else if c = '\n' then ['\\', 'n']
  else if c = '\r' then ['\\', 'r']
  else if c = '\t' then ['\\', 't']
  else if isShown c then [c]
  else if c.toNat < 256 then '\\' :: 'x' :: hexDigits 2 c.toNat
  else if c.toNat < 65536 then '\\' :: 'u' :: hexDigits 4 c.toNat
  else '\\' :: 'U' :: hexDigits 8 c.toNat

/-- The quote in which a text is put. -/
def quoteOf (cs : List Char) : Char :=
  if cs.contains '\'' && !cs.contains '"' then '"' else '\''

/-- A text between quotes. -/
def quoted (s : String) : String :=
  let cs := s.toList
  let q := quoteOf cs
  String.ofList (q :: cs.flatMap (escapeChar q) ++ [q])

end GraphRoutes.Text
