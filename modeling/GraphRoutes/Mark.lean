/-
**Marks: what tells objects apart that are alike.**

Two objects may agree in all that can be asked of them and still be two.  An object carries a mark
from the moment at which it is handed out, and keeps it wherever it goes on to be held; nothing
else of it depends on the mark.

Main definitions:

* `GraphRoutes.Mark` — the mark of an object.
-/

set_option relaxedAutoImplicit false
set_option autoImplicit false

namespace GraphRoutes

/-- What tells an object from those that are equal to it: a number that no other object has.  An
object that nobody has been given yet has none. -/
abbrev Mark : Type := Option Nat

end GraphRoutes
