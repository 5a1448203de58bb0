/-
**The programs of a session.**

A program is a list of statements.  A statement binds the value of an expression to a name, or shows
it.  Expressions are literals, names, functions with parameters, the usual choices, and calls of
operations, functions and methods.

Main definitions:

* `GraphRoutes.Session.Datum` — the data of a literal;
* `GraphRoutes.Session.Expr` — the expressions;
* `GraphRoutes.Session.Statement`, `GraphRoutes.Session.Program` — the programs.
-/
import GraphRoutes.Descent.Instruction
import GraphRoutes.Session.Operation

set_option relaxedAutoImplicit false
set_option autoImplicit false

namespace GraphRoutes.Session

/-- The data of a literal.  A list or a dictionary is made anew each time the literal is reached. -/
inductive Datum where
  | null
  | bool (b : Bool)
  | int (n : Int)
  | str (s : String)
  | list (items : List Datum)
  | dict (entries : List (String × Datum))
  deriving Repr, Inhabited

/-- What a name stands for that neither a parameter nor a statement has bound. -/
inductive Standing where
  | op (o : Op)
  | preset (p : Preset)
  | defaultConfig
  deriving DecidableEq, Repr

/-- The expressions. -/
inductive Expr where
  | literal (d : Datum)
  /-- A name: of a parameter, else of a statement, else what it stands for. -/
  | name (x : String) (standing : Option Standing)
  | function (parameters : List String) (body : Expr)
  | choose (condition yes no : Expr)
  | and (a b : Expr)
  | or (a b : Expr)
  /-- Several expressions in order; the value is that of the last. -/
  | inOrder (es : List Expr)
  | call (f : Expr) (args : List Expr) (named : List (String × Expr))
  /-- A member of an object, called. -/
  | method (m : Member) (self : Expr) (args : List Expr) (named : List (String × Expr))
  /-- A member of an object, read. -/
  | attribute (m : Member) (self : Expr)
  deriving Repr, Inhabited

/-- The statements. -/
inductive Statement where
  | bind (x : String) (e : Expr)
  | show (e : Expr)
  deriving Repr

/-- A program, and whether what the library reports is logged. -/
structure Program where
  statements : List Statement
  logging : Bool := false
  deriving Repr

end GraphRoutes.Session
