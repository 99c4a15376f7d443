/-!
# Operators

The operators that stand in a syntax tree, with the text they are written as.
-/

namespace BoxScript

/-- Operators between two operands. -/
inductive BinaryOperator where
  | or
  | and
  | eq
  | ne
  | lt
  | gt
  | le
  | ge
  | add
  | sub
  | mul
  | div
  | mod
  deriving DecidableEq, Repr, Inhabited

/-- Operators on one operand. `inc` and `dec` only come from the statements `x++` and `x--`. -/
inductive UnaryOperator where
  | not
  | neg
  | pos
  | inc
  | dec
  | sqrt
  | floor
  | ceil
  deriving DecidableEq, Repr, Inhabited

namespace BinaryOperator

/-- All operators, from the loosest to the tightest. -/
def all : List BinaryOperator :=
  [or, and, eq, ne, lt, gt, le, ge, add, sub, mul, div, mod]

/-- How the operator is written. -/
def symbol : BinaryOperator → String
  | or => "||"
  | and => "&&"
  | eq => "=="
  | ne => "!="
  | lt => "<"
  | gt => ">"
  | le => "<="
  | ge => ">="
  | add => "+"
  | sub => "-"
  | mul => "*"
  | div => "/"
  | mod => "%"

/-- The operator that is written so. -/
def ofSymbol? (s : String) : Option BinaryOperator :=
  all.find? (·.symbol == s)

end BinaryOperator

namespace UnaryOperator

/-- All operators. -/
def all : List UnaryOperator :=
  [not, neg, pos, inc, dec, sqrt, floor, ceil]

/-- How the operator is written. -/
def symbol : UnaryOperator → String
  | not => "!"
  | neg => "-"
  | pos => "+"
  | inc => "++"
  | dec => "--"
  | sqrt => "sqrt"
  | floor => "floor"
  | ceil => "ceil"

/-- The operator that is written so. -/
def ofSymbol? (s : String) : Option UnaryOperator :=
  all.find? (·.symbol == s)

end UnaryOperator

end BoxScript
