import ConstraintAlgebra.Operand
import ConstraintAlgebra.Relation

/-! Why a call can fail, and how each cause reads. -/
namespace ConstraintAlgebra

inductive Operation where
  | sum
  | scaledSum
  | plus
  | minus
  | mult
  | div
  | max
  | min
  | anyTrue
  | or
  | and
  deriving DecidableEq, Repr

instance : ToString Operation where
  toString
    | .sum => "sum"
    | .scaledSum => "scaled_sum"
    | .plus => "plus"
    | .minus => "minus"
    | .mult => "mult"
    | .div => "div"
    | .max => "max"
    | .min => "min"
    | .anyTrue => "exists"
    | .or => "or"
    | .and => "and"

inductive Failure where
  | overflow
  | unassigned
  | zeroIdentifier
  | emptyInterval (lo hi : Int64)
  | noMinimum
  | noMaximum
  | foreignVariable (v : VarId)
  | emptyDomain (name : String)
  | assignmentSize
  | tooWide (op : Operation) (n : Int)
  | notNumber (op : Operation) (kind : Kind)
  | notLiteral (kind : Kind)
  | notBoolean (op : Operation) (h : Handle) (bounds : Interval)
  | stringOrdering (rel : Relation)
  | incomparable (rel : Relation) (left right : Kind)
  | unsupported (op : Operation) (left right : Kind)
  | unsupportedNegation (kind : Kind)
  | lengthMismatch (vars coeffs : Nat)
  | emptyList (op : Operation)
  | divisionByZero
  | quotientTooWide (left : Scalar) (divisor : Int64)
  deriving DecidableEq

def Failure.message : Failure → String
  | overflow => "arithmetic overflow"
  | unassigned => "variable without a value"
  | zeroIdentifier => "Variable IDs must be >= 1"
  | emptyInterval lo hi => s!"Empty domain [{lo}, {hi}]"
  | noMinimum => "Empty domain has no minimum"
  | noMaximum => "Empty domain has no maximum"
  | foreignVariable v => s!"Variable {v} does not belong to this model"
  | emptyDomain name => s!"Cannot create variable '{name}' with an empty domain"
  | assignmentSize => "Assignment size does not match the number of variables"
  | tooWide op n => s!"{op}: {n} does not fit in a 64-bit integer"
  | notNumber op kind => s!"{op}: expected a number, got {kind}"
  | notLiteral kind => s!"Expected a boolean or a variable, got {kind}"
  | notBoolean op h bounds => s!"{op}: operand {h} is not a boolean (bounds {bounds})"
  | stringOrdering rel => s!"{rel.name}: strings only support equality"
  | incomparable rel left right => s!"{rel.name}: unsupported operands {left} and {right}"
  | unsupported op left right => s!"{op}: unsupported operands {left} and {right}"
  | unsupportedNegation kind => s!"not: unsupported operand {kind}"
  | lengthMismatch vars coeffs => s!"scaled_sum: {vars} variables but {coeffs} coefficients"
  | emptyList op => s!"{op}: empty list"
  | divisionByZero => "div: division by zero"
  | quotientTooWide left divisor => s!"div: {left} / {divisor} does not fit in a 64-bit integer"

end ConstraintAlgebra
