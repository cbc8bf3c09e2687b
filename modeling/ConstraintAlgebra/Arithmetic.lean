import ConstraintAlgebra.Layer

/-! Sums, products, quotients and extremes. A result over variables is a new variable whose declared
range holds every value that the operands can give, except that quotients and products of two
variables are declared over the range in the settings. -/
namespace ConstraintAlgebra

namespace Model

def sumBounds (m : Model) : List Summand → Int × Int → Except Failure (Int × Int)
  | [], range => .ok range
  | (c, h) :: rest, (lo, hi) => do
    let range ← m.bounds h
    let a := c.toInt * range.lo.toInt
    let b := c.toInt * range.hi.toInt
    let lo ← wide (lo + min a b)
    let hi ← wide (hi + max a b)
    m.sumBounds rest (lo, hi)

def linear (op : Operation) (terms : List Summand) (offset : Int) : Build Handle := do
  let (lo, hi) ← ask (·.sumBounds terms (offset, offset))
  let lo ← narrow op lo
  let hi ← narrow op hi
  let offset ← narrow op offset
  let target ← newInt lo hi ""
  add (.linear target terms offset)
  return target

def sumItems : List Operand → List Summand → Int → Except Failure (List Summand × Int)
  | [], terms, offset => .ok (terms, offset)
  | .var h :: rest, terms, offset => sumItems rest (terms ++ [(1, h)]) offset
  | .scalar s :: rest, terms, offset => do
    let n ← s.number .sum
    sumItems rest terms (← wide (offset + n.toInt))

def long (n : Int64) : Operand := .scalar (.long n)

def sum (items : List Operand) : Build Operand := do
  let (terms, offset) ← sumItems items [] 0
  if terms.isEmpty then return long (← narrow .sum offset)
  else return .var (← linear .sum terms offset)

def scaledSum (vars : List Handle) (coeffs : List Int64) : Build Handle :=
  if vars.length = coeffs.length then linear .scaledSum (coeffs.zip vars) 0
  else throw (.lengthMismatch vars.length coeffs.length)

def signed (op : Operation) (sign : Int64) : Operand → Operand → Build Operand
  | .var l, .var r => return .var (← linear op [(1, l), (sign, r)] 0)
  | .var h, .scalar s => do
    let n ← s.number op
    return .var (← linear op [(1, h)] (sign.toInt * n.toInt))
  | .scalar s, .var h => do
    let n ← s.number op
    return .var (← linear op [(sign, h)] n.toInt)
  | .scalar a, .scalar b => do
    let m ← a.number op
    let n ← b.number op
    return long (← narrow op (m.toInt + sign.toInt * n.toInt))

def plus : Operand → Operand → Build Operand := signed .plus 1

def minus : Operand → Operand → Build Operand := signed .minus (-1)

end Model

namespace Layer

def mult (ops : Layer) : Operand → Operand → Build Operand
  | .var l, .var r => do
    let target ← Model.newInt ops.settings.unbounded.lo ops.settings.unbounded.hi ""
    Model.add (.product target l r)
    return .var target
  | .var h, .scalar s => do
    let n ← s.number .mult
    return .var (← Model.linear .mult [(n, h)] 0)
  | .scalar s, .var h => do
    let n ← s.number .mult
    return .var (← Model.linear .mult [(n, h)] 0)
  | .scalar a, .scalar b => do
    let m ← a.number .mult
    let n ← b.number .mult
    return Model.long (← narrow .mult (m.toInt * n.toInt))

def div (ops : Layer) (left right : Operand) : Build Operand :=
  match right with
  | .var _ => throw (.unsupported .div left.kind right.kind)
  | .scalar s => do
    let d ← s.number .div
    if d = 0 then throw .divisionByZero
    else
      match left with
      | .var h => do
        let target ← Model.newInt ops.settings.unbounded.lo ops.settings.unbounded.hi ""
        Model.add (.quotient target h (.const d))
        return .var target
      | .scalar a => do
        let n ← a.number .div
        match toWord? (n.toInt.tdiv d.toInt) with
        | some q => return Model.long q
        | none => throw (.quotientTooWide a d)

end Layer

end ConstraintAlgebra
