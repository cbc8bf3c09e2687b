import ConstraintAlgebra.Failure

/-! Making identifiers and handles from numbers, and complementing a handle. -/
namespace ConstraintAlgebra

namespace VarId

def ofWord (n : UInt32) : Except Failure VarId :=
  if h : n = 0 then .error .zeroIdentifier else .ok ⟨n, h⟩

def ofIndex (i : Nat) : Except Failure VarId :=
  let n := i % 0x100000000 + 1
  if n < 0x100000000 then ofWord (.ofNat n) else .error .overflow

end VarId

namespace Handle

def negate (h : Handle) : Except Failure Handle :=
  if h.code = Int32.minValue then .error .overflow
  else .ok ⟨-h.code, fun zero => h.nonzero (by simpa using congrArg (- ·) zero)⟩

def ofInt (n : Int) : Except Failure Handle := do
  let h := Handle.ofId (← VarId.ofWord (.ofNat n.natAbs))
  if n < 0 then h.negate else return h

def toInt (h : Handle) : Int := h.code.toInt

end Handle

end ConstraintAlgebra
