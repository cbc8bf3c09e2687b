/-! Names of variables. Variables are numbered from 1 in creation order. A handle stands for a
variable or for its complement `1 - x`; it is one signed code, negative for the complement. -/
namespace ConstraintAlgebra

structure VarId where
  id : UInt32
  nonzero : id ≠ 0
  deriving DecidableEq

namespace VarId

def index (v : VarId) : Nat := v.id.toNat - 1

instance : ToString VarId := ⟨fun v => "x" ++ toString v.id.toNat⟩

end VarId

structure Handle where
  code : Int32
  nonzero : code ≠ 0
  deriving DecidableEq

namespace Handle

def isNegated (h : Handle) : Bool := h.code < 0

/-- The handle of the variable itself. Codes have 32 bits, so identifiers from `2 ^ 31` on are
read as complements. -/
def ofId (v : VarId) : Handle :=
  ⟨v.id.toInt32, fun zero => v.nonzero <| by
    have back : v.id.toInt32.toUInt32 = (0 : Int32).toUInt32 := congrArg Int32.toUInt32 zero
    exact back⟩

theorem magnitudeLt (h : Handle) : h.code.toInt.natAbs < 0x100000000 := by
  have := h.code.toInt_lt
  have := h.code.le_toInt
  omega

theorem magnitudePos (h : Handle) : 0 < h.code.toInt.natAbs :=
  Int.natAbs_pos.mpr fun zero => h.nonzero (Int32.toInt_inj.mp zero)

def id (h : Handle) : VarId :=
  ⟨.ofNat h.code.toInt.natAbs, fun zero => by
    have := congrArg UInt32.toNat zero
    rw [UInt32.toNat_ofNat_of_lt' h.magnitudeLt] at this
    have := h.magnitudePos
    simp_all⟩

def index (h : Handle) : Nat := h.id.index

theorem idMagnitude (h : Handle) : h.id.id.toNat = h.code.toInt.natAbs :=
  UInt32.toNat_ofNat_of_lt' h.magnitudeLt

instance : ToString Handle :=
  ⟨fun h => (if h.isNegated then "~" else "") ++ toString h.id⟩

def sort (hs : List Handle) : List Handle := hs.mergeSort fun a b => a.code ≤ b.code

end Handle

end ConstraintAlgebra
