/-! Codes for strings. Variables range over integers, so strings enter a model as codes. -/
namespace ConstraintAlgebra

/-- A state that answers with the code of a string and the state to use from then on. -/
class Encoding (E : Type) where
  encode : E → String → Int64 × E

structure Dictionary where
  strings : List String
  deriving DecidableEq, Repr

namespace Dictionary

def empty : Dictionary := ⟨[]⟩

def size (d : Dictionary) : Nat := d.strings.length

def isEmpty (d : Dictionary) : Bool := d.strings.isEmpty

def string? (d : Dictionary) (code : Int64) : Option String :=
  if 0 ≤ code then d.strings[code.toInt.toNat]? else none

def encode (d : Dictionary) (s : String) : Int64 × Dictionary :=
  match d.strings.idxOf? s with
  | some i => (.ofNat i, d)
  | none => (.ofNat d.size, ⟨d.strings ++ [s]⟩)

instance : Encoding Dictionary := ⟨encode⟩

end Dictionary

/-- An encoding as a caller may bring it along in place of a dictionary: the codes do not start at 0,
nor do they follow one another. -/
structure SpacedDictionary where
  dictionary : Dictionary
  offset : Int64
  step : Int64
  deriving DecidableEq, Repr

namespace SpacedDictionary

def plain : SpacedDictionary := ⟨.empty, 0, 1⟩

instance : Encoding SpacedDictionary where
  encode d s :=
    let (code, dictionary) := d.dictionary.encode s
    (d.offset + d.step * code, { d with dictionary })

end SpacedDictionary

end ConstraintAlgebra
