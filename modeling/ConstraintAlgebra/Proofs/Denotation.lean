import ConstraintAlgebra.Layer
import ConstraintAlgebra.Proofs.Evaluation

/-! What operands stand for under a reading, and encodings whose codes last. -/
namespace ConstraintAlgebra

def Scalar.denote (ρ : Reading) : Scalar → Int
  | int n => n.toInt
  | long n => n.toInt
  | bool b => Relation.truth b
  | str s => ρ.code s

def Operand.denote (ρ : Reading) : Operand → Int
  | scalar s => s.denote ρ
  | var h => ρ.value h

section Numbers

variable {s : Scalar} {ρ : Reading} {n : Int64} {op : Operation}

theorem Scalar.numberDenote (found : s.number? = some n) : s.denote ρ = n.toInt := by
  cases s <;> cases found
  · exact (Int32.toInt_toInt64 _).symm
  · rfl

theorem Scalar.numberOk (ok : s.number op = .ok n) : s.denote ρ = n.toInt := by
  rw [Scalar.number] at ok
  split at ok
  · cases ok
    exact Scalar.numberDenote (by assumption)
  · contradiction

end Numbers

/- Two strings are compared as they are; beside a variable a string stands for its code. -/
def Relation.Between (ρ : Reading) (r : Relation) : Operand → Operand → Prop
  | .scalar (.str s), .scalar (.str t) => r.Holds s t
  | x, y => r.Holds (x.denote ρ) (y.denote ρ)

theorem Relation.betweenRight {ρ : Reading} {r : Relation} {x : Operand} {h : Handle} :
    r.Between ρ x (.var h) ↔ r.Holds (x.denote ρ) (ρ.value h) := by
  rcases x with s | h
  · cases s <;> rfl
  · rfl

namespace Encoding

variable {E : Type} [Encoding E]

def after (e : E) (ss : List String) : E := ss.foldl (fun e s => (encode e s).2) e

theorem afterAppend (e : E) (ss ts : List String) : after e (ss ++ ts) = after (after e ss) ts :=
  List.foldl_append

end Encoding

/-- The code of a string never changes once it has been given. -/
class StableEncoding (E : Type) [Encoding E] : Prop where
  keeps (e : E) (s : String) (ss : List String) :
    (Encoding.encode (Encoding.after (Encoding.encode e s).2 ss) s).1 = (Encoding.encode e s).1

def Reading.Knows {E : Type} [Encoding E] (ρ : Reading) (e : E) : Prop :=
  ∀ (e₀ : E) s ss, Encoding.after (Encoding.encode e₀ s).2 ss = e →
    ρ.code s = (Encoding.encode e₀ s).1.toInt

section Knows

variable {E : Type} [Encoding E] {ρ : Reading} {e : E}

theorem Reading.Knows.before {ss : List String} (knows : ρ.Knows (Encoding.after e ss)) :
    ρ.Knows e := by
  rintro e₀ s ts rfl
  exact knows e₀ s (ts ++ ss) (Encoding.afterAppend _ _ _)

theorem Reading.Knows.answer {s : String} (knows : ρ.Knows (Encoding.encode e s).2) :
    ρ.code s = (Encoding.encode e s).1.toInt := knows e s [] rfl

theorem knowsOfStable [StableEncoding E]
    (codes : ∀ s, ρ.code s = (Encoding.encode e s).1.toInt) : ρ.Knows e := by
  rintro e₀ s ss rfl
  rw [codes, StableEncoding.keeps]

end Knows

namespace Dictionary

theorem encodeKeeps (d : Dictionary) {s : String} {i : Nat} (t : String)
    (found : d.strings.idxOf? s = some i) : (d.encode t).2.strings.idxOf? s = some i := by
  rw [encode]
  split
  · exact found
  · simp only [List.idxOf?, List.findIdx?_append] at found ⊢
    rw [found]
    rfl

theorem encodeKnows (d : Dictionary) (s : String) :
    ∃ i : Nat, (d.encode s).1 = .ofNat i ∧ (d.encode s).2.strings.idxOf? s = some i := by
  rw [encode]
  split
  · exact ⟨_, rfl, by assumption⟩
  · rename_i missing
    refine ⟨d.size, rfl, ?_⟩
    simp only [List.idxOf?, List.findIdx?_append] at missing ⊢
    rw [missing]
    simp [size]

theorem afterKeeps (d : Dictionary) {s : String} {i : Nat} (ss : List String)
    (found : d.strings.idxOf? s = some i) :
    (Encoding.after d ss).strings.idxOf? s = some i := by
  induction ss generalizing d with
  | nil => exact found
  | cons t ss ih => exact ih (d.encode t).2 (encodeKeeps d t found)

instance : StableEncoding Dictionary where
  keeps d s ss := by
    obtain ⟨i, code, found⟩ := encodeKnows d s
    have later := afterKeeps _ ss found
    change (encode (Encoding.after (d.encode s).2 ss) s).1 = (d.encode s).1
    rw [code, encode, later]

end Dictionary

namespace SpacedDictionary

theorem afterSpaced (d : SpacedDictionary) (ss : List String) :
    Encoding.after d ss = { d with dictionary := Encoding.after d.dictionary ss } := by
  induction ss generalizing d with
  | nil => rfl
  | cons s ss ih => exact ih (Encoding.encode d s).2

instance : StableEncoding SpacedDictionary where
  keeps d s ss := by
    have same := StableEncoding.keeps d.dictionary s ss
    rw [afterSpaced]
    exact congrArg (d.offset + d.step * ·) same

theorem plainCode (s : String) (ss : List String) :
    (Encoding.encode (Encoding.after plain ss) s).1 =
      (Encoding.encode (Encoding.after Dictionary.empty ss) s).1 := by
  rw [afterSpaced]
  exact (Int64.zero_add _).trans (Int64.one_mul _)

end SpacedDictionary

end ConstraintAlgebra
