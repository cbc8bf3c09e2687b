import ConstraintAlgebra.Proofs.Operands

/-! Codes of strings. The scalars of a call stand for their codes, which the encoder has given by the
end of the call; a dictionary without repetitions gives different codes to different strings and reads
every code back. -/
namespace ConstraintAlgebra

namespace Encoding

variable {E : Type} [Encoding E] {e : E} {s t : String}

def Asked (e : E) (s : String) : Prop := ∃ e₀ ss, after (encode e₀ s).2 ss = e

def Injective (e : E) : Prop :=
  ∀ s t, Asked e s → Asked e t → (encode e s).1 = (encode e t).1 → s = t

theorem Asked.later (asked : Asked e s) (ss : List String) : Asked (after e ss) s := by
  obtain ⟨e₀, ts, same⟩ := asked
  exact ⟨e₀, ts ++ ss, by rw [afterAppend, same]⟩

def reading (e : E) : Reading := ⟨fun _ => 0, fun s => (encode e s).1.toInt⟩

theorem readingKnows [StableEncoding E] (e : E) : (reading e).Knows e := knowsOfStable fun _ => rfl

structure Stands (e : E) (s : Scalar) (c : Int64) : Prop where
  exact : ∀ ρ : Reading, ρ.Knows e → c.toInt = s.denote ρ
  asked : ∀ t, s = .str t → Asked e t

variable {a : Scalar} {c : Int64} {n : Int64}

theorem Stands.later (stands : Stands e a c) (ss : List String) : Stands (after e ss) a c where
  exact ρ knows := stands.exact ρ knows.before
  asked t same := (stands.asked t same).later ss

theorem Stands.number [StableEncoding E] (stands : Stands e a c) (number : a.number? = some n) :
    c = n := by
  have exact := stands.exact _ (readingKnows e)
  rw [Scalar.numberDenote number] at exact
  exact Int64.toInt_inj.mp exact

end Encoding

open Encoding

section Coding

variable {E : Type} [Encoding E] {w v : Workspace E} {s : Scalar} {c : Int64}

theorem Later.stands (later : Later w v) (stands : Stands w.encoder s c) :
    Stands v.encoder s c := by
  obtain ⟨ss, asked⟩ := later.asked
  exact asked ▸ stands.later ss

theorem Scalar.codeStands (s : Scalar) (w : Workspace E) :
    ∃ c v, (s.code : Operate E Int64) w = .ok c v ∧ v.model = w.model ∧ Stands v.encoder s c := by
  obtain ⟨c, v, ok, asked⟩ : ∃ c v, (s.code : Operate E Int64) w = .ok c v ∧
      ∀ t, s = .str t → Asked v.encoder t := by
    cases s with
    | str t => exact ⟨_, _, rfl, fun t same => by cases same; exact ⟨w.encoder, [], rfl⟩⟩
    | _ => exact ⟨_, _, rfl, nofun⟩
  obtain ⟨same, exact⟩ := codeExact ok
  exact ⟨c, v, ok, same, exact, asked⟩

theorem Scalar.codesStand (ss : List Scalar) (w : Workspace E) :
    ∃ cs v, (ss.mapM Scalar.code : Operate E (List Int64)) w = .ok cs v ∧ v.model = w.model ∧
      List.Forall₂ (Stands v.encoder) ss cs := by
  induction ss generalizing w with
  | nil => exact ⟨[], w, rfl, rfl, .nil⟩
  | cons s ss ih =>
    obtain ⟨c, u, first, same, stands⟩ := s.codeStands w
    obtain ⟨cs, v, rest, others, standing⟩ := ih u
    have later := keepsOk (keepsMapM keepsCode ss) rest
    refine ⟨c :: cs, v, ?_, others.trans same, .cons (later.stands stands) standing⟩
    rw [List.mapM_cons]
    exact runBind.mpr ⟨c, u, first, runBind.mpr ⟨cs, v, rest, rfl⟩⟩

theorem comparandStands {rel : Relation} (plain : s.kind = .string → rel.isOrdering = false)
    (w : Workspace E) : ∃ c v, (Layer.comparand rel s : Operate E Int64) w = .ok c v ∧
      Later w v ∧ v.model = w.model ∧ Stands v.encoder s c := by
  have allowed : ¬(s.kind = .string && rel.isOrdering) = true := by
    simpa using plain
  obtain ⟨c, v, ok, same, stands⟩ := s.codeStands w
  refine ⟨c, v, ?_, keepsOk (keepsCode s) ok, same, stands⟩
  rw [Layer.comparand, if_neg allowed, ok]

end Coding

namespace Dictionary

variable {d : Dictionary} {s t : String} {x : Int64}

theorem encodeStrings : (d.encode s).2.strings =
    if s ∈ d.strings then d.strings else d.strings ++ [s] := by
  rw [encode]
  split
  · rename_i found
    rw [if_pos (List.isSome_idxOf?.mp (Option.isSome_iff_exists.mpr ⟨_, found⟩))]
  · rename_i missing
    rw [if_neg (List.idxOf?_eq_none_iff.mp missing)]

theorem afterLonger (d : Dictionary) (ss : List String) :
    d.strings <+: (Encoding.after d ss).strings := by
  induction ss generalizing d with
  | nil => exact List.prefix_rfl
  | cons s ss ih =>
    refine List.IsPrefix.trans ?_ (ih (d.encode s).2)
    rw [encodeStrings]
    split
    · exact List.prefix_rfl
    · exact List.prefix_append _ _

theorem encodeNodup (nodup : d.strings.Nodup) (s : String) : (d.encode s).2.strings.Nodup := by
  rw [encodeStrings]
  split
  · exact nodup
  · rename_i missing
    rw [← List.concat_eq_append]
    exact nodup.concat missing

theorem afterNodup (nodup : d.strings.Nodup) (ss : List String) :
    (Encoding.after d ss).strings.Nodup := by
  induction ss generalizing d with
  | nil => exact nodup
  | cons s ss ih => exact ih (encodeNodup nodup s)

theorem placeExact (nodup : d.strings.Nodup) {i : Nat} :
    d.strings.idxOf? s = some i ↔ d.strings[i]? = some s := by
  constructor
  · intro found
    obtain ⟨inside, same, _⟩ := List.idxOf?_eq_some_iff.mp found
    rw [List.getElem?_eq_getElem inside, same]
  · intro found
    obtain ⟨inside, same⟩ := List.getElem?_eq_some_iff.mp found
    refine List.idxOf?_eq_some_iff.mpr ⟨inside, same, fun j before again => ?_⟩
    exact before.ne ((nodup.getElem_inj_iff).mp (again.trans same.symm))

theorem stringPlace (nodup : d.strings.Nodup) :
    d.string? x = some s ↔ ∃ i : Nat, d.strings.idxOf? s = some i ∧ x.toInt = i := by
  simp only [placeExact nodup]
  rw [string?]
  split <;> rename_i sign <;> rw [Int64.le_iff_toInt_le, Int64.toInt_zero] at sign
  · constructor
    · exact fun found => ⟨_, found, (Int.toNat_of_nonneg sign).symm⟩
    · rintro ⟨i, found, place⟩
      rwa [place, Int.toNat_natCast]
  · refine iff_of_false (by simp) ?_
    rintro ⟨i, _, place⟩
    omega

theorem askedListed (asked : Asked d s) : s ∈ d.strings := by
  obtain ⟨e, ss, same⟩ := asked
  subst same
  obtain ⟨i, _, found⟩ := e.encodeKnows s
  exact List.isSome_idxOf?.mp (Option.isSome_iff_exists.mpr ⟨i, afterKeeps _ ss found⟩)

theorem codePlace (listed : s ∈ d.strings) :
    ∃ i : Nat, (d.encode s).1 = .ofNat i ∧ d.strings.idxOf? s = some i := by
  obtain ⟨i, found⟩ := Option.isSome_iff_exists.mp (List.isSome_idxOf?.mpr listed)
  exact ⟨i, by rw [encode, found], found⟩

theorem wordPlace {i : Nat} (few : d.size ≤ 2 ^ 63) (found : d.strings.idxOf? s = some i) :
    .ofNat i = x ↔ x.toInt = i := by
  obtain ⟨inside, _⟩ := List.idxOf?_eq_some_iff.mp found
  rw [← Int64.toInt_inj, Int64.toInt_ofNat_of_lt (inside.trans_le few), eq_comm]

theorem stringExact (nodup : d.strings.Nodup) (few : d.size ≤ 2 ^ 63) (listed : s ∈ d.strings) :
    d.string? x = some s ↔ x = (d.encode s).1 := by
  obtain ⟨i, code, found⟩ := codePlace listed
  simp only [stringPlace nodup, found, Option.some.injEq, exists_eq_left']
  rw [code, ← wordPlace few found, eq_comm]

theorem dictionaryInjective (few : d.size ≤ 2 ^ 63) : Encoding.Injective d := by
  intro s t first second same
  obtain ⟨i, left, foundLeft⟩ := codePlace (askedListed first)
  obtain ⟨j, right, foundRight⟩ := codePlace (askedListed second)
  change (d.encode s).1 = (d.encode t).1 at same
  rw [left, right, wordPlace few foundLeft, (wordPlace few foundRight).mp rfl, Nat.cast_inj] at same
  subst same
  obtain ⟨_, here, _⟩ := List.idxOf?_eq_some_iff.mp foundLeft
  obtain ⟨_, there, _⟩ := List.idxOf?_eq_some_iff.mp foundRight
  exact here.symm.trans there

end Dictionary

end ConstraintAlgebra
