import ConstraintAlgebra.Proofs.Codes

/-! Interning. A dictionary may keep the code of every string in a map beside the list of its strings.
Over every run of questions it answers as the dictionary that searches its list, and the map and the
list stay inverse to one another: codes are the places of the strings in the order of first use. -/
namespace ConstraintAlgebra

inductive Lookup where
  | code (s : String)
  | string (n : Int64)

inductive Finding where
  | code (n : Int64)
  | string (s : Option String)
  deriving DecidableEq

def Lookup.interned : Lookup → Option String
  | code s => some s
  | string _ => none

def answers {D : Type} (ask : D → Lookup → Finding × D) : D → List Lookup → List Finding × D
  | d, [] => ([], d)
  | d, q :: qs =>
    let (found, d) := ask d q
    let (rest, d) := answers ask d qs
    (found :: rest, d)

def Dictionary.ask (d : Dictionary) : Lookup → Finding × Dictionary
  | .code s =>
    let (n, d) := d.encode s
    (.code n, d)
  | .string n => (.string (d.string? n), d)

structure IndexedDictionary where
  codes : Std.HashMap String Int64
  strings : List String

namespace IndexedDictionary

def empty : IndexedDictionary := ⟨∅, []⟩

def string? (r : IndexedDictionary) (code : Int64) : Option String :=
  if 0 ≤ code then r.strings[code.toInt.toNat]? else none

def encode (r : IndexedDictionary) (s : String) : Int64 × IndexedDictionary :=
  match r.codes[s]? with
  | some code => (code, r)
  | none =>
    let code := .ofNat r.strings.length
    (code, ⟨r.codes.insert s code, r.strings ++ [s]⟩)

def ask (r : IndexedDictionary) : Lookup → Finding × IndexedDictionary
  | .code s =>
    let (n, r) := r.encode s
    (.code n, r)
  | .string n => (.string (r.string? n), r)

end IndexedDictionary

def Given (qs : List Lookup) (found : List Finding) (s : String) (c : Int64) : Prop :=
  ∃ i : Nat, qs[i]? = some (.code s) ∧ found[i]? = some (.code c)

section Answers

variable {D : Type} {ask : D → Lookup → Finding × D} {d : D} {qs : List Lookup}

theorem answersAt {i : Nat} : (answers ask d qs).1[i]? =
    qs[i]?.map fun q => (ask (answers ask d (qs.take i)).2 q).1 := by
  induction qs generalizing d i with
  | nil => rfl
  | cons q qs ih =>
    cases i with
    | zero => rfl
    | succ i => exact ih

theorem answersTake (i : Nat) : (answers ask d (qs.take i)).1 = (answers ask d qs).1.take i := by
  induction qs generalizing d i with
  | nil => simp [answers]
  | cons q qs ih =>
    cases i with
    | zero => rfl
    | succ i => exact congrArg _ (ih i)

theorem answersAppend {rs : List Lookup} : (answers ask d (qs ++ rs)).2 =
    (answers ask (answers ask d qs).2 rs).2 := by
  induction qs generalizing d with
  | nil => rfl
  | cons q qs ih => exact ih

end Answers

namespace Dictionary

variable {d : Dictionary} {qs : List Lookup} {s : String} {c : Int64}

def interned (qs : List Lookup) : List String := qs.filterMap Lookup.interned

theorem answersAfter : (answers ask d qs).2 = Encoding.after d (interned qs) := by
  induction qs generalizing d with
  | nil => rfl
  | cons q qs ih => cases q <;> exact ih

theorem afterEmpty (ss : List String) : (Encoding.after empty ss).strings = ss.eraseDups := by
  induction ss using List.reverseRecOn with
  | nil => rfl
  | append_singleton ss s ih =>
    rw [Encoding.afterAppend, List.eraseDups_append]
    change (encode (Encoding.after empty ss) s).2.strings = _
    rw [encodeStrings, ih]
    by_cases seen : s ∈ ss
    · simp [seen, List.removeAll]
    · simp [seen, List.removeAll, List.eraseDups_cons]

theorem answersStrings : (answers ask empty qs).2.strings = (interned qs).eraseDups := by
  rw [answersAfter, afterEmpty]

theorem answerPlace {i : Nat} (asked : qs[i]? = some (.code s)) :
    ∃ k : Nat, (answers ask d qs).1[i]? = some (.code (.ofNat k)) ∧
      (answers ask d qs).2.strings.idxOf? s = some k := by
  have split : qs = qs.take i ++ .code s :: qs.drop (i + 1) := by
    obtain ⟨inside, same⟩ := List.getElem?_eq_some_iff.mp asked
    rw [← same, List.cons_getElem_drop_succ, List.take_append_drop]
  obtain ⟨k, code, found⟩ := encodeKnows (answers ask d (qs.take i)).2 s
  refine ⟨k, ?_, ?_⟩
  · rw [answersAt, asked, ← code]
    rfl
  · rw [split, answersAppend, answersAfter]
    exact afterKeeps _ (interned (qs.drop (i + 1))) found

theorem stringNone : d.string? c = none ↔ c.toInt < 0 ∨ d.size ≤ c.toInt := by
  rw [string?]
  split <;> rename_i sign <;> rw [Int64.le_iff_toInt_le, Int64.toInt_zero] at sign
  · rw [List.getElem?_eq_none_iff, size]
    omega
  · simp only [true_iff]
    omega

theorem answersNodup (qs : List Lookup) : (answers ask empty qs).2.strings.Nodup := by
  rw [answersAfter]
  exact afterNodup List.nodup_nil _

theorem stringAnswered (few : (answers ask empty qs).2.size ≤ 2 ^ 63) :
    (answers ask empty qs).2.string? c = some s ↔ Given qs (answers ask empty qs).1 s c := by
  rw [stringPlace (answersNodup qs)]
  constructor
  · rintro ⟨k, found, place⟩
    have listed : s ∈ interned qs := by
      rw [← List.mem_eraseDups, ← answersStrings]
      exact List.isSome_idxOf?.mp (Option.isSome_iff_exists.mpr ⟨k, found⟩)
    obtain ⟨q, mem, same⟩ := List.mem_filterMap.mp listed
    obtain ⟨i, asked⟩ := List.mem_iff_getElem?.mp mem
    cases q with
    | string n => cases same
    | code t =>
      cases same
      obtain ⟨j, answered, again⟩ := answerPlace (d := empty) asked
      rw [found] at again
      cases again
      exact ⟨i, asked, by rw [answered, (wordPlace few found).mpr place]⟩
  · rintro ⟨i, asked, answered⟩
    obtain ⟨k, placed, found⟩ := answerPlace (d := empty) asked
    rw [placed, Option.some.injEq, Finding.code.injEq] at answered
    exact ⟨k, found, (wordPlace few found).mp answered⟩

theorem earlierFew (i : Nat) (few : (answers ask d qs).2.size ≤ 2 ^ 63) :
    (answers ask d (qs.take i)).2.size ≤ 2 ^ 63 := by
  rw [← List.take_append_drop i qs, answersAppend, answersAfter] at few
  exact (afterLonger _ _).length_le.trans few

end Dictionary

namespace IndexedDictionary

variable {r : IndexedDictionary} {d : Dictionary} {qs : List Lookup} {s : String} {c : Int64}

structure Indexes (r : IndexedDictionary) (d : Dictionary) : Prop where
  strings : r.strings = d.strings
  codes : ∀ s, r.codes[s]? = (d.strings.idxOf? s).map Int64.ofNat

theorem emptyIndexes : empty.Indexes .empty := ⟨rfl, fun _ => Std.HashMap.getElem?_empty⟩

theorem Indexes.string (indexes : r.Indexes d) : r.string? c = d.string? c := by
  rw [string?, Dictionary.string?, indexes.strings]

theorem Indexes.encode (indexes : r.Indexes d) :
    (r.encode s).1 = (d.encode s).1 ∧ (r.encode s).2.Indexes (d.encode s).2 := by
  rw [IndexedDictionary.encode, Dictionary.encode, indexes.codes]
  cases found : d.strings.idxOf? s with
  | some i => exact ⟨rfl, indexes⟩
  | none =>
    refine ⟨by simp [indexes.strings, Dictionary.size], by simp [indexes.strings], fun t => ?_⟩
    simp only [Option.map_none, Std.HashMap.getElem?_insert, indexes.codes, indexes.strings,
      List.idxOf?, List.findIdx?_append, beq_iff_eq] at found ⊢
    by_cases same : s = t
    · subst same
      simp [found]
    · simp [same]

theorem Indexes.ask (indexes : r.Indexes d) (q : Lookup) :
    (r.ask q).1 = (d.ask q).1 ∧ (r.ask q).2.Indexes (d.ask q).2 := by
  cases q with
  | code s =>
    obtain ⟨code, later⟩ := indexes.encode (s := s)
    exact ⟨congrArg Finding.code code, later⟩
  | string n => exact ⟨congrArg Finding.string indexes.string, indexes⟩

theorem Indexes.answers (indexes : r.Indexes d) (qs : List Lookup) :
    (answers IndexedDictionary.ask r qs).1 = (answers Dictionary.ask d qs).1 ∧
      (answers IndexedDictionary.ask r qs).2.Indexes (answers Dictionary.ask d qs).2 := by
  induction qs generalizing r d with
  | nil => exact ⟨rfl, indexes⟩
  | cons q qs ih =>
    obtain ⟨found, later⟩ := indexes.ask q
    obtain ⟨rest, last⟩ := ih later
    exact ⟨congrArg₂ List.cons found rest, last⟩

theorem Indexes.inverse (indexes : r.Indexes d) (nodup : d.strings.Nodup) (few : d.size ≤ 2 ^ 63) :
    r.codes[s]? = some c ↔ r.string? c = some s := by
  rw [indexes.string, Dictionary.stringPlace nodup, indexes.codes, Option.map_eq_some_iff]
  exact exists_congr fun i => and_congr_right fun found => Dictionary.wordPlace few found

end IndexedDictionary

structure Interned (qs : List Lookup) (found : List Finding) (r : IndexedDictionary) : Prop where
  inverse : ∀ (s : String) (c : Int64), r.codes[s]? = some c ↔ r.string? c = some s
  placed : ∀ (s : String) (c : Int64), r.codes[s]? = some c ↔
    ∃ i : Nat, r.strings[i]? = some s ∧ c.toInt = i
  used : ∀ c : Int64, (∃ s : String, r.codes[s]? = some c) ↔
    0 ≤ c.toInt ∧ c.toInt < r.strings.length
  missing : ∀ c : Int64, r.string? c = none ↔ c.toInt < 0 ∨ r.strings.length ≤ c.toInt
  ordered : r.strings = (Dictionary.interned qs).eraseDups
  decoded : ∀ (s : String) (c : Int64), r.string? c = some s ↔ Given qs found s c
  distinct : ∀ (s t : String) (c d : Int64), Given qs found s c → Given qs found t d →
    (c = d ↔ s = t)
  coded : ∀ (i : Nat) (s : String), qs[i]? = some (.code s) →
    ∃ c, found[i]? = some (.code c) ∧ r.codes[s]? = some c
  read : ∀ (i : Nat) (c : Int64), qs[i]? = some (.string c) → ∃ t, found[i]? = some (.string t) ∧
    ∀ s, t = some s ↔ Given (qs.take i) (found.take i) s c

/-- A dictionary with a map answers as the one without it, and is a bijection between strings and
codes after every run that does not use up the words. -/
theorem internedExactly (qs : List Lookup)
    (few : (answers Dictionary.ask .empty qs).2.size ≤ 2 ^ 63) :
    (answers IndexedDictionary.ask .empty qs).1 = (answers Dictionary.ask .empty qs).1 ∧
      (answers IndexedDictionary.ask .empty qs).2.strings =
        (answers Dictionary.ask .empty qs).2.strings ∧
      Interned qs (answers IndexedDictionary.ask .empty qs).1
        (answers IndexedDictionary.ask .empty qs).2 := by
  obtain ⟨same, indexes⟩ := IndexedDictionary.emptyIndexes.answers qs
  have nodup := Dictionary.answersNodup qs
  have inverse := fun s c => indexes.inverse (s := s) (c := c) nodup few
  have decoded := fun s c => Dictionary.stringAnswered (s := s) (c := c) few
  refine ⟨same, indexes.strings, ?_⟩
  exact {
    inverse := inverse
    placed := fun s c => by
      rw [inverse, indexes.string, Dictionary.stringPlace nodup, indexes.strings]
      simp only [Dictionary.placeExact nodup]
    used := fun c => by
      simp only [inverse, indexes.string, ← Option.ne_none_iff_exists', ne_eq,
        Dictionary.stringNone, indexes.strings, Dictionary.size]
      omega
    missing := fun c => by
      rw [indexes.string, Dictionary.stringNone, indexes.strings, Dictionary.size]
    ordered := by rw [indexes.strings, Dictionary.answersStrings]
    decoded := fun s c => by
      rw [same, indexes.string]
      exact decoded s c
    distinct := fun s t c d left right => by
      rw [same] at left right
      have first := (decoded s c).mpr left
      have second := (decoded t d).mpr right
      constructor
      · rintro rfl
        exact Option.some.inj (first.symm.trans second)
      · rintro rfl
        rw [← indexes.string, ← inverse] at first second
        exact Option.some.inj (first.symm.trans second)
    coded := fun i s asked => by
      obtain ⟨k, answered, found⟩ := Dictionary.answerPlace (d := .empty) asked
      exact ⟨_, same ▸ answered, by rw [indexes.codes, found, Option.map_some]⟩
    read := fun i c asked => by
      refine ⟨_, by rw [same, answersAt, asked]; rfl, fun s => ?_⟩
      rw [same, ← answersTake]
      exact Dictionary.stringAnswered (Dictionary.earlierFew i few) }

theorem internedExactlyOnce :
    let qs : List Lookup := [.code "b", .string 1, .code "a", .code "b", .string 1, .string (-1)]
    let r := (answers IndexedDictionary.ask .empty qs).2
    (answers Dictionary.ask .empty qs).2.size ≤ 2 ^ 63 ∧
      (answers IndexedDictionary.ask .empty qs).1 = [.code 0, .string none, .code 1, .code 0,
        .string (some "a"), .string none] ∧
      r.strings = ["b", "a"] ∧ r.codes["b"]? = some 0 ∧ r.codes["a"]? = some 1 := by
  intro qs r
  have few : (answers Dictionary.ask .empty qs).2.size ≤ 2 ^ 63 := by decide
  obtain ⟨found, strings, interned⟩ := internedExactly qs few
  have listed : r.strings = ["b", "a"] := strings
  refine ⟨few, found, listed, (interned.placed "b" 0).mpr ⟨0, ?_, rfl⟩,
    (interned.placed "a" 1).mpr ⟨1, ?_, rfl⟩⟩
  · exact congrArg (·[0]?) listed
  · exact congrArg (·[1]?) listed

end ConstraintAlgebra
