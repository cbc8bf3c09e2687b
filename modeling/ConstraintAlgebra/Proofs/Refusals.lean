import ConstraintAlgebra.Proofs.SumRanges

/-! Operands of boolean operators that are no booleans. A connective looks for known, equal and
complementary operands before it checks either, and a disjunction of a list stops at the first literal
known to be true. What is refused therefore depends on the other operands and on their order; in all
other cases the refusal names the operation, and the model stays as it was. -/
namespace ConstraintAlgebra

namespace Model

variable {m n : Model} {h g : Handle} {op : Operation} {e : Failure} {lits : List Handle}

theorem complementDecided (x : Int64) :
    (∃ y, complementWord x = .ok y) ∨ complementWord x = .error .overflow := by
  cases ran : complementWord x with
  | ok y => exact .inl ⟨y, rfl⟩
  | error e => exact .inr (congrArg Except.error (complementFails ran))

theorem boundsDecided (proper : m.Proper) (owned : m.Owns h) :
    m.Ranged h ∨ m.bounds h = .error .overflow := by
  have found := List.getElem?_eq_getElem owned
  have inhabited := proper.inhabited _ (List.mem_of_getElem? found)
  obtain ⟨lo, least⟩ := Domain.minExists inhabited
  obtain ⟨hi, most⟩ := Domain.maxExists inhabited
  have known := variableDomainOk.mpr ⟨_, found, rfl⟩
  by_cases sign : h.isNegated = true
  · have ran : m.bounds h = (do
        let first ← complementWord hi
        let last ← complementWord lo
        return ⟨first, last⟩) := by
      rw [bounds, known]
      simp [sign, least, most, bind, Except.bind]
    rw [Ranged, ran]
    rcases complementDecided hi with ⟨x, first⟩ | failed
    · rcases complementDecided lo with ⟨y, last⟩ | failed
      · exact .inl ⟨⟨x, y⟩, by rw [first, last]; rfl⟩
      · exact .inr (by rw [first, failed]; rfl)
    · exact .inr (by rw [failed]; rfl)
  · exact .inl ⟨⟨lo, hi⟩, boundsOk.mpr ⟨_, lo, hi, found, least, most, by rw [if_neg sign]⟩⟩

/-- How an operand that is no boolean is refused: by its range, or because it has none. -/
def Refuses (m : Model) (op : Operation) (h : Handle) (e : Failure) : Prop :=
  (∃ range, m.bounds h = .ok range ∧ e = .notBoolean op h range) ∨
    m.bounds h = .error .overflow ∧ e = .overflow

theorem assertBooleanFails (op : Operation) (proper : m.Proper) (owned : m.Owns h)
    (plain : ¬m.Literal h) :
    ∃ e, m.assertBoolean op h = .error e ∧ m.Refuses op h e := by
  rcases boundsDecided proper owned with ⟨range, known⟩ | failed
  · have outside : range.within ⟨0, 1⟩ = false :=
      Bool.eq_false_iff.mpr fun within => plain ⟨range, known, within⟩
    refine ⟨.notBoolean op h range, ?_, .inl ⟨range, known, rfl⟩⟩
    rw [assertBoolean, isBoolean, known]
    change (if range.within ⟨0, 1⟩ then _ else _) = _
    rw [outside]
    rfl
  · refine ⟨.overflow, ?_, .inr ⟨failed, rfl⟩⟩
    rw [assertBoolean, isBoolean, failed]
    rfl

theorem undecidedCons (lits : List Handle) (literal : m.Literal g) :
    (m.undecided (g :: lits) = .ok none ∧ m.bounds g = .ok (.truth true)) ∨
      m.bounds g ≠ .ok (.truth true) ∧ (m.undecided (g :: lits) = m.undecided lits ∨
        m.undecided (g :: lits) = do return (← m.undecided lits).map (g :: ·)) := by
  obtain ⟨range, known⟩ := literal.ranged
  rw [undecided, assertBooleanOk.mpr literal, isTrue, isFalse, isTruthKnown known,
    isTruthKnown known, known, Ne, Except.ok.injEq]
  by_cases isTrue : range = .truth true
  · exact .inl ⟨by rw [isTrue]; rfl, isTrue⟩
  refine .inr ⟨isTrue, ?_⟩
  have notTrue : (range == .truth true) = false := beq_eq_false_iff_ne.mpr isTrue
  rw [notTrue]
  cases range == .truth false
  · exact .inr rfl
  · exact .inl rfl

theorem undecidedStops {before : List Handle} (after : List Handle)
    (literals : ∀ g ∈ before, m.Literal g)
    (failed : m.assertBoolean .anyTrue h = .error e) :
    (m.undecided (before ++ h :: after) = .ok none ∧
        ∃ g ∈ before, m.bounds g = .ok (.truth true)) ∨
      (m.undecided (before ++ h :: after) = .error e ∧
        ¬∃ g ∈ before, m.bounds g = .ok (.truth true)) := by
  induction before with
  | nil =>
    refine .inr ⟨?_, by simp⟩
    rw [List.nil_append, undecided, failed]
    rfl
  | cons g before ih =>
    obtain ⟨literal, rest⟩ := List.forall_mem_cons.mp literals
    rw [List.cons_append, List.exists_mem_cons_iff]
    rcases undecidedCons (before ++ h :: after) literal with
      ⟨ran, isTrue⟩ | ⟨notTrue, same | kept⟩
    · exact .inl ⟨ran, .inl isTrue⟩
    · rw [same, or_iff_right notTrue]
      exact ih rest
    · rw [kept, or_iff_right notTrue]
      refine (ih rest).imp (fun found => ⟨?_, found.2⟩) fun missing => ⟨?_, missing.2⟩
      · rw [found.1]
        rfl
      · rw [missing.1]
        rfl

end Model

namespace Layer

open Model

variable {ops : Layer} {m n : Model} {c : Connective} {op : Operation} {l r h b : Handle}
  {e : Failure} {lits : List Handle}

theorem truthWithin (t : Bool) : (Interval.truth t).within ⟨0, 1⟩ = true := by
  cases t <;> rfl

theorem literalTruth {t : Bool} (known : m.bounds h = .ok (.truth t)) : m.Literal h :=
  ⟨_, known, truthWithin t⟩

theorem Waives.ranged (waived : ops.Waives m c l r b) : m.Ranged l := by
  cases waived with
  | absorbedLeft left => exact ⟨_, left⟩
  | absorbedRight left _ => exact left
  | neutralLeft left _ => exact ⟨_, left⟩
  | neutralRight left _ => exact left
  | same left _ => exact left
  | opposite left _ _ => exact left

theorem refusedPlain (refused : m.bounds h = .error .overflow) : ¬m.Ranged h := by
  intro ranged
  obtain ⟨range, known⟩ := ranged
  rw [refused] at known
  cases known

theorem Waives.right (waived : ops.Waives m c l r b) :
    m.bounds l = .ok (.truth c.absorbing) ∨ m.Ranged r := by
  cases waived with
  | absorbedLeft left => exact .inl left
  | absorbedRight _ right => exact .inr ⟨_, right⟩
  | neutralLeft _ right => exact .inr right
  | neutralRight _ right => exact .inr ⟨_, right⟩
  | same left equal => exact .inr (equal ▸ left)
  | opposite _ right _ => exact .inr right

theorem waivedAbsorbed (left : m.bounds l = .ok (.truth c.absorbing)) :
    ops.waived c l r m = .ok (some (ops.constant c.absorbing)) := by
  rw [waived, isTruthOk.mpr left]
  rfl

theorem waivedNone (ok : ops.waived c l r m = .ok none) : ¬∃ b, ops.Waives m c l r b := by
  intro waives
  obtain ⟨b, waived⟩ := waives
  obtain ⟨i, left⟩ := waived.ranged
  rcases waived.right with absorbed | ⟨j, right⟩
  · rw [waivedAbsorbed absorbed] at ok
    cases ok
  simp only [Layer.waived, isTruthKnown left, isTruthKnown right, bind, Except.bind] at ok
  split at ok
  · cases ok
  rename_i first
  split at ok
  · cases ok
  rename_i second
  split at ok
  · cases ok
  split at ok
  · cases ok
  rename_i kept
  simp only [Bool.or_eq_true, beq_iff_eq, decide_eq_true_eq, not_or] at kept
  split at ok
  · cases ok
  rename_i neutral
  rw [beq_iff_eq] at first second neutral
  cases waived with
  | absorbedLeft known => exact first (Except.ok.inj (left.symm.trans known))
  | absorbedRight _ known => exact second (Except.ok.inj (right.symm.trans known))
  | neutralLeft known _ => exact kept.1 (Except.ok.inj (left.symm.trans known))
  | neutralRight _ known => exact neutral (Except.ok.inj (right.symm.trans known))
  | same _ equal => exact kept.2 equal
  | opposite _ _ negated =>
    rw [negated] at ok
    simp at ok
    cases ok

theorem connectVarsLost (left : m.Ranged l) (right : m.bounds r = .error .overflow) :
    (∃ b, ops.Waives m c l r b ∧ ops.connectVars c l r m = .ok b m) ∨
      (¬∃ b, ops.Waives m c l r b) ∧ ops.connectVars c l r m = .error .overflow m := by
  obtain ⟨i, known⟩ := left
  by_cases absorbed : i = .truth c.absorbing
  · subst absorbed
    exact .inl ⟨_, .absorbedLeft known, runAfter (runAsk.mpr ⟨waivedAbsorbed known, rfl⟩)⟩
  refine .inr ⟨?_, runFails (askFails ?_)⟩
  · intro waives
    obtain ⟨b, waived⟩ := waives
    rcases waived.right with same | ranged
    · exact absorbed (Except.ok.inj (known.symm.trans same))
    · exact refusedPlain right ranged
  · have open' : (i == .truth c.absorbing) = false := beq_eq_false_iff_ne.mpr absorbed
    rw [waived, isTruthKnown known, open', isTruth, right]
    rfl

theorem literalsRefused (proper : m.Proper) (left : m.Owns l) (right : m.Owns r)
    (plain : ¬(m.Literal l ∧ m.Literal r)) (rest : Build Handle) :
    ∃ h e, (h = l ∨ h = r) ∧ ¬m.Literal h ∧ m.Refuses op h e ∧
      (do
        ask (·.assertBoolean op l)
        ask (·.assertBoolean op r)
        rest) m = .error e m := by
  by_cases first : m.Literal l
  · have second : ¬m.Literal r := fun second => plain ⟨first, second⟩
    obtain ⟨e, failed, refused⟩ := assertBooleanFails op proper right second
    refine ⟨r, e, .inr rfl, second, refused, ?_⟩
    rw [runAfter (runAsk.mpr ⟨assertBooleanOk.mpr first, rfl⟩)]
    exact runFails (askFails failed)
  · obtain ⟨e, failed, refused⟩ := assertBooleanFails op proper left first
    exact ⟨l, e, .inl rfl, first, refused, runFails (askFails failed)⟩

theorem connectVarsChecked (proper : m.Proper) (small : m.Small) (left : m.Ranged l)
    (right : m.Ranged r) (plain : ¬(m.Literal l ∧ m.Literal r)) :
    (∃ b, ops.Waives m c l r b ∧ ops.connectVars c l r m = .ok b m) ∨
      (¬∃ b, ops.Waives m c l r b) ∧ ∃ h e, (h = l ∨ h = r) ∧ ¬m.Literal h ∧
        m.Refuses c.operation h e ∧ ops.connectVars c l r m = .error e m := by
  obtain ⟨result, decided⟩ := ops.waivedSucceeds c small left right
  rw [connectVars, runAfter (runAsk.mpr ⟨decided, rfl⟩)]
  cases result with
  | none => exact .inr ⟨waivedNone decided, literalsRefused proper left.owned right.owned plain _⟩
  | some b =>
    rcases waivedCases decided with waived | ⟨first, second, _⟩
    · exact .inl ⟨b, waived, rfl⟩
    · exact absurd ⟨literalTruth first, literalTruth second⟩ plain

theorem connectVarsRefuses (ops : Layer) (c : Connective) (proper : m.Proper) (small : m.Small)
    (left : m.Owns l) (right : m.Owns r) (plain : ¬(m.Literal l ∧ m.Literal r)) :
    (∃ b, ops.Waives m c l r b ∧ ops.connectVars c l r m = .ok b m) ∨
      (¬∃ b, ops.Waives m c l r b) ∧ ∃ h e, (h = l ∨ h = r) ∧ ¬m.Literal h ∧
        m.Refuses c.operation h e ∧ ops.connectVars c l r m = .error e m := by
  have unranged : ∀ {h}, m.bounds h = .error .overflow → ¬m.Literal h := fun failed literal =>
    refusedPlain failed literal.ranged
  rcases boundsDecided proper left with first | failed
  · rcases boundsDecided proper right with second | failed
    · exact connectVarsChecked proper small first second plain
    · refine (connectVarsLost first failed).imp_right fun refused => ⟨refused.1, r, .overflow, ?_⟩
      exact ⟨.inr rfl, unranged failed, .inr ⟨failed, rfl⟩, refused.2⟩
  · refine .inr ⟨?_, l, .overflow, .inl rfl, unranged failed, .inr ⟨failed, rfl⟩, ?_⟩
    · intro waives
      obtain ⟨b, waived⟩ := waives
      exact refusedPlain failed waived.ranged
    · refine runFails (askFails ?_)
      rw [waived, isTruth, failed]
      rfl

theorem anyTrueRefuses {before after : List Handle} (proper : m.Proper) (owned : m.Owns h)
    (literals : ∀ g ∈ before, m.Literal g) (plain : ¬m.Literal h) :
    (ops.anyTrue (before ++ h :: after) m = .ok ops.trueVar m ∧
        ∃ g ∈ before, m.bounds g = .ok (.truth true)) ∨
      (¬∃ g ∈ before, m.bounds g = .ok (.truth true)) ∧ ∃ e, m.Refuses .anyTrue h e ∧
        ops.anyTrue (before ++ h :: after) m = .error e m := by
  obtain ⟨e, failed, refused⟩ := assertBooleanFails .anyTrue proper owned plain
  rcases undecidedStops after literals failed with ⟨ran, found⟩ | ⟨ran, missing⟩
  · exact .inl ⟨runAfter (a := none) (runAsk.mpr ⟨ran, rfl⟩), found⟩
  · exact .inr ⟨missing, e, refused, runFails (askFails ran)⟩

theorem anyTrueBoolean (inside : ops.In m) (small : n.Small) (ok : ops.anyTrue lits m = .ok b n) :
    n.Literal b := by
  obtain ⟨rest, found, ⟨same, ⟨_, constant⟩ | ⟨_, constant⟩ | single⟩ | ⟨hs, _, ok⟩⟩ :=
    anyTrueCases ok
  · exact same ▸ constant ▸ inside.literal true
  · exact same ▸ constant ▸ inside.literal false
  · subst single
    exact same ▸ undecidedLiterals found b (List.mem_singleton_self b)
  · exact reifyConnectiveLiteral small ok

end Layer

namespace Session

open Layer

variable {E : Type} [Encoding E] {ops : Layer} {e : E}

/-- A connective with an operand that is no boolean is refused, naming the operation, unless another
operand decides it; then the operand may itself be the result. A disjunction of a list is refused at
the first such operand, unless one before it is known to be true; its result is a boolean. Neither
changes the model. -/
theorem connectivesRefuse (calls : List (Call E)) (place : Nat) (built : ∀ c ∈ calls, c.Built)
    (found : (start.run calls).layers[place]? = some (ops, e))
    (small : (start.run calls).model.Small) :
    let m := (start.run calls).model
    (∀ c l r, m.Owns l → m.Owns r → ¬(m.Literal l ∧ m.Literal r) →
      (∃ b, ops.Waives m c l r b ∧ ops.connect c (.var l) (.var r) m = .ok (.var b) m) ∨
      (¬∃ b, ops.Waives m c l r b) ∧ ∃ h f, (h = l ∨ h = r) ∧ ¬m.Literal h ∧
        m.Refuses c.operation h f ∧ ops.connect c (.var l) (.var r) m = .error f m) ∧
    (∀ before h after, m.Owns h → (∀ g ∈ before, m.Literal g) → ¬m.Literal h →
      (ops.anyTrue (before ++ h :: after) m = .ok ops.trueVar m ∧
        ∃ g ∈ before, m.bounds g = .ok (.truth true)) ∨
      (¬∃ g ∈ before, m.bounds g = .ok (.truth true)) ∧ ∃ f, m.Refuses .anyTrue h f ∧
        ops.anyTrue (before ++ h :: after) m = .error f m) ∧
    ∀ lits b n, n.Small → ops.anyTrue lits m = .ok b n → n.Literal b := by
  intro m
  have sound := runSound built startSound
  have inside := sound.layers small _ (List.mem_of_getElem? found)
  refine ⟨fun c l r left right plain => ?_, fun before h after owned literals plain => ?_,
    fun lits b n later ok => anyTrueBoolean inside later ok⟩
  · rcases ops.connectVarsRefuses c sound.proper small left right plain with
      ⟨b, waived, ran⟩ | ⟨refused, h, f, operand, other, cause, ran⟩
    · exact .inl ⟨b, waived, runAfter ran⟩
    · exact .inr ⟨refused, h, f, operand, other, cause, runFails ran⟩
  · exact anyTrueRefuses sound.proper owned literals plain

theorem connectivesRefuseOnce :
    let calls : List (Call Dictionary) :=
      [.layer .standard .empty, .model (.int 0 9 "x"), .model (.bool "p")]
    let ops : Layer := ⟨⟨1, by decide⟩, ⟨2, by decide⟩, .standard⟩
    let x : Handle := ⟨3, by decide⟩
    let p : Handle := ⟨4, by decide⟩
    let m := (start.run calls).model
    m.Small ∧ m.Owns p ∧ m.Owns x ∧ ¬(m.Literal p ∧ m.Literal x) ∧
      ∃ f, m.Refuses .or x f ∧ ops.connect .or (.var p) (.var x) m = .error f m := by
  intro calls ops x p m
  have wide : m.bounds x = .ok ⟨0, 9⟩ := rfl
  have bit : m.Literal p := ⟨⟨0, 1⟩, rfl, by decide⟩
  have plain : ¬m.Literal x := fun ⟨range, known, within⟩ => by
    rw [wide] at known
    cases known
    exact absurd within (by decide)
  have left := bit.ranged.owned
  have right := Model.boundsOwned wide
  have small : m.Small := by decide
  have both : ¬(m.Literal p ∧ m.Literal x) := fun literals => plain literals.2
  have opened : (start.run calls).layers[0]? = some (ops, .empty) := rfl
  obtain ⟨connects, _⟩ := connectivesRefuse calls 0 (by simp [calls, Call.Built]) opened small
  refine ⟨small, left, right, both, ?_⟩
  rcases connects .or p x left right both with ⟨b, _, ran⟩ | ⟨_, h, f, operand, other, cause, ran⟩
  · cases ran
  · rcases operand with same | same
    · exact absurd (same ▸ bit) other
    · exact ⟨f, same ▸ cause, ran⟩

/- Next to a constant of the layer a variable with ten values is taken for a boolean, and even
returned as one; after the other constant, but not before it, it is taken for a literal of a list. -/
theorem connectivesAccept :
    let calls : List (Call Dictionary) := [.layer .standard .empty, .model (.int 0 9 "x")]
    let ops : Layer := ⟨⟨1, by decide⟩, ⟨2, by decide⟩, .standard⟩
    let x : Handle := ⟨3, by decide⟩
    let m := (start.run calls).model
    (start.run calls).layers = [(ops, .empty)] ∧ m.bounds x = .ok ⟨0, 9⟩ ∧
      ops.connect .or (.var ops.falseVar) (.var x) m = .ok (.var x) m ∧
      ops.anyTrue [ops.trueVar, x] m = .ok ops.trueVar m ∧
      ops.anyTrue [x, ops.trueVar] m = .error (.notBoolean .anyTrue x ⟨0, 9⟩) m :=
  ⟨rfl, rfl, rfl, rfl, rfl⟩

end Session

end ConstraintAlgebra
