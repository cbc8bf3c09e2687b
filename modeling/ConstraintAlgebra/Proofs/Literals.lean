import ConstraintAlgebra.Membership
import ConstraintAlgebra.Proofs.Denotation
import ConstraintAlgebra.Proofs.Settling

/-! Literals for boolean operators and for membership. Known operands, equal ones and complements
are decided without a new variable; the value is the same as that of the posted constraints. -/
namespace ConstraintAlgebra

def Bit (v : Int) : Prop := v = 0 ∨ v = 1

def Connective.Joins : Connective → Prop → Prop → Prop
  | .or, p, q => p ∨ q
  | .and, p, q => p ∧ q

def Connective.Over : Connective → (Handle → Int) → List Handle → Prop
  | .or, value, lits => ∃ h ∈ lits, value h = 1
  | .and, value, lits => ∀ h ∈ lits, value h = 1

def Connective.unites : Connective → List Int64 → Bool
  | .or, xs => xs.any (· == 1)
  | .and, xs => xs.all (· == 1)

theorem Connective.unitesCons {c : Connective} {x : Int64} {xs : List Int64} :
    c.unites (x :: xs) = c.combine (x == 1) (c.unites xs) := by
  cases c <;> rfl

theorem Connective.overCons {c : Connective} {value : Handle → Int} {h : Handle}
    {lits : List Handle} :
    c.Over value (h :: lits) ↔ c.Joins (value h = 1) (c.Over value lits) := by
  cases c <;> simp [Over, Joins]

theorem Connective.overPair {c : Connective} {value : Handle → Int} {l r : Handle} :
    c.Over value [l, r] ↔ c.Joins (value l = 1) (value r = 1) := by
  cases c <;> simp [Over, Joins]

theorem truthValue {x : Int64} {t : Bool} (mem : x ∈ Interval.truth t) :
    x.toInt = Relation.truth t := by
  rw [Interval.memPoint.mp mem]
  cases t <;> rfl

theorem bitWithin {x : Int64} {range : Interval} (within : range.within ⟨0, 1⟩ = true)
    (mem : x ∈ range) : x = 0 ∨ x = 1 := by
  simp only [Interval.within, Bool.and_eq_true, decide_eq_true_eq, Int64.le_iff_toInt_le] at within
  have ends := Interval.memExact.mp mem
  simp only [← Int64.toInt_inj]
  have := Int64.toInt_zero
  have := Int64.toInt_one
  omega

namespace Model

variable {m n : Model} {a : Assignment} {ρ : Reading} {h l r b : Handle} {x y : Int64}

def Ranged (m : Model) (h : Handle) : Prop := ∃ range, m.bounds h = .ok range

def Literal (m : Model) (h : Handle) : Prop :=
  ∃ range, m.bounds h = .ok range ∧ range.within ⟨0, 1⟩ = true

theorem isTruthKnown {range : Interval} (known : m.bounds h = .ok range) (t : Bool) :
    m.isTruth t h = .ok (range == .truth t) := by
  rw [isTruth, known]
  rfl

theorem isTruthOk {t : Bool} : m.isTruth t h = .ok true ↔ m.bounds h = .ok (.truth t) := by
  simp only [isTruth, bindOk, pureOk, beq_iff_eq, exists_eq_right]

theorem isTruthRanged {t k : Bool} (ok : m.isTruth t h = .ok k) : m.Ranged h := by
  obtain ⟨range, known, _⟩ := bindOk.mp ok
  exact ⟨range, known⟩

theorem isBooleanOk : m.isBoolean h = .ok true ↔ m.Literal h := by
  simp only [isBoolean, bindOk, pureOk, Literal]

theorem assertBooleanOk {op : Operation} : m.assertBoolean op h = .ok () ↔ m.Literal h := by
  rw [assertBoolean, bindOk]
  constructor
  · rintro ⟨bool, asked, ok⟩
    cases bool
    · obtain ⟨_, _, failed⟩ := bindOk.mp ok
      cases failed
    · exact isBooleanOk.mp asked
  · exact fun literal => ⟨true, isBooleanOk.mpr literal, rfl⟩

theorem Literal.bit (literal : m.Literal h) (proper : m.Proper) (admits : m.Admits a) :
    ∃ x, a.value h = .ok x ∧ (x = 0 ∨ x = 1) := by
  obtain ⟨range, known, within⟩ := literal
  obtain ⟨x, value, mem⟩ := boundsExact proper admits known
  exact ⟨x, value, bitWithin within mem⟩

theorem connectiveHolds {c : Connective} {hs : List Handle} {xs : List Int64}
    (values : List.Forall₂ (fun h x => a.value h = .ok x) hs xs) :
    (c.holds hs).holds a = .ok (c.unites xs) := by
  induction values with
  | nil => cases c <;> rfl
  | @cons h x hs xs value rest ih =>
    cases c with
    | or =>
      change hs.anyM a.isTrue = _ at ih
      change (h :: hs).anyM a.isTrue = .ok (x == 1 || xs.any (· == 1))
      simp only [List.anyM, isTrueOk value, bind, Except.bind, ih]
      cases x == 1 <;> rfl
    | and =>
      change hs.allM a.isTrue = _ at ih
      change (h :: hs).allM a.isTrue = .ok (x == 1 && xs.all (· == 1))
      simp only [List.allM, isTrueOk value, bind, Except.bind, ih]
      cases x == 1 <;> rfl

theorem connectiveRead {c : Connective} (reads : ρ.Reads a) {hs : List Handle} {xs : List Int64}
    (values : List.Forall₂ (fun h x => a.value h = .ok x) hs xs) :
    c.Over ρ.value hs ↔ c.unites xs = true := by
  induction values with
  | nil => cases c <;> simp [Connective.Over, Connective.unites]
  | @cons h x hs xs value rest ih =>
    rw [Connective.overCons, Connective.unitesCons, ih, reads h x value, ← Int64.toInt_one,
      Int64.toInt_inj]
    cases c <;> simp [Connective.Joins, Connective.combine]

theorem complementValues {lits complements : List Handle}
    (negated : List.Forall₂ (fun h n => h.negate = .ok n) lits complements)
    (bits : ∀ h ∈ lits, ∃ x, a.value h = .ok x ∧ (x = 0 ∨ x = 1)) :
    ∃ xs ys, List.Forall₂ (fun h x => a.value h = .ok x) lits xs ∧
      List.Forall₂ (fun h x => a.value h = .ok x) complements ys ∧
      ∀ c : Connective, c.dual.unites ys = !c.unites xs := by
  induction negated with
  | nil => exact ⟨[], [], .nil, .nil, fun c => by cases c <;> rfl⟩
  | @cons h n lits complements negate rest ih =>
    obtain ⟨⟨x, value, bit⟩, tail⟩ := List.forall_mem_cons.mp bits
    obtain ⟨xs, ys, hxs, hys, opposed⟩ := ih tail
    have opposite : a.value n = .ok (if x = 1 then 0 else 1) :=
      (negateValue negate value).mpr (by rcases bit with rfl | rfl <;> rfl)
    refine ⟨x :: xs, _ :: ys, .cons value hxs, .cons opposite hys, fun c => ?_⟩
    rw [Connective.unitesCons, Connective.unitesCons, opposed]
    rcases bit with rfl | rfl <;> cases c <;> simp [Connective.dual, Connective.combine]

theorem valuesPush {hs : List Handle} {xs : List Int64}
    (values : List.Forall₂ (fun h x => a.value h = .ok x) hs xs) :
    List.Forall₂ (fun h x => (a.push y).value h = .ok x) hs xs :=
  values.imp fun _ _ value => pushValue value

theorem reifyConnectiveSettled {c : Connective} {lits : List Handle} (proper : m.Proper)
    (small : n.Small) (ok : reifyConnective c lits m = .ok b n)
    (bits : ∀ a, m.Admits a → ∀ h ∈ lits, ∃ x, a.value h = .ok x ∧ (x = 0 ∨ x = 1)) :
    Settled m n fun ρ => Marks (ρ.value b) (c.Over ρ.value lits) := by
  simp only [reifyConnective, runBind, runMapMLift] at ok
  obtain ⟨complements, _, ⟨negated, rfl⟩, ok⟩ := ok
  refine reifySettled proper small ok fun a admits => ?_
  obtain ⟨xs, ys, hxs, hys, opposed⟩ := complementValues negated (bits a admits)
  exact ⟨c.unites xs, fun y => connectiveHolds (valuesPush hxs),
    fun y => opposed c ▸ connectiveHolds (valuesPush hys), fun ρ reads => connectiveRead reads hxs⟩

end Model

namespace Layer

open Model

variable {ops : Layer} {m n : Model} {a : Assignment} {ρ : Reading} {h l r b : Handle} {x : Int64}

theorem joinsKnown {c : Connective} {p q : Int} :
    (p = Relation.truth c.absorbing → (c.Joins (p = 1) (q = 1) ↔ c.absorbing = true)) ∧
    (q = Relation.truth c.absorbing → (c.Joins (p = 1) (q = 1) ↔ c.absorbing = true)) ∧
    (p = Relation.truth (!c.absorbing) → (c.Joins (p = 1) (q = 1) ↔ q = 1)) ∧
    (q = Relation.truth (!c.absorbing) → (c.Joins (p = 1) (q = 1) ↔ p = 1)) := by
  cases c <;> simp +contextual [Connective.Joins, Connective.absorbing, Relation.truth]

theorem bitMarks {v : Int} (bit : Bit v) : Marks v (v = 1) := by
  rcases bit with rfl | rfl
  · exact .inr ⟨rfl, by decide⟩
  · exact .inl ⟨rfl, rfl⟩

theorem knownTruth (proper : m.Proper) (admits : m.Admits a) (reads : ρ.Reads a) {t : Bool}
    (known : m.bounds h = .ok (.truth t)) : ρ.value h = Relation.truth t := by
  obtain ⟨x, value, mem⟩ := boundsExact proper admits known
  rw [reads h x value, truthValue mem]

inductive Waives (ops : Layer) (m : Model) (c : Connective) (l r : Handle) : Handle → Prop where
  | absorbedLeft (left : m.bounds l = .ok (.truth c.absorbing)) :
      Waives ops m c l r (ops.constant c.absorbing)
  | absorbedRight (left : m.Ranged l) (right : m.bounds r = .ok (.truth c.absorbing)) :
      Waives ops m c l r (ops.constant c.absorbing)
  | neutralLeft (left : m.bounds l = .ok (.truth !c.absorbing)) (right : m.Ranged r) :
      Waives ops m c l r r
  | neutralRight (left : m.Ranged l) (right : m.bounds r = .ok (.truth !c.absorbing)) :
      Waives ops m c l r l
  | same (left : m.Ranged l) (equal : l = r) : Waives ops m c l r r
  | opposite (left : m.Ranged l) (right : m.Ranged r) (negated : r.negate = .ok l) :
      Waives ops m c l r (ops.constant c.absorbing)

theorem waivedCases {c : Connective} (ok : ops.waived c l r m = .ok (some b)) :
    ops.Waives m c l r b ∨ m.bounds l = .ok (.truth !c.absorbing) ∧
      m.bounds r = .ok (.truth !c.absorbing) ∧ b = ops.constant (!c.absorbing) := by
  simp only [waived, bindOk] at ok
  obtain ⟨absorbedLeft, first, ok⟩ := ok
  split at ok
  · rename_i absorbed
    cases ok
    exact .inl (.absorbedLeft (isTruthOk.mp (absorbed ▸ first)))
  simp only [bindOk] at ok
  obtain ⟨absorbedRight, second, ok⟩ := ok
  split at ok
  · rename_i absorbed
    cases ok
    exact .inl (.absorbedRight (isTruthRanged first) (isTruthOk.mp (absorbed ▸ second)))
  simp only [bindOk] at ok
  obtain ⟨left, knownLeft, right, knownRight, ok⟩ := ok
  split at ok
  · rename_i both
    cases ok
    obtain ⟨rfl, rfl⟩ := Bool.and_eq_true_iff.mp both
    exact .inr ⟨isTruthOk.mp knownLeft, isTruthOk.mp knownRight, rfl⟩
  split at ok
  · rename_i kept
    cases ok
    rcases Bool.or_eq_true_iff.mp kept with neutral | equal
    · exact .inl (.neutralLeft (isTruthOk.mp (neutral ▸ knownLeft)) (isTruthRanged second))
    · exact .inl (.same (isTruthRanged first) (of_decide_eq_true equal))
  split at ok
  · rename_i neutral
    cases ok
    exact .inl (.neutralRight (isTruthRanged first) (isTruthOk.mp (neutral ▸ knownRight)))
  simp only [bindOk] at ok
  obtain ⟨opposite, negated, ok⟩ := ok
  split at ok
  · rename_i same
    cases ok
    exact .inl (.opposite (isTruthRanged first) (isTruthRanged second) (same ▸ negated))
  · cases ok

theorem connectVarsCases {c : Connective} (ok : ops.connectVars c l r m = .ok b n) :
    (m = n ∧ (ops.Waives m c l r b ∨ m.bounds l = .ok (.truth !c.absorbing) ∧
      m.bounds r = .ok (.truth !c.absorbing) ∧ b = ops.constant (!c.absorbing))) ∨
    (m.Literal l ∧ m.Literal r ∧ reifyConnective c [l, r] m = .ok b n) := by
  simp only [connectVars, runBind, runAsk] at ok
  obtain ⟨result, _, ⟨decided, rfl⟩, ok⟩ := ok
  cases result with
  | none =>
    simp only [runBind, runAsk] at ok
    obtain ⟨_, _, ⟨left, rfl⟩, _, _, ⟨right, rfl⟩, ok⟩ := ok
    exact .inr ⟨assertBooleanOk.mp left, assertBooleanOk.mp right, ok⟩
  | some b =>
    obtain ⟨rfl, rfl⟩ := runPure.mp ok
    exact .inl ⟨rfl, waivedCases decided⟩

theorem joinsOpposite {c : Connective} {v : Int} (bit : Bit v) :
    c.Joins (1 - v = 1) (v = 1) ↔ c.absorbing = true := by
  rcases bit with rfl | rfl <;> cases c <;> simp [Connective.Joins, Connective.absorbing]

theorem waivesSettled {c : Connective} (proper : m.Proper) (inside : ops.In m)
    (waived : ops.Waives m c l r b) : Settled m m fun ρ => Bit (ρ.value l) → Bit (ρ.value r) →
      Marks (ρ.value b) (c.Joins (ρ.value l = 1) (ρ.value r = 1)) := by
  refine settledSame proper fun a ρ solution reads bitLeft bitRight => ?_
  have admits := (solutionExact.mp solution).1
  cases waived with
  | absorbedLeft left =>
    exact inside.marks solution reads (joinsKnown.1 (knownTruth proper admits reads left))
  | absorbedRight _ right =>
    exact inside.marks solution reads (joinsKnown.2.1 (knownTruth proper admits reads right))
  | neutralLeft left _ =>
    exact (marksCongr (joinsKnown.2.2.1 (knownTruth proper admits reads left))).mpr (bitMarks bitRight)
  | neutralRight _ right =>
    exact (marksCongr (joinsKnown.2.2.2 (knownTruth proper admits reads right))).mpr (bitMarks bitLeft)
  | same _ equal =>
    subst equal
    have same : c.Joins (ρ.value l = 1) (ρ.value l = 1) ↔ ρ.value l = 1 := by
      cases c <;> simp [Connective.Joins]
    exact (marksCongr same).mpr (bitMarks bitLeft)
  | opposite left right negated =>
    obtain ⟨i, left⟩ := left
    obtain ⟨j, right⟩ := right
    obtain ⟨x, hx, _⟩ := boundsExact proper admits left
    obtain ⟨y, hy, _⟩ := boundsExact proper admits right
    have image : ρ.value l = 1 - ρ.value r := by
      rw [reads _ _ hx, reads _ _ hy, (negateValue negated hy).mp hx]
    refine inside.marks solution reads ?_
    rw [image]
    exact joinsOpposite bitRight

theorem connectVarsSettled {c : Connective} (proper : m.Proper) (inside : ops.In m)
    (small : n.Small) (ok : ops.connectVars c l r m = .ok b n) :
    Settled m n fun ρ => Bit (ρ.value l) → Bit (ρ.value r) →
      Marks (ρ.value b) (c.Joins (ρ.value l = 1) (ρ.value r = 1)) := by
  obtain ⟨rfl, waived | ⟨first, second, rfl⟩⟩ | ⟨left, right, ok⟩ := connectVarsCases ok
  · exact waivesSettled proper inside waived
  · refine (inside.settled proper fun a ρ admits reads => ?_).imp fun _ _ _ _ marks _ _ => marks
    rw [joinsKnown.2.2.1 (knownTruth proper admits reads first), knownTruth proper admits reads second]
    cases c <;> decide
  · refine (reifyConnectiveSettled proper small ok fun a admits => ?_).imp
      fun a ρ _ _ marks _ _ => (marksCongr Connective.overPair).mp marks
    simpa using ⟨left.bit proper admits, right.bit proper admits⟩

theorem connectConstCases {c : Connective} {t : Bool} (ok : ops.connectConst c h t m = .ok b n) :
    m = n ∧ m.Literal h ∧
      ((b = ops.constant c.absorbing ∧ (t = c.absorbing ∨ m.bounds h = .ok (.truth c.absorbing))) ∨
        t = (!c.absorbing) ∧ (b = h ∨ b = ops.constant t ∧ m.bounds h = .ok (.truth t))) := by
  simp only [connectConst, runBind, runAsk] at ok
  obtain ⟨_, _, ⟨checked, rfl⟩, absorbed, _, ⟨asked, rfl⟩, ok⟩ := ok
  have literal := assertBooleanOk.mp checked
  split at ok
  · rename_i decided
    obtain ⟨rfl, rfl⟩ := runPure.mp ok
    refine ⟨rfl, literal, .inl ⟨rfl, ?_⟩⟩
    rcases Bool.or_eq_true_iff.mp decided with same | known
    · exact .inl (of_decide_eq_true same)
    · exact .inr (isTruthOk.mp (known ▸ asked))
  rename_i free
  simp only [Bool.or_eq_true, decide_eq_true_eq, not_or] at free
  have neutral : t = !c.absorbing := Bool.eq_not.mpr free.1
  subst neutral
  simp only [runBind, runAsk] at ok
  obtain ⟨neutral, _, ⟨asked, rfl⟩, ok⟩ := ok
  split at ok
  · rename_i known
    obtain ⟨rfl, rfl⟩ := runPure.mp ok
    exact ⟨rfl, literal, .inr ⟨rfl, .inr ⟨rfl, isTruthOk.mp (known ▸ asked)⟩⟩⟩
  · obtain ⟨rfl, rfl⟩ := runPure.mp ok
    exact ⟨rfl, literal, .inr ⟨rfl, .inl rfl⟩⟩

theorem connectConstSettled {c : Connective} {t : Bool} (proper : m.Proper) (inside : ops.In m)
    (ok : ops.connectConst c h t m = .ok b n) :
    Settled m n fun ρ => Marks (ρ.value b) (c.Joins (Relation.truth t = 1) (ρ.value h = 1)) := by
  obtain ⟨rfl, literal, ⟨rfl, known⟩ | ⟨rfl, rfl | ⟨rfl, known⟩⟩⟩ := connectConstCases ok
  · refine inside.settled proper fun a ρ admits reads => ?_
    rcases known with rfl | known
    · exact joinsKnown.1 rfl
    · exact joinsKnown.2.1 (knownTruth proper admits reads known)
  · refine settledSame proper fun a ρ solution reads => ?_
    obtain ⟨x, value, bit⟩ := literal.bit proper (solutionExact.mp solution).1
    rw [marksCongr (joinsKnown.2.2.1 rfl), reads _ _ value]
    exact bitMarks (by rcases bit with rfl | rfl <;> simp [Bit])
  · refine inside.settled proper fun a ρ admits reads => ?_
    rw [joinsKnown.2.2.1 rfl, knownTruth proper admits reads known]
    cases c <;> decide

theorem joinsComm {c : Connective} {p q : Prop} : c.Joins p q ↔ c.Joins q p := by
  cases c
  · exact or_comm
  · exact and_comm

inductive Connected (ops : Layer) (c : Connective) (m n : Model) :
    Operand → Operand → Operand → Prop where
  | scalars {p q : Bool} (same : m = n) :
      Connected ops c m n (.scalar (.bool p)) (.scalar (.bool q)) (.scalar (.bool (c.combine p q)))
  | scalarFirst {t : Bool} {h b : Handle} (ran : ops.connectConst c h t m = .ok b n) :
      Connected ops c m n (.scalar (.bool t)) (.var h) (.var b)
  | handleFirst {t : Bool} {h b : Handle} (ran : ops.connectConst c h t m = .ok b n) :
      Connected ops c m n (.var h) (.scalar (.bool t)) (.var b)
  | handles {l r b : Handle} (ran : ops.connectVars c l r m = .ok b n) :
      Connected ops c m n (.var l) (.var r) (.var b)

theorem connectCases {c : Connective} {x y z : Operand} (ok : ops.connect c x y m = .ok z n) :
    ops.Connected c m n x y z := by
  unfold connect at ok
  split at ok
  · obtain ⟨rfl, same⟩ := runPure.mp ok
    exact .scalars same
  · simp only [runMap] at ok
    obtain ⟨b, ran, rfl⟩ := ok
    exact .scalarFirst ran
  · simp only [runMap] at ok
    obtain ⟨b, ran, rfl⟩ := ok
    exact .handleFirst ran
  · simp only [runMap] at ok
    obtain ⟨b, ran, rfl⟩ := ok
    exact .handles ran
  · exact absurd ok runThrow

theorem connectSettled {c : Connective} {x y z : Operand} (proper : m.Proper) (inside : ops.In m)
    (small : n.Small) (ok : ops.connect c x y m = .ok z n) :
    Settled m n fun ρ => Bit (x.denote ρ) → Bit (y.denote ρ) →
      Marks (z.denote ρ) (c.Joins (x.denote ρ = 1) (y.denote ρ = 1)) := by
  cases connectCases ok with
  | @scalars p q same =>
    subst same
    refine settledSame proper fun a ρ solution reads _ _ => marksTruth ?_
    change c.Joins (Relation.truth p = 1) (Relation.truth q = 1) ↔ c.combine p q = true
    cases c <;> cases p <;> cases q <;>
      simp [Connective.Joins, Connective.combine, Relation.truth]
  | scalarFirst ran =>
    exact (connectConstSettled proper inside ran).imp fun a ρ _ _ marks _ _ => marks
  | handleFirst ran =>
    exact (connectConstSettled proper inside ran).imp fun a ρ _ _ marks _ _ =>
      (marksCongr joinsComm).mp marks
  | handles ran => exact connectVarsSettled proper inside small ran

theorem notVarCases (ok : ops.notVar h m = .ok b n) :
    (∃ t, m.bounds h = .ok (.truth t) ∧ b = ops.constant (!t) ∧ m = n) ∨
      (m.Literal h ∧ h.negate = .ok b ∧ m = n) ∨ ops.compareConst .eq h 0 m = .ok b n := by
  simp only [notVar, runBind, runAsk] at ok
  obtain ⟨_, _, ⟨first, rfl⟩, ok⟩ := ok
  split at ok
  · rename_i isTrue
    obtain ⟨rfl, rfl⟩ := runPure.mp ok
    exact .inl ⟨true, isTruthOk.mp (first.trans (congrArg _ isTrue)), rfl, rfl⟩
  simp only [runBind, runAsk] at ok
  obtain ⟨_, _, ⟨second, rfl⟩, ok⟩ := ok
  split at ok
  · rename_i isFalse
    obtain ⟨rfl, rfl⟩ := runPure.mp ok
    exact .inl ⟨false, isTruthOk.mp (second.trans (congrArg _ isFalse)), rfl, rfl⟩
  simp only [runBind, runAsk] at ok
  obtain ⟨_, _, ⟨third, rfl⟩, ok⟩ := ok
  split at ok
  · rename_i native
    obtain ⟨negated, rfl⟩ := runLift.mp ok
    have bool := (Bool.and_eq_true_iff.mp native).2
    exact .inr (.inl ⟨isBooleanOk.mp (bool ▸ third), negated, rfl⟩)
  · exact .inr (.inr ok)

theorem notVarSettled (proper : m.Proper) (inside : ops.In m) (small : n.Small)
    (ok : ops.notVar h m = .ok b n) :
    Settled m n fun ρ => Marks (ρ.value b) (ρ.value h = 0) := by
  obtain ⟨t, known, rfl, rfl⟩ | ⟨literal, negated, rfl⟩ | ok := notVarCases ok
  · refine inside.settled proper fun a ρ admits reads => ?_
    rw [knownTruth proper admits reads known]
    cases t <;> decide
  · refine settledSame proper fun a ρ solution reads => ?_
    obtain ⟨x, value, bit⟩ := literal.bit proper (solutionExact.mp solution).1
    rcases bit with rfl | rfl
    · rw [reads _ _ value, reads b 1 ((negateValue negated value).mpr rfl)]
      exact .inl ⟨rfl, rfl⟩
    · rw [reads _ _ value, reads b 0 ((negateValue negated value).mpr rfl)]
      exact .inr ⟨rfl, by decide⟩
  · exact compareConstSettled proper inside small ok

theorem notCases {x y : Operand} (ok : ops.not x m = .ok y n) :
    (∃ p, x = .scalar (.bool p) ∧ y = .scalar (.bool (!p)) ∧ m = n) ∨
      ∃ h b, x = .var h ∧ y = .var b ∧ ops.notVar h m = .ok b n := by
  unfold Layer.not at ok
  split at ok
  · rename_i p
    obtain ⟨rfl, same⟩ := runPure.mp ok
    exact .inl ⟨p, rfl, rfl, same⟩
  · simp only [runMap] at ok
    obtain ⟨b, ran, rfl⟩ := ok
    exact .inr ⟨_, b, rfl, rfl, ran⟩
  · exact absurd ok runThrow

theorem notSettled {x y : Operand} (proper : m.Proper) (inside : ops.In m) (small : n.Small)
    (ok : ops.not x m = .ok y n) :
    Settled m n fun ρ => Marks (y.denote ρ) (x.denote ρ = 0) := by
  obtain ⟨p, rfl, rfl, rfl⟩ | ⟨h, b, rfl, rfl, ran⟩ := notCases ok
  · refine settledSame proper fun a ρ _ _ => marksTruth ?_
    change Relation.truth p = 0 ↔ (!p) = true
    cases p <;> decide
  · exact notVarSettled proper inside small ran

end Layer

namespace Model

variable {m : Model} {a : Assignment} {ρ : Reading} {h : Handle}

theorem undecidedConsOk {lits : List Handle} {rest : Option (List Handle)}
    (ok : m.undecided (h :: lits) = .ok rest) :
    m.Literal h ∧ ((m.bounds h = .ok (.truth true) ∧ rest = none) ∨
      ∃ others, m.undecided lits = .ok others ∧
        (m.bounds h = .ok (.truth false) ∧ rest = others ∨ rest = others.map (h :: ·))) := by
  simp only [undecided, bindOk] at ok
  obtain ⟨_, checked, _, first, ok⟩ := ok
  refine ⟨assertBooleanOk.mp checked, ?_⟩
  split at ok
  · rename_i isTrue
    cases ok
    exact .inl ⟨isTruthOk.mp (first.trans (congrArg _ isTrue)), rfl⟩
  simp only [bindOk] at ok
  obtain ⟨_, second, ok⟩ := ok
  refine .inr ?_
  split at ok
  · rename_i isFalse
    exact ⟨rest, ok, .inl ⟨isTruthOk.mp (second.trans (congrArg _ isFalse)), rfl⟩⟩
  · obtain ⟨others, tail, same⟩ := bindOk.mp ok
    exact ⟨others, tail, .inr (pureOk.mp same).symm⟩

theorem undecidedSomeOk {lits rest : List Handle} (ok : m.undecided (h :: lits) = .ok (some rest)) :
    m.Literal h ∧ ∃ others, m.undecided lits = .ok (some others) ∧
      (m.bounds h = .ok (.truth false) ∧ rest = others ∨ rest = h :: others) := by
  obtain ⟨literal, ⟨_, none⟩ | ⟨others, tail, kept⟩⟩ := undecidedConsOk ok
  · cases none
  refine ⟨literal, ?_⟩
  rcases kept with ⟨isFalse, same⟩ | same
  · exact ⟨rest, same ▸ tail, .inl ⟨isFalse, rfl⟩⟩
  · obtain ⟨kept, found, same⟩ := Option.map_eq_some_iff.mp same.symm
    exact ⟨kept, found ▸ tail, .inr same.symm⟩

theorem undecidedExact (proper : m.Proper) (admits : m.Admits a) (reads : ρ.Reads a)
    {lits : List Handle} {rest : Option (List Handle)} (ok : m.undecided lits = .ok rest) :
    match rest with
    | none => ∃ h ∈ lits, ρ.value h = 1
    | some rest => ((∃ h ∈ lits, ρ.value h = 1) ↔ ∃ h ∈ rest, ρ.value h = 1) ∧
        ∀ h ∈ rest, ∃ x, a.value h = .ok x ∧ (x = 0 ∨ x = 1) := by
  induction lits generalizing rest with
  | nil =>
    cases ok
    simp
  | cons h lits ih =>
    obtain ⟨literal, ⟨isTrue, rfl⟩ | ⟨others, tail, ⟨isFalse, rfl⟩ | rfl⟩⟩ := undecidedConsOk ok
    · exact ⟨h, by simp, Layer.knownTruth proper admits reads isTrue⟩
    · have zero : ρ.value h ≠ 1 := by
        rw [Layer.knownTruth proper admits reads isFalse]
        decide
      have tail := ih tail
      cases rest <;> simpa [zero] using tail
    · have tail := ih tail
      cases others with
      | none => exact tail.imp fun g hg => ⟨List.mem_cons_of_mem _ hg.1, hg.2⟩
      | some others => simpa [tail.1] using ⟨literal.bit proper admits, tail.2⟩

theorem undecidedLiterals {lits rest : List Handle} (ok : m.undecided lits = .ok (some rest)) :
    ∀ h ∈ rest, m.Literal h := by
  induction lits generalizing rest with
  | nil =>
    cases ok
    simp
  | cons h lits ih =>
    obtain ⟨literal, others, tail, ⟨_, rfl⟩ | rfl⟩ := undecidedSomeOk ok
    · exact ih tail
    · exact List.forall_mem_cons.mpr ⟨literal, ih tail⟩

theorem undecidedSubset {lits rest : List Handle} (ok : m.undecided lits = .ok (some rest)) :
    rest ⊆ lits := by
  induction lits generalizing rest with
  | nil =>
    cases ok
    exact List.Subset.refl []
  | cons h lits ih =>
    obtain ⟨_, others, tail, ⟨_, rfl⟩ | rfl⟩ := undecidedSomeOk ok
    · exact List.subset_cons_of_subset h (ih tail)
    · exact List.cons_subset_cons h (ih tail)

end Model

namespace Layer

open Model

variable {ops : Layer} {m n : Model} {h b : Handle}

theorem anyTrueCases {lits : List Handle} (ok : ops.anyTrue lits m = .ok b n) :
    ∃ rest, m.undecided lits = .ok rest ∧
      ((m = n ∧ (rest = none ∧ b = ops.constant true ∨ rest = some [] ∧ b = ops.constant false ∨
        rest = some [b])) ∨
      ∃ hs, rest = some hs ∧ reifyConnective .or hs m = .ok b n) := by
  simp only [anyTrue, runBind, runAsk] at ok
  obtain ⟨rest, _, ⟨found, rfl⟩, ok⟩ := ok
  refine ⟨rest, found, ?_⟩
  split at ok
  · obtain ⟨rfl, rfl⟩ := runPure.mp ok
    exact .inl ⟨rfl, .inl ⟨rfl, rfl⟩⟩
  · obtain ⟨rfl, rfl⟩ := runPure.mp ok
    exact .inl ⟨rfl, .inr (.inl ⟨rfl, rfl⟩)⟩
  · obtain ⟨rfl, rfl⟩ := runPure.mp ok
    exact .inl ⟨rfl, .inr (.inr rfl)⟩
  · exact .inr ⟨_, rfl, ok⟩

theorem anyTrueSettled {lits : List Handle} (proper : m.Proper) (inside : ops.In m)
    (small : n.Small) (ok : ops.anyTrue lits m = .ok b n) :
    Settled m n fun ρ => Marks (ρ.value b) (∃ h ∈ lits, ρ.value h = 1) := by
  obtain ⟨rest, found, ⟨rfl, ⟨rfl, rfl⟩ | ⟨rfl, rfl⟩ | rfl⟩ | ⟨hs, rfl, ok⟩⟩ := anyTrueCases ok
  · refine inside.settled proper fun a ρ admits reads => ?_
    simpa using undecidedExact proper admits reads found
  · refine inside.settled proper fun a ρ admits reads => ?_
    simpa using undecidedExact proper admits reads found
  · refine settledSame proper fun a ρ solution reads => ?_
    obtain ⟨same, bits⟩ := undecidedExact proper (solutionExact.mp solution).1 reads found
    obtain ⟨x, value, bit⟩ := bits b (by simp)
    simp only [List.mem_singleton, exists_eq_left] at same
    rw [marksCongr same, reads _ _ value]
    exact bitMarks (by rcases bit with rfl | rfl <;> simp [Bit])
  · have old := reifyConnectiveSettled proper small ok fun a admits =>
      (undecidedExact proper admits (readingReads a (fun _ => 0) (fun _ => 0)) found).2
    -- The literals that are left are known only for the values there were before.
    refine old.imp fun a ρ solution reads marks => ?_
    have before := ((solutionExact.mp solution).1).restrict old.le
    exact (marksCongr (undecidedExact proper before (reads.restrict _) found).1).mpr marks

end Layer

end ConstraintAlgebra
