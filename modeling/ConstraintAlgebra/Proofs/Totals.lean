import ConstraintAlgebra.Arithmetic
import ConstraintAlgebra.Proofs.Denotation
import ConstraintAlgebra.Proofs.Settling

/-! Sums. The declared range of a new sum holds every value that the terms can give, and neither the
range nor an evaluation ever leaves 128 bits, so the sum has exactly one value. -/
namespace ConstraintAlgebra

theorem scaledBetween {c lo hi x : Int} (below : lo ≤ x) (above : x ≤ hi) :
    min (c * lo) (c * hi) ≤ c * x ∧ c * x ≤ max (c * lo) (c * hi) := by
  rcases le_total 0 c with nonneg | nonpos
  · have left := mul_le_mul_of_nonneg_left below nonneg
    have right := mul_le_mul_of_nonneg_left above nonneg
    exact ⟨min_le_iff.mpr (.inl left), le_max_iff.mpr (.inr right)⟩
  · have left := mul_le_mul_of_nonpos_left below nonpos
    have right := mul_le_mul_of_nonpos_left above nonpos
    exact ⟨min_le_iff.mpr (.inr right), le_max_iff.mpr (.inl left)⟩

namespace Operand

variable {x y : Operand} {s : Scalar} {h : Handle} {c k : Int64} {op : Operation} {ρ : Reading}

def terms (c : Int64) : Operand → List Summand
  | var h => [(c, h)]
  | scalar _ => []

def constant (x : Operand) : Int64 := x.number?.getD 0

def Numeric : Operand → Prop
  | var _ => True
  | scalar s => s.number?.isSome = true

@[simp] theorem termsVar : (var h).terms c = [(c, h)] := rfl

@[simp] theorem termsScalar : (scalar s).terms c = [] := rfl

@[simp] theorem constantVar : (var h).constant = 0 := rfl

theorem numericOk (ok : s.number op = .ok k) :
    (scalar s).Numeric ∧ (scalar s).constant = k := by
  rw [Scalar.number] at ok
  split at ok
  · rename_i found
    cases ok
    exact ⟨Option.isSome_iff_exists.mpr ⟨k, found⟩, by rw [constant, number?, found]; rfl⟩
  · cases ok

theorem denoteScalar (numeric : (scalar s).Numeric) :
    (scalar s).denote ρ = (scalar s).constant.toInt := by
  obtain ⟨n, found⟩ := Option.isSome_iff_exists.mp numeric
  rw [constant, number?, found]
  exact Scalar.numberDenote found

end Operand

section Exact

variable {ρ : Reading} {x y : Operand}

theorem sumOfAppend (value : Handle → Int) (first second : List Summand) :
    sumOf value (first ++ second) = sumOf value first + sumOf value second := by
  simp [sumOf]

theorem termsExact (c : Int64) (numeric : x.Numeric) :
    sumOf ρ.value (x.terms c) + c.toInt * x.constant.toInt = c.toInt * x.denote ρ := by
  rcases x with s | h
  · rw [Operand.termsScalar, sumOfNil, zero_add, Operand.denoteScalar numeric]
  · simp [Operand.denote]

theorem addOne (m n : Int) : m + (1 : Int64).toInt * n = m + n := by rw [Int64.toInt_one, one_mul]

theorem addMinusOne (m n : Int) : m + (-1 : Int64).toInt * n = m - n := by
  have negative : (-1 : Int64).toInt = -1 := rfl
  rw [negative, neg_one_mul, sub_eq_add_neg]

theorem signedExact {c : Int64} (left : x.Numeric) (right : y.Numeric) :
    sumOf ρ.value (x.terms 1 ++ y.terms c) + (x.constant.toInt + c.toInt * y.constant.toInt) =
      x.denote ρ + c.toInt * y.denote ρ := by
  have first := termsExact (ρ := ρ) 1 left
  have second := termsExact (ρ := ρ) c right
  rw [Int64.toInt_one] at first
  rw [sumOfAppend]
  linarith

theorem multExact (left : x.Numeric) (right : y.Numeric)
    (known : ¬(x.isSymbolic = true ∧ y.isSymbolic = true)) :
    sumOf ρ.value (x.terms y.constant ++ y.terms x.constant) + x.constant.toInt * y.constant.toInt =
      x.denote ρ * y.denote ρ := by
  rcases x with a | l
  · rw [Operand.termsScalar, List.nil_append, Operand.denoteScalar left]
    exact termsExact _ right
  · rcases y with b | r
    · rw [Operand.termsScalar, List.append_nil, Operand.denoteScalar right, mul_comm,
        mul_comm (Operand.denote ρ _)]
      exact termsExact _ left
    · exact absurd ⟨rfl, rfl⟩ known

theorem sumExact {items : List Operand} (numeric : ∀ x ∈ items, x.Numeric) :
    sumOf ρ.value (items.flatMap (·.terms 1)) + (items.map (·.constant.toInt)).sum =
      (items.map (·.denote ρ)).sum := by
  induction items with
  | nil => rfl
  | cons x items ih =>
    obtain ⟨first, rest⟩ := List.forall_mem_cons.mp numeric
    have head := termsExact (ρ := ρ) 1 first
    rw [Int64.toInt_one] at head
    rw [List.flatMap_cons, sumOfAppend, List.map_cons, List.sum_cons, List.map_cons, List.sum_cons,
      ← ih rest]
    linarith

theorem scaledSumExact {vars : List Handle} {coeffs : List Int64} :
    sumOf ρ.value (coeffs.zip vars) =
      (List.zipWith (fun c h => c.toInt * ρ.value h) coeffs vars).sum := by
  rw [sumOf, List.zip, List.map_zipWith]

end Exact

namespace Model

variable {m n : Model} {a : Assignment} {ρ : Reading} {h : Handle} {op : Operation}
  {terms : List Summand} {offset : Int}

theorem linearOk (ok : linear op terms offset m = .ok h n) : ∃ lo hi c : Int64,
    m.sumBounds terms (offset, offset) = .ok (lo.toInt, hi.toInt) ∧ c.toInt = offset ∧
      n = m.extended ⟨⟨[⟨lo, hi⟩]⟩, ""⟩ [⟨.linear h terms c, none⟩] ∧ lo ≤ hi ∧
      (∀ g ∈ (Posted.mk (.linear h terms c) none).handles, n.Owns g) ∧ (n.Small → m.Next h) := by
  simp only [linear, add, runBind, runAsk, runLift, runPure, narrowExact] at ok
  obtain ⟨⟨lo, hi⟩, _, ⟨bounds, rfl⟩, x, _, ⟨rfl, rfl⟩, y, _, ⟨rfl, rfl⟩, c, _, ⟨rfl, rfl⟩, _, k,
    made, _, _, posted, rfl, rfl⟩ := ok
  obtain ⟨le, rfl, owned, next⟩ := targetOk made posted
  exact ⟨x, y, c, bounds, rfl, rfl, le, owned, next⟩

theorem totalWithin (proper : m.Proper) (admits : m.Admits a) {lo hi t : Int} {range : Int × Int}
    (ok : m.sumBounds terms (lo, hi) = .ok range) (below : lo ≤ t) (above : t ≤ hi) :
    ∃ total, a.total terms t = .ok total ∧ range.1 ≤ total ∧ total ≤ range.2 := by
  induction terms generalizing lo hi t with
  | nil =>
    cases ok
    exact ⟨t, rfl, below, above⟩
  | cons s rest ih =>
    obtain ⟨c, h⟩ := s
    simp only [sumBounds, bindOk, wideExact] at ok
    obtain ⟨ends, known, lo', ⟨rfl, fitsLo, _⟩, hi', ⟨rfl, _, fitsHi⟩, ok⟩ := ok
    obtain ⟨x, value, mem⟩ := boundsExact proper admits known
    obtain ⟨left, right⟩ := Interval.memExact.mp mem
    obtain ⟨scaledLo, scaledHi⟩ := scaledBetween (c := c.toInt) left right
    obtain ⟨total, rest, bounds⟩ := ih ok (t := t + c.toInt * x.toInt) (by omega) (by omega)
    refine ⟨total, ?_, bounds⟩
    simp only [Assignment.total, bindOk, wideExact]
    exact ⟨x, value, _, ⟨rfl, by omega, by omega⟩, rest⟩

def Plain (terms : List Summand) : Prop :=
  (∀ s ∈ terms, s.1 = 1 ∨ s.1 = -1) ∧ terms.length < 2 ^ 59

theorem plainOperands {x y : Operand} {c d : Int64} (left : c = 1 ∨ c = -1) (right : d = 1 ∨ d = -1) :
    Plain (x.terms c ++ y.terms d) := by
  rcases x with a | l <;> rcases y with b | r <;> simp [Plain, left, right]

theorem scaledFits {x y : Operand} (known : ¬(x.isSymbolic = true ∧ y.isSymbolic = true)) :
    x.constant.toInt * y.constant.toInt = 0 ∨ Plain (x.terms y.constant ++ y.terms x.constant) := by
  rcases x with a | l
  · rcases y with b | r
    · exact .inr (by simp [Plain])
    · exact .inl (by simp)
  · exact .inl (by simp)

theorem plainItems {items : List Operand} (few : items.length < 2 ^ 59) :
    Plain (items.flatMap (·.terms 1)) := by
  have short : (items.flatMap (·.terms 1)).length ≤ items.length := by
    clear few
    induction items with
    | nil => exact le_rfl
    | cons x items ih =>
      rw [List.flatMap_cons, List.length_append, List.length_cons]
      rcases x with s | h
      · exact (zero_add _).trans_le (ih.trans (Nat.le_succ _))
      · rw [Operand.termsVar, List.length_singleton]
        omega
  refine ⟨fun s mem => ?_, short.trans_lt few⟩
  obtain ⟨x, _, listed⟩ := List.mem_flatMap.mp mem
  rcases x with t | h
  · cases listed
  · exact .inl (congrArg Prod.fst (List.mem_singleton.mp listed))

theorem unitWithin {c x : Int64} (unit : c = 1 ∨ c = -1) :
    -2 ^ 63 ≤ c.toInt * x.toInt ∧ c.toInt * x.toInt ≤ 2 ^ 63 := by
  have least := x.le_toInt
  have most := x.toInt_lt
  rcases unit with rfl | rfl
  · change _ ≤ 1 * x.toInt ∧ 1 * x.toInt ≤ _
    omega
  · change _ ≤ -1 * x.toInt ∧ -1 * x.toInt ≤ _
    omega

theorem totalUnit (units : ∀ s ∈ terms, s.1 = 1 ∨ s.1 = -1)
    (values : ∀ s ∈ terms, ∃ x, a.value s.2 = .ok x) {t : Int}
    (below : -2 ^ 127 + 2 ^ 63 * terms.length ≤ t)
    (above : t + 2 ^ 63 * terms.length < 2 ^ 127) : ∃ total, a.total terms t = .ok total := by
  induction terms generalizing t with
  | nil => exact ⟨t, rfl⟩
  | cons s rest ih =>
    obtain ⟨c, h⟩ := s
    obtain ⟨⟨x, value⟩, values⟩ := List.forall_mem_cons.mp values
    obtain ⟨unit, units⟩ := List.forall_mem_cons.mp units
    have scaled := unitWithin (c := c) (x := x) unit
    simp only [List.length_cons, Nat.cast_add, Nat.cast_one] at below above
    obtain ⟨total, rest⟩ := ih units values (t := t + c.toInt * x.toInt) (by omega) (by omega)
    refine ⟨total, ?_⟩
    simp only [Assignment.total, bindOk, wideExact]
    exact ⟨x, value, _, ⟨rfl, by omega, by omega⟩, rest⟩

theorem valuesOfTotal {t total : Int} (ok : a.total terms t = .ok total) :
    ∀ s ∈ terms, ∃ x, a.value s.2 = .ok x := by
  induction terms generalizing t with
  | nil => simp
  | cons s rest ih =>
    obtain ⟨c, h⟩ := s
    simp only [Assignment.total, bindOk] at ok
    obtain ⟨x, value, _, _, ok⟩ := ok
    exact List.forall_mem_cons.mpr ⟨⟨x, value⟩, ih ok⟩

theorem sumEvaluates (proper : m.Proper) (admits : m.Admits a) {range : Int × Int}
    (ok : m.sumBounds terms (offset, offset) = .ok range) (fits : offset = 0 ∨ Plain terms)
    (narrow : -2 ^ 63 ≤ offset ∧ offset < 2 ^ 63) :
    ∃ total, a.total terms 0 = .ok total ∧ range.1 ≤ total + offset ∧ total + offset ≤ range.2 := by
  obtain ⟨shifted, evaluated, bounds⟩ := totalWithin proper admits ok le_rfl le_rfl
  rcases fits with rfl | ⟨units, few⟩
  · exact ⟨shifted, evaluated, by simpa using bounds⟩
  · have few : (terms.length : Int) < 2 ^ 59 := by exact_mod_cast few
    obtain ⟨total, plain⟩ := totalUnit units (valuesOfTotal evaluated) (t := 0) (by omega) (by omega)
    have reads := readingReads a (fun _ => 0) (fun _ => 0)
    have same := totalExact reads plain
    have other := totalExact reads evaluated
    exact ⟨total, plain, by omega, by omega⟩

theorem totalPush {total : Int} (ok : a.total terms 0 = .ok total) (y : Int64) :
    (a.push y).total terms 0 = .ok total := by
  rw [← ok]
  refine totalCongr (fun h mem => ?_) 0
  obtain ⟨s, listed, rfl⟩ := List.mem_map.mp mem
  obtain ⟨x, value⟩ := valuesOfTotal ok s listed
  rw [value, pushValue value]

theorem linearHolds {c x : Int64} {total : Int} (evaluated : a.total terms 0 = .ok total)
    (value : a.value h = .ok x) (narrow : -2 ^ 63 ≤ total + c.toInt ∧ total + c.toInt < 2 ^ 63) :
    (Constraint.linear h terms c).holds a = .ok (x.toInt == total + c.toInt) := by
  have fits : wide (total + c.toInt) = .ok (total + c.toInt) :=
    wideExact.mpr ⟨rfl, by omega, by omega⟩
  simp [Constraint.holds, evaluated, value, fits, bind, Except.bind, pure, Except.pure]

theorem linearExact (reads : ρ.Reads a) {c : Int64}
    (holds : (Constraint.linear h terms c).holds a = .ok true) :
    ρ.value h = sumOf ρ.value terms + c.toInt := by
  simp only [Constraint.holds, bindOk, pureOk, wideExact, beq_iff_eq] at holds
  obtain ⟨total, evaluated, _, ⟨rfl, _⟩, x, value, same⟩ := holds
  rw [reads h x value, same, totalExact reads evaluated, zero_add]

theorem linearSettled (proper : m.Proper) (small : n.Small) (fits : offset = 0 ∨ Plain terms)
    (ok : linear op terms offset m = .ok h n) :
    Settled m n fun ρ => ρ.value h = sumOf ρ.value terms + offset := by
  obtain ⟨lo, hi, c, bounds, rfl, rfl, le, owned, next⟩ := linearOk ok
  refine targetSettled proper le owned (next small) fun a admits => ?_
  obtain ⟨total, evaluated, below, above⟩ := sumEvaluates proper admits bounds fits
    ⟨c.le_toInt, c.toInt_lt⟩
  obtain ⟨x, exact⟩ := wordBetween below above
  refine ⟨x, exact ▸ ⟨below, above⟩, fun y value => ?_, fun ρ reads value => ?_⟩
  · rw [linearHolds (totalPush evaluated y) value ⟨exact ▸ x.le_toInt, exact ▸ x.toInt_lt⟩, ← exact,
      Except.ok.injEq, Bool.eq_iff_iff, beq_iff_eq, beq_iff_eq, Int64.toInt_inj]
  · rw [value, exact, totalExact reads evaluated, zero_add]

inductive Totalled (op : Operation) (terms : List Summand) (offset : Int) (m : Model) :
    Operand → Model → Prop where
  | number {c : Int64} (none : terms = []) (exact : c.toInt = offset) :
      Totalled op terms offset m (long c) m
  | target {h : Handle} {n : Model} (ok : linear op terms offset m = .ok h n) :
      Totalled op terms offset m (.var h) n

variable {x y z : Operand}

theorem totalledExact (total : Totalled op terms offset m z n) (solution : n.Solution a)
    (reads : ρ.Reads a) : z.denote ρ = sumOf ρ.value terms + offset := by
  cases total with
  | number none exact =>
    subst none
    exact exact.trans (zero_add _).symm
  | @target h n ok =>
    obtain ⟨lo, hi, c, _, rfl, rfl, _⟩ := linearOk ok
    have satisfied := (solutionExact.mp solution).2 ⟨.linear h terms c, none⟩ (by simp [extended])
    exact linearExact reads satisfied

theorem totalledSettled (total : Totalled op terms offset m z n) (proper : m.Proper)
    (small : n.Small) (fits : offset = 0 ∨ Plain terms) :
    Settled m n fun ρ => z.denote ρ = sumOf ρ.value terms + offset := by
  cases total with
  | number none exact =>
    subst none
    exact settledSame proper fun a ρ _ _ => exact.trans (zero_add _).symm
  | target ok => exact linearSettled proper small fits ok

theorem settledTotal {value : Reading → Int} (total : Totalled op terms offset m z n)
    (proper : m.Proper) (small : n.Small) (fits : offset = 0 ∨ Plain terms)
    (exact : ∀ ρ, sumOf ρ.value terms + offset = value ρ) :
    Settled m n fun ρ => z.denote ρ = value ρ :=
  (totalledSettled total proper small fits).imp fun _ ρ _ _ same => same.trans (exact ρ)

theorem numberBeside {s : Scalar} {sum : Int64 → Build Handle}
    (ok : (do let k ← s.number op; return .var (← sum k) : Build Operand) m = .ok z n) :
    (Operand.scalar s).Numeric ∧
      ∃ h, z = .var h ∧ sum (Operand.scalar s).constant m = .ok h n := by
  simp only [runBind, runLift, runPure] at ok
  obtain ⟨k, _, ⟨number, rfl⟩, h, _, ok, rfl, rfl⟩ := ok
  obtain ⟨numeric, rfl⟩ := Operand.numericOk number
  exact ⟨numeric, h, rfl, ok⟩

theorem numbersOk {s t : Scalar} {f : Int → Int → Int}
    (ok : (do
      let k ← s.number op
      let l ← t.number op
      return long (← narrow op (f k.toInt l.toInt)) : Build Operand) m = .ok z n) :
    ((Operand.scalar s).Numeric ∧ (Operand.scalar t).Numeric) ∧ ∃ c : Int64, z = long c ∧
      c.toInt = f (Operand.scalar s).constant.toInt (Operand.scalar t).constant.toInt ∧
      n = m := by
  simp only [runBind, runLift, runPure, narrowExact] at ok
  obtain ⟨k, _, ⟨left, rfl⟩, l, _, ⟨right, rfl⟩, c, _, ⟨exact, rfl⟩, rfl, rfl⟩ := ok
  obtain ⟨first, rfl⟩ := Operand.numericOk left
  obtain ⟨second, rfl⟩ := Operand.numericOk right
  exact ⟨⟨first, second⟩, c, rfl, exact, rfl⟩

theorem signedTotalled {c : Int64} (ok : signed op c x y m = .ok z n) : (x.Numeric ∧ y.Numeric) ∧
    Totalled op (x.terms 1 ++ y.terms c) (x.constant.toInt + c.toInt * y.constant.toInt) m z n := by
  unfold signed at ok
  split at ok
  · simp only [runMap] at ok
    obtain ⟨h, ok, rfl⟩ := ok
    exact ⟨⟨trivial, trivial⟩, .target (by simpa using ok)⟩
  · obtain ⟨numeric, h, rfl, ran⟩ := numberBeside ok
    exact ⟨⟨trivial, numeric⟩, .target (by simpa using ran)⟩
  · obtain ⟨numeric, h, rfl, ran⟩ := numberBeside ok
    exact ⟨⟨numeric, trivial⟩, .target (by simpa using ran)⟩
  · obtain ⟨numeric, k, rfl, exact, rfl⟩ := numbersOk (f := fun a b => a + c.toInt * b) ok
    exact ⟨numeric, .number rfl exact⟩

-- The product of two variables is no sum.
theorem multTotalled {ops : Layer} (ok : ops.mult x y m = .ok z n)
    (known : ¬(x.isSymbolic = true ∧ y.isSymbolic = true)) : (x.Numeric ∧ y.Numeric) ∧
    Totalled .mult (x.terms y.constant ++ y.terms x.constant)
      (x.constant.toInt * y.constant.toInt) m z n := by
  unfold Layer.mult at ok
  split at ok
  · exact absurd ⟨rfl, rfl⟩ known
  · obtain ⟨numeric, h, rfl, ran⟩ := numberBeside ok
    exact ⟨⟨trivial, numeric⟩, .target (by simpa using ran)⟩
  · obtain ⟨numeric, h, rfl, ran⟩ := numberBeside ok
    exact ⟨⟨numeric, trivial⟩, .target (by simpa using ran)⟩
  · obtain ⟨numeric, c, rfl, exact, rfl⟩ := numbersOk (f := (· * ·)) ok
    exact ⟨numeric, .number rfl exact⟩

theorem scaledSumTotalled {vars : List Handle} {coeffs : List Int64}
    (ok : scaledSum vars coeffs m = .ok h n) : vars.length = coeffs.length ∧
      Totalled .scaledSum (coeffs.zip vars) 0 m (.var h) n := by
  rw [scaledSum] at ok
  split at ok
  · exact ⟨by assumption, .target ok⟩
  · exact absurd ok runThrow

theorem sumItemsOk {items : List Operand} {start : Int} {first : List Summand}
    {split : List Summand × Int} (ok : sumItems items first start = .ok split) :
    (∀ x ∈ items, x.Numeric) ∧ split = (first ++ items.flatMap (·.terms 1),
      start + (items.map (·.constant.toInt)).sum) := by
  induction items generalizing first start with
  | nil =>
    cases ok
    simp
  | cons item rest ih =>
    rw [List.forall_mem_cons, List.flatMap_cons, List.map_cons, List.sum_cons]
    rcases item with s | h
    · simp only [sumItems, bindOk, wideExact] at ok
      obtain ⟨k, number, _, ⟨rfl, _⟩, ok⟩ := ok
      obtain ⟨numeric, same⟩ := Operand.numericOk number
      obtain ⟨others, result⟩ := ih ok
      refine ⟨⟨numeric, others⟩, ?_⟩
      rw [result, same, Operand.termsScalar, List.nil_append, add_assoc]
    · obtain ⟨others, result⟩ := ih ok
      refine ⟨⟨trivial, others⟩, ?_⟩
      rw [result, Operand.termsVar, Operand.constantVar, List.append_assoc, Int64.toInt_zero,
        zero_add]

theorem sumTotalled {items : List Operand} (ok : sum items m = .ok z n) :
    (∀ x ∈ items, x.Numeric) ∧
      Totalled .sum (items.flatMap (·.terms 1)) (items.map (·.constant.toInt)).sum m z n := by
  simp only [sum, runBind, runLift] at ok
  obtain ⟨split, _, ⟨found, rfl⟩, ok⟩ := ok
  obtain ⟨numeric, rfl⟩ := sumItemsOk found
  refine ⟨numeric, ?_⟩
  simp only [List.nil_append, zero_add] at ok
  split at ok
  · rename_i none
    simp only [runBind, runLift, runPure, narrowExact] at ok
    obtain ⟨c, _, ⟨same, rfl⟩, rfl, rfl⟩ := ok
    exact .number (List.isEmpty_iff.mp none) same
  · simp only [runMap] at ok
    obtain ⟨h, ok, rfl⟩ := ok
    exact .target ok

/- A product of two variables and a quotient have a declared range that may miss their value; they
are exact where a solution is left. -/
theorem productExact {lo hi : Int64} {l r : Handle} {k : Model} {u : Unit}
    (made : newInt lo hi "" m = .ok h k) (posted : post (.product h l r) none k = .ok u n)
    (solution : n.Solution a) (reads : ρ.Reads a) : ρ.value h = ρ.value l * ρ.value r := by
  obtain ⟨_, rfl, _, _⟩ := targetOk made posted
  have satisfied := (solutionExact.mp solution).2 ⟨.product h l r, none⟩ (by simp [extended])
  change (Constraint.product h l r).holds a = .ok true at satisfied
  simp only [Constraint.holds, bindOk, pureOk, beq_iff_eq] at satisfied
  obtain ⟨t, target, x, left, y, right, exact⟩ := satisfied
  rw [reads h t target, reads l x left, reads r y right, exact]

theorem quotientExact {lo hi d : Int64} {g : Handle} {k : Model} {u : Unit}
    (made : newInt lo hi "" m = .ok h k) (posted : post (.quotient h g (.const d)) none k = .ok u n)
    (solution : n.Solution a) (reads : ρ.Reads a) :
    ρ.value h = (ρ.value g).tdiv d.toInt := by
  obtain ⟨_, rfl, _, _⟩ := targetOk made posted
  have satisfied := (solutionExact.mp solution).2 ⟨.quotient h g (.const d), none⟩
    (by simp [extended])
  change (Constraint.quotient h g (.const d)).holds a = .ok true at satisfied
  simp only [Constraint.holds, bindOk, Assignment.term, Except.ok.injEq] at satisfied
  obtain ⟨_, rfl, satisfied⟩ := satisfied
  split at satisfied
  · cases satisfied
  · simp only [bindOk, pureOk, beq_iff_eq, toWordExact] at satisfied
    obtain ⟨x, numerator, t, target, exact⟩ := satisfied
    rw [reads h t target, reads g x numerator, exact]

end Model

end ConstraintAlgebra
