import ConstraintAlgebra.Proofs.Runs

/-! Declared ranges of sums. Each end adds up one end of every term, so every value of the sum lies
between the two. Different variables take the values of their domains independently of each other, and
then both ends are values of the sum. -/
namespace ConstraintAlgebra

namespace Model

variable {m n : Model} {a : Assignment} {ρ : Reading} {h : Handle} {s : Summand}
  {terms : List Summand} {ends : List (Int × Int)} {ns : List Int}

def Takes (m : Model) (s : Summand) (n : Int) : Prop :=
  ∃ d, m.domain s.2 = .ok d ∧ ∃ x ∈ d, s.1.toInt * x.toInt = n

def Ends (m : Model) (s : Summand) (ends : Int × Int) : Prop :=
  IsLeast {n | m.Takes s n} ends.1 ∧ IsGreatest {n | m.Takes s n} ends.2

theorem rangeEnds {range : Interval} (proper : m.Proper) (known : m.bounds s.2 = .ok range) :
    m.Ends s (min (s.1.toInt * range.lo.toInt) (s.1.toInt * range.hi.toInt),
      max (s.1.toInt * range.lo.toInt) (s.1.toInt * range.hi.toInt)) := by
  obtain ⟨d, found, first, last, inside⟩ := boundsDomain proper known
  have low : m.Takes s (s.1.toInt * range.lo.toInt) := ⟨d, found, range.lo, first, rfl⟩
  have high : m.Takes s (s.1.toInt * range.hi.toInt) := ⟨d, found, range.hi, last, rfl⟩
  have between : ∀ n, m.Takes s n → min (s.1.toInt * range.lo.toInt) (s.1.toInt * range.hi.toInt) ≤ n ∧
      n ≤ max (s.1.toInt * range.lo.toInt) (s.1.toInt * range.hi.toInt) := by
    rintro n ⟨e, same, x, mem, rfl⟩
    rw [found] at same
    cases same
    obtain ⟨below, above⟩ := Interval.memExact.mp (inside x mem)
    exact scaledBetween below above
  refine ⟨⟨?_, fun n takes => (between n takes).1⟩, ?_, fun n takes => (between n takes).2⟩
  · exact min_rec' (m.Takes s) low high
  · exact max_rec' (m.Takes s) low high

theorem sumBoundsEnds (proper : m.Proper) {range out : Int × Int}
    (ok : m.sumBounds terms range = .ok out) : ∃ ends, List.Forall₂ m.Ends terms ends ∧
      out.1 = range.1 + (ends.map (·.1)).sum ∧ out.2 = range.2 + (ends.map (·.2)).sum := by
  induction terms generalizing range with
  | nil =>
    cases ok
    exact ⟨[], .nil, by simp⟩
  | cons s rest ih =>
    obtain ⟨c, h⟩ := s
    obtain ⟨lo, hi⟩ := range
    simp only [sumBounds, bindOk, wideExact] at ok
    obtain ⟨range, known, _, ⟨rfl, _⟩, _, ⟨rfl, _⟩, ok⟩ := ok
    obtain ⟨ends, all, low, high⟩ := ih ok
    refine ⟨_ :: ends, .cons (rangeEnds (s := (c, h)) proper known) all, ?_, ?_⟩
    · rw [low, List.map_cons, List.sum_cons, add_assoc]
    · rw [high, List.map_cons, List.sum_cons, add_assoc]

theorem endsWithin (all : List.Forall₂ m.Ends terms ends) (admits : m.Admits a)
    (reads : ρ.Reads a) : (ends.map (·.1)).sum ≤ sumOf ρ.value terms ∧
      sumOf ρ.value terms ≤ (ends.map (·.2)).sum := by
  induction all with
  | nil => exact ⟨le_rfl, le_rfl⟩
  | @cons s e terms ends first rest ih =>
    obtain ⟨c, h⟩ := s
    obtain ⟨⟨d, known, _⟩, _⟩ := first.1
    obtain ⟨x, value, mem⟩ := domainExact admits known
    have takes : m.Takes (c, h) (c.toInt * x.toInt) := ⟨d, known, x, mem, rfl⟩
    have low : e.1 ≤ c.toInt * x.toInt := first.1.2 takes
    have high : c.toInt * x.toInt ≤ e.2 := first.2.2 takes
    rw [sumOfCons, reads h x value, List.map_cons, List.sum_cons, List.map_cons, List.sum_cons]
    omega

theorem admittedExists (proper : m.Proper) : ∃ a, m.Admits a := by
  obtain ⟨xs, all⟩ := relate fun v mem => proper.valued mem
  exact ⟨⟨xs⟩, all⟩

theorem settingValue (admits : m.Admits a) {d : Domain} (known : m.domain h = .ok d) {x : Int64}
    (mem : x ∈ d) : ∃ y, m.Admits ⟨a.values.set h.index y⟩ ∧
      Assignment.value ⟨a.values.set h.index y⟩ h = .ok x := by
  obtain ⟨v, found, _, sources⟩ := domainValues known
  obtain ⟨y, inside, image⟩ := sources x mem
  have place : h.index < a.values.length := by
    rw [admitsLength admits]
    exact ownsOfFound found
  exact ⟨y, relatedSet admits found inside, valueOk.mpr ⟨y, List.getElem?_set_self place, image⟩⟩

theorem takenTogether (proper : m.Proper) (takes : List.Forall₂ m.Takes terms ns)
    (distinct : (terms.map fun s => s.2.index).Nodup) : ∃ a, m.Admits a ∧
      List.Forall₂ (fun s n => ∃ x, a.value s.2 = .ok x ∧ s.1.toInt * x.toInt = n) terms ns := by
  induction takes with
  | nil =>
    obtain ⟨a, admits⟩ := admittedExists proper
    exact ⟨a, admits, .nil⟩
  | @cons s n terms ns first rest ih =>
    obtain ⟨fresh, distinct⟩ := List.nodup_cons.mp distinct
    obtain ⟨a, admits, others⟩ := ih distinct
    obtain ⟨d, known, x, mem, exact⟩ := first
    obtain ⟨y, admitted, value⟩ := settingValue admits known mem
    have apart : ∀ r ∈ terms, s.2.index ≠ r.2.index := fun r listed same =>
      fresh (List.mem_map.mpr ⟨r, listed, same.symm⟩)
    refine ⟨⟨a.values.set s.2.index y⟩, admitted, .cons ⟨x, value, exact⟩ ?_⟩
    refine ((List.forall₂_and_left terms ns).mpr ⟨apart, others⟩).imp ?_
    exact fun r n ⟨other, x, value, exact⟩ =>
      ⟨x, (valueCongr (List.getElem?_set_ne other)).trans value, exact⟩

theorem sumTaken (reads : ρ.Reads a) (values : List.Forall₂ (fun s n =>
    ∃ x, a.value s.2 = .ok x ∧ s.1.toInt * x.toInt = n) terms ns) : sumOf ρ.value terms = ns.sum := by
  induction values with
  | nil => rfl
  | @cons s n terms ns first rest ih =>
    obtain ⟨x, value, exact⟩ := first
    rw [List.sum_cons, ← ih, ← exact, ← reads s.2 x value]
    rfl

theorem sumAttained (proper : m.Proper) (takes : List.Forall₂ m.Takes terms ns)
    (distinct : (terms.map fun s => s.2.index).Nodup) :
    ∃ a, m.Admits a ∧ ∀ ρ : Reading, ρ.Reads a → sumOf ρ.value terms = ns.sum := by
  obtain ⟨a, admits, values⟩ := takenTogether proper takes distinct
  exact ⟨a, admits, fun ρ reads => sumTaken reads values⟩

theorem endsAttained (proper : m.Proper) (all : List.Forall₂ m.Ends terms ends)
    (distinct : (terms.map fun s => s.2.index).Nodup) :
    (∃ a, m.Admits a ∧ ∀ ρ : Reading, ρ.Reads a → sumOf ρ.value terms = (ends.map (·.1)).sum) ∧
      ∃ a, m.Admits a ∧ ∀ ρ : Reading, ρ.Reads a → sumOf ρ.value terms = (ends.map (·.2)).sum := by
  have low : List.Forall₂ m.Takes terms (ends.map (·.1)) :=
    List.forall₂_map_right_iff.mpr (all.imp fun s e both => both.1.1)
  have high : List.Forall₂ m.Takes terms (ends.map (·.2)) :=
    List.forall₂_map_right_iff.mpr (all.imp fun s e both => both.2.1)
  exact ⟨sumAttained proper low distinct, sumAttained proper high distinct⟩

theorem linearEnds {op : Operation} {offset : Int} (proper : m.Proper) (small : n.Small)
    (ok : linear op terms offset m = .ok h n) : ∃ lo hi ends,
      n.vars = m.vars ++ [⟨⟨[⟨lo, hi⟩]⟩, ""⟩] ∧ m.Next h ∧ List.Forall₂ m.Ends terms ends ∧
      lo.toInt = offset + (ends.map (·.1)).sum ∧ hi.toInt = offset + (ends.map (·.2)).sum := by
  obtain ⟨lo, hi, c, bounds, _, rfl, _, _, next⟩ := linearOk ok
  obtain ⟨ends, all, low, high⟩ := sumBoundsEnds proper bounds
  exact ⟨lo, hi, ends, rfl, next small, all, low, high⟩

end Model

namespace OperatorCall

def Linear : OperatorCall → Prop
  | plus x y => x.isSymbolic = true ∨ y.isSymbolic = true
  | minus x y => x.isSymbolic = true ∨ y.isSymbolic = true
  | mult x y => x.isSymbolic = !y.isSymbolic
  | sum items => ∃ x ∈ items, x.isSymbolic = true
  | scaledSum _ _ => True
  | _ => False

def terms : OperatorCall → List Summand
  | plus x y => x.terms 1 ++ y.terms 1
  | minus x y => x.terms 1 ++ y.terms (-1)
  | mult x y => x.terms y.constant ++ y.terms x.constant
  | sum items => items.flatMap (·.terms 1)
  | scaledSum vars coeffs => coeffs.zip vars
  | _ => []

def offset : OperatorCall → Int
  | plus x y => x.constant.toInt + y.constant.toInt
  | minus x y => x.constant.toInt - y.constant.toInt
  | mult x y => x.constant.toInt * y.constant.toInt
  | sum items => (items.map (·.constant.toInt)).sum
  | _ => 0

def expression (ρ : Reading) : OperatorCall → Int
  | plus x y => x.denote ρ + y.denote ρ
  | minus x y => x.denote ρ - y.denote ρ
  | mult x y => x.denote ρ * y.denote ρ
  | sum items => (items.map (·.denote ρ)).sum
  | scaledSum vars coeffs => (List.zipWith (fun c h => c.toInt * ρ.value h) coeffs vars).sum
  | _ => 0

section Operands

variable {x y z : Operand} {m n : Model} {op : Operation} {terms : List Summand} {offset : Int}

theorem termsSome (c : Int64) (symbolic : x.isSymbolic = true) : x.terms c ≠ [] := by
  rcases x with s | h
  · cases symbolic
  · exact List.cons_ne_nil _ _

theorem operandsSome (c d : Int64) (symbolic : x.isSymbolic = true ∨ y.isSymbolic = true) :
    x.terms c ++ y.terms d ≠ [] := by
  rw [Ne, List.append_eq_nil_iff]
  rintro ⟨left, right⟩
  exact symbolic.elim (fun known => termsSome c known left) fun known => termsSome d known right

theorem itemsSome {items : List Operand} (symbolic : ∃ x ∈ items, x.isSymbolic = true) :
    items.flatMap (·.terms 1) ≠ [] := by
  obtain ⟨x, mem, known⟩ := symbolic
  exact fun none => termsSome 1 known (List.flatMap_eq_nil_iff.mp none x mem)

theorem oneSymbolic (one : x.isSymbolic = !y.isSymbolic) :
    (x.isSymbolic = true ∨ y.isSymbolic = true) ∧ ¬(x.isSymbolic = true ∧ y.isSymbolic = true) := by
  cases other : y.isSymbolic <;> simp [one, other]

theorem totalledTarget (total : Model.Totalled op terms offset m z n) (some : terms ≠ []) :
    ∃ h, z = .var h ∧ Model.linear op terms offset m = .ok h n := by
  cases total with
  | number none _ => exact absurd none some
  | target ok => exact ⟨_, rfl, ok⟩

end Operands

variable {E : Type} [Encoding E] {w v : Workspace E} {ops : Layer} {call : OperatorCall}
  {reply : Reply}

open Model

theorem performLinear (linear : call.Linear) (ok : call.perform ops w = .ok reply v) :
    (∃ op h, reply = .var h ∧ Model.linear op call.terms call.offset w.model = .ok h v.model) ∧
      ∀ ρ : Reading, sumOf ρ.value call.terms + call.offset = call.expression ρ := by
  cases call with (simp only [perform, runMap] at ok; obtain ⟨z, ok, rfl⟩ := ok)
  | plus x y =>
    obtain ⟨⟨left, right⟩, total⟩ := signedTotalled (runOnModel.mp ok).1
    rw [addOne] at total
    obtain ⟨h, rfl, ran⟩ := totalledTarget total (operandsSome _ _ linear)
    refine ⟨⟨_, h, rfl, ran⟩, fun ρ => ?_⟩
    have exact := signedExact (ρ := ρ) (c := 1) left right
    rwa [addOne, addOne] at exact
  | minus x y =>
    obtain ⟨⟨left, right⟩, total⟩ := signedTotalled (runOnModel.mp ok).1
    rw [addMinusOne] at total
    obtain ⟨h, rfl, ran⟩ := totalledTarget total (operandsSome _ _ linear)
    refine ⟨⟨_, h, rfl, ran⟩, fun ρ => ?_⟩
    have exact := signedExact (ρ := ρ) (c := -1) left right
    rwa [addMinusOne, addMinusOne] at exact
  | mult x y =>
    obtain ⟨symbolic, known⟩ := oneSymbolic linear
    obtain ⟨⟨left, right⟩, total⟩ := multTotalled (runOnModel.mp ok).1 known
    obtain ⟨h, rfl, ran⟩ := totalledTarget total (operandsSome _ _ symbolic)
    exact ⟨⟨_, h, rfl, ran⟩, fun ρ => multExact left right known⟩
  | sum items =>
    obtain ⟨numeric, total⟩ := sumTotalled (runOnModel.mp ok).1
    obtain ⟨h, rfl, ran⟩ := totalledTarget total (itemsSome linear)
    exact ⟨⟨_, h, rfl, ran⟩, fun ρ => sumExact numeric⟩
  | scaledSum vars coeffs =>
    -- Without any variable this is a sum all the same, fixed to zero.
    cases (scaledSumTotalled (runOnModel.mp ok).1).2 with
    | target ran => exact ⟨⟨_, z, rfl, ran⟩, fun ρ => (add_zero _).trans scaledSumExact⟩
  | _ => exact linear.elim

end OperatorCall

namespace Session

variable {E : Type} [Encoding E] {ops : Layer} {e : E} {t : Session E}

/-- A new sum is declared exactly over the range from the least to the greatest values of its terms,
added up. Whatever values the variables have in their domains, the expression lies in the range; where
no variable occurs in two terms, some values give either end. -/
theorem sumsTight (calls : List (Call E)) (place : Nat) (call : OperatorCall) {reply : Reply}
    (built : ∀ c ∈ calls, c.Built) (linear : call.Linear)
    (found : (start.run calls).layers[place]? = some (ops, e))
    (replied : (start.run calls).step (.operator place call) = (.ok reply, t))
    (small : t.model.Small) :
    let m := (start.run calls).model
    ∃ h lo hi ends, reply = .var h ∧ m.Next h ∧
      t.model.vars = m.vars ++ [⟨⟨[⟨lo, hi⟩]⟩, ""⟩] ∧
      List.Forall₂ m.Ends call.terms ends ∧
      lo.toInt = call.offset + (ends.map (·.1)).sum ∧
      hi.toInt = call.offset + (ends.map (·.2)).sum ∧
      (∀ (a : Assignment) (ρ : Reading), m.Admits a → ρ.Reads a →
        lo.toInt ≤ call.expression ρ ∧ call.expression ρ ≤ hi.toInt) ∧
      ((call.terms.map fun s => s.2.index).Nodup →
        (∃ a, m.Admits a ∧ ∀ ρ : Reading, ρ.Reads a → call.expression ρ = lo.toInt) ∧
        ∃ a, m.Admits a ∧ ∀ ρ : Reading, ρ.Reads a → call.expression ρ = hi.toInt) := by
  intro m
  have sound := runSound built startSound
  obtain ⟨v, ok, rfl⟩ := operateOk found replied
  obtain ⟨⟨op, h, rfl, ran⟩, exact⟩ := call.performLinear linear ok
  obtain ⟨lo, hi, ends, declared, next, all, low, high⟩ := Model.linearEnds sound.proper small ran
  refine ⟨h, lo, hi, ends, rfl, next, declared, all, low, high, fun a ρ admits reads => ?_,
    fun distinct => ?_⟩
  · have within := Model.endsWithin all admits reads
    rw [low, high, ← exact ρ]
    omega
  -- No variable is in two terms, so all terms can take their least values at once.
  · obtain ⟨⟨a, admits, least⟩, b, other, greatest⟩ :=
      Model.endsAttained sound.proper all distinct
    refine ⟨⟨a, admits, fun ρ reads => ?_⟩, b, other, fun ρ reads => ?_⟩
    · rw [low, ← exact ρ, least ρ reads, add_comm]
    · rw [high, ← exact ρ, greatest ρ reads, add_comm]

theorem sumsTightOnce :
    let x : Handle := ⟨3, by decide⟩
    let p : Handle := ⟨-4, by decide⟩
    let calls : List (Call Dictionary) :=
      [.layer .standard .empty, .model (.withDomain (.ofValues [1, 4]) "x"), .model (.bool "p")]
    let call : OperatorCall := .scaledSum [x, p] [-3, 2]
    let s : Session Dictionary := start.run calls
    let t := (s.step (.operator 0 call)).2
    t.model.Small ∧ t.model.vars = s.model.vars ++ [⟨⟨[⟨-12, -1⟩]⟩, ""⟩] ∧
      (∃ a, s.model.Admits a ∧ ∀ ρ : Reading, ρ.Reads a → call.expression ρ = -12) ∧
      ∃ a, s.model.Admits a ∧ ∀ ρ : Reading, ρ.Reads a → call.expression ρ = -1 := by
  intro x p calls call s t
  have small : t.model.Small := by decide
  have built : ∀ c ∈ calls, c.Built := by
    simpa [calls, Call.Built] using Domain.Built.values [1, 4]
  have opened : s.layers[0]? = some (⟨⟨1, by decide⟩, ⟨2, by decide⟩, .standard⟩, .empty) := rfl
  have replied : s.step (.operator 0 call) = (.ok (.var ⟨5, by decide⟩), t) := rfl
  have declared : t.model.vars = s.model.vars ++ [⟨⟨[⟨-12, -1⟩]⟩, ""⟩] := rfl
  obtain ⟨_, lo, hi, _, _, _, other, _, _, _, _, attained⟩ :=
    sumsTight calls 0 call built trivial opened replied small
  cases List.append_cancel_left (declared.symm.trans other)
  exact ⟨small, declared, attained (by decide)⟩

end Session

end ConstraintAlgebra
