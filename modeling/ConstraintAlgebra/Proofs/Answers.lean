import ConstraintAlgebra.Proofs.Representable
import ConstraintAlgebra.Proofs.Success

/-! Evaluating what operators have posted. A posted handle has a known range or lies over a 0/1
variable, so it has a value under every assignment that the domains admit; a posted sum has a range
within 64 bits, which keeps its running totals within 128. Calls that fail may leave constraints
behind as well, so all of this is shown of what a call leaves and not only of its success. -/
namespace ConstraintAlgebra

namespace Model

def Defines {α : Type} (m : Model) (f : Assignment → Except Failure α) : Prop :=
  ∀ a, m.Admits a → ∃ x, f a = .ok x

/-- A complemented handle belongs to a 0/1 variable, if to any. -/
def Tame (m : Model) (h : Handle) : Prop :=
  h.isNegated = true → ∀ v, m.vars[h.index]? = some v → ∀ x ∈ v.domain, x = 0 ∨ x = 1

section Defining

variable {m n M : Model} {h g l r : Handle} {hs : List Handle} {c : Constraint} {rel : Relation}

theorem boundsDefines {range : Interval} (proper : n.Proper) (le : m ≤ n)
    (known : m.bounds h = .ok range) : n.Defines (·.value h) := by
  intro a admits
  obtain ⟨x, value, _⟩ := boundsExact proper admits (boundsLater le known)
  exact ⟨x, value⟩

theorem Literal.defines (proper : m.Proper) (literal : m.Literal h) : m.Defines (·.value h) := by
  obtain ⟨range, known, _⟩ := literal
  exact boundsDefines proper (leRefl m) known

theorem Tame.defines (tame : m.Tame h) (owns : m.Owns h) : m.Defines (·.value h) := by
  intro a admits
  have found := List.getElem?_eq_getElem owns
  obtain ⟨x, value, mem⟩ := admittedAt admits found
  cases negated : h.isNegated with
  | false => exact ⟨x, valueOk.mpr ⟨x, value, by simp [negated]⟩⟩
  | true =>
    rcases tame negated _ found x mem with zero | one
    · exact ⟨1, valueOk.mpr ⟨x, value, by simp [negated, zero]⟩⟩
    · exact ⟨0, valueOk.mpr ⟨x, value, by simp [negated, one]⟩⟩

theorem domainDefines {d : Domain} (le : m ≤ n) (ok : m.domain h = .ok d) : n.Defines (·.value h) := by
  intro a admits
  obtain ⟨v, found, values⟩ := domainOk.mp ok
  have later : n.domain h = .ok d := domainOk.mpr ⟨v, varOfLe le found, values⟩
  obtain ⟨x, value, _⟩ := domainExact admits later
  exact ⟨x, value⟩

theorem sumBoundsLater (le : m ≤ n) {terms : List Summand} {range out : Int × Int}
    (ok : m.sumBounds terms range = .ok out) : n.sumBounds terms range = .ok out := by
  induction terms generalizing range with
  | nil => exact ok
  | cons s rest ih =>
    obtain ⟨c, h⟩ := s
    obtain ⟨lo, hi⟩ := range
    simp only [sumBounds, bindOk] at ok ⊢
    obtain ⟨ends, known, lo', least, hi', most, ok⟩ := ok
    exact ⟨ends, boundsLater le known, lo', least, hi', most, ih ok⟩

theorem compareDefines (left : m.Defines (·.value l)) (right : m.Defines (·.value r)) :
    m.Defines (Constraint.holds · (.compare l rel (.var r))) := by
  intro a admits
  obtain ⟨x, hx⟩ := left a admits
  obtain ⟨y, hy⟩ := right a admits
  exact ⟨_, compareHolds hx hy⟩

theorem compareConstDefines {c : Int64} (value : m.Defines (·.value h)) :
    m.Defines (Constraint.holds · (.compare h rel (.const c))) := by
  intro a admits
  obtain ⟨x, hx⟩ := value a admits
  exact ⟨_, compareHolds hx rfl⟩

theorem insideDefines {d : Domain} (value : m.Defines (·.value h)) :
    m.Defines (Constraint.holds · (.inside h d)) := by
  intro a admits
  obtain ⟨x, hx⟩ := value a admits
  exact ⟨_, insideHolds hx⟩

theorem productDefines (target : m.Defines (·.value h)) (left : m.Defines (·.value l))
    (right : m.Defines (·.value r)) : m.Defines (Constraint.holds · (.product h l r)) := by
  intro a admits
  obtain ⟨t, ht⟩ := target a admits
  obtain ⟨x, hx⟩ := left a admits
  obtain ⟨y, hy⟩ := right a admits
  exact ⟨_, productHolds ht hx hy⟩

theorem quotientDefines {d : Int64} (nonzero : d ≠ 0) (target : m.Defines (·.value h))
    (numerator : m.Defines (·.value g)) :
    m.Defines (Constraint.holds · (.quotient h g (.const d))) := by
  intro a admits
  obtain ⟨t, ht⟩ := target a admits
  obtain ⟨x, hx⟩ := numerator a admits
  exact ⟨_, quotientHolds nonzero ht hx⟩

theorem extremeDefines {e : Extreme} (target : m.Defines (·.value h))
    (each : ∀ g ∈ hs, m.Defines (·.value g)) : m.Defines (Constraint.holds · (e.constraint h hs)) := by
  intro a admits
  obtain ⟨t, ht⟩ := target a admits
  obtain ⟨xs, values⟩ := relate fun g mem => each g mem a admits
  exact ⟨_, extremeHolds values ht⟩

theorem connectiveDefines {k : Connective} (each : ∀ h ∈ hs, m.Defines (·.value h)) :
    m.Defines (Constraint.holds · (k.holds hs)) ∧ m.Defines (Constraint.holds · (k.fails hs)) := by
  have values : ∀ a, m.Admits a → ∃ xs, List.Forall₂ (fun h x => a.value h = .ok x) hs xs :=
    fun a admits => relate fun h mem => each h mem a admits
  have truth : ∀ c : Connective, m.Defines (Constraint.holds · (c.holds hs)) := fun c a admits =>
    let ⟨_, known⟩ := values a admits
    ⟨_, connectiveHolds known⟩
  exact ⟨truth k, truth k.dual⟩

theorem linearDefines (proper : m.Proper) {terms : List Summand} {lo hi c : Int64} {offset : Int}
    (bounds : m.sumBounds terms (offset, offset) = .ok (lo.toInt, hi.toInt)) (exact : c.toInt = offset)
    (fits : offset = 0 ∨ Plain terms) (target : m.Defines (·.value h)) :
    m.Defines (Constraint.holds · (.linear h terms c)) := by
  intro a admits
  subst exact
  obtain ⟨total, evaluated, below, above⟩ :=
    sumEvaluates proper admits bounds fits ⟨c.le_toInt, c.toInt_lt⟩
  obtain ⟨x, value⟩ := target a admits
  have least := lo.le_toInt
  have most := hi.toInt_lt
  exact ⟨_, linearHolds evaluated value ⟨by omega, by omega⟩⟩

theorem guardedDefines (guard : m.Defines (·.value g)) (body : m.Defines (Constraint.holds · c)) :
    m.Defines (Posted.isSatisfied · ⟨c, some g⟩) := by
  intro a admits
  obtain ⟨x, value⟩ := guard a admits
  obtain ⟨b, holds⟩ := body a admits
  simp only [Posted.isSatisfied, isTrueOk value, bind, Except.bind]
  split
  · exact ⟨b, holds⟩
  · exact ⟨true, rfl⟩

end Defining

structure Adds (M m n : Model) : Prop where
  le : m ≤ n
  answers : n ≤ M → ∀ p ∈ n.constraints, p ∈ m.constraints ∨ M.Defines (Posted.isSatisfied · p)

instance (M : Model) : IsPreorder Model (Adds M) where
  refl m := ⟨leRefl m, fun _ _ => .inl⟩
  trans _ _ _ first second := by
    refine ⟨leTrans first.le second.le, fun later p mem => ?_⟩
    rcases second.answers later p mem with middle | new
    · exact first.answers (leTrans second.le later) p middle
    · exact .inr new

section Adding

variable {M m n : Model} {h b : Handle} {op : Operation} {terms : List Summand} {offset : Int}
  {items : List Operand} {hs : List Handle}

theorem addsNewVariable (d : Domain) (name : String) : Keeps (Adds M) (newVariable d name) :=
  keepsDeclared fun _ _ => ⟨⟨List.prefix_append _ _, List.prefix_rfl⟩, fun _ _ => .inl⟩

theorem addsNewInt (lo hi : Int64) (name : String) : Keeps (Adds M) (newInt lo hi name) :=
  keepsBind (keepsLift _) fun _ => addsNewVariable _ _

theorem addsPost {c : Constraint} {g : Option Handle}
    (answer : m ≤ M → (∀ h ∈ (Posted.mk c g).handles, m.Owns h) →
      M.Defines (Posted.isSatisfied · ⟨c, g⟩)) : Adds M m (remains (post c g m)) := by
  rw [postRun]
  cases recognized : m.recognize ⟨c, g⟩ with
  | error e => exact Std.Refl.refl m
  | ok u =>
    refine ⟨lePosted m _, fun later p mem => ?_⟩
    rcases List.mem_append.mp mem with old | new
    · exact .inl old
    · rw [List.mem_singleton.mp new]
      exact .inr (answer (leTrans (lePosted m _) later) (recognizeOk.mp recognized))

theorem addsIncreasing (vars : List Handle) (tame : ∀ h ∈ vars, M.Tame h) :
    Keeps (Adds M) (increasing vars) := by
  match vars with
  | [] | [_] => exact keepsPure _
  | l :: r :: rest =>
    obtain ⟨left, others⟩ := List.forall_mem_cons.mp tame
    have right := others r List.mem_cons_self
    refine keepsBind (fun m => addsPost fun later owned => ?_) fun _ => addsIncreasing (r :: rest) others
    simp only [Posted.handles, Constraint.handles, Term.handles, Option.toList_none, List.append_nil,
      List.forall_mem_cons] at owned
    exact compareDefines (left.defines (owned.1.later later)) (right.defines (owned.2.1.later later))

variable (proper : M.Proper) (small : M.Small)
include proper small

theorem newIntDefines {lo hi : Int64} {name : String} (ok : newInt lo hi name m = .ok h n)
    (later : n ≤ M) : M.Defines (·.value h) :=
  boundsDefines proper later (newIntBounds (smallOfLe later small) ok)

theorem addsTarget {lo hi : Int64} {name : String} {c : Handle → Constraint} {α : Type} {z : Handle → α}
    (answer : ∀ h, m ≤ M → (∀ g ∈ (c h).handles, M.Owns g) → M.Defines (·.value h) →
      M.Defines (Constraint.holds · (c h))) :
    Adds M m (remains ((do
      let h ← newInt lo hi name
      add (c h)
      return z h : Build α) m)) := by
  refine remainsBind (addsNewInt lo hi name m) fun h k made => ?_
  have le := (keepsOk (addsNewInt lo hi name (M := M)) made).le
  refine remainsBind (addsPost fun later owned => ?_) fun _ _ _ => keepsPure (z h) _
  have owned : ∀ g ∈ (c h).handles, k.Owns g := fun g mem => owned g (List.mem_append_left _ mem)
  exact answer h (leTrans le later) (fun g mem => (owned g mem).later later)
    (newIntDefines proper small made later)

theorem addsReify {holds fails : Constraint} (hold : m ≤ M → M.Defines (Constraint.holds · holds))
    (fail : m ≤ M → M.Defines (Constraint.holds · fails)) :
    Adds M m (remains (reify holds fails m)) := by
  refine remainsBind (addsNewInt 0 1 "" m) fun b k made => ?_
  have grown := (keepsOk (addsNewInt 0 1 "" (M := M)) made).le
  refine remainsBind (addsPost fun later _ => ?_) fun _ n first => ?_
  · exact guardedDefines (newIntDefines proper small made later) (hold (leTrans grown later))
  refine remainsLift fun c negated => ?_
  refine remainsBind (addsPost fun later _ => ?_) fun _ _ _ => keepsPure b _
  have le : k ≤ n := (postOk first).1 ▸ lePosted k _
  have later := leTrans le later
  have literal : k.Literal b := ⟨_, newIntBounds (smallOfLe later small) made, rfl⟩
  have opposite := (literal.later later).negate proper negated
  exact guardedDefines (opposite.defines proper) (fail (leTrans grown later))

theorem addsReifyConnective {k : Connective} (literals : ∀ h ∈ hs, m.Literal h) :
    Adds M m (remains (reifyConnective k hs m)) := by
  refine remainsBind (keepsMapM (fun _ => keepsLift _) _ m) fun complements n ok => ?_
  obtain ⟨negated, same⟩ := runMapMLift.mp ok
  subst same
  refine addsReify proper small (fun later => ?_) fun later => ?_
  · exact (connectiveDefines fun h mem => ((literals h mem).later later).defines proper).1
  · refine (connectiveDefines fun g mem => ?_).2
    obtain ⟨h, listed, source⟩ := relatedTo negated.flip mem
    exact (((literals h listed).later later).negate proper source).defines proper

theorem addsLinear (fits : offset = 0 ∨ Plain terms) : Keeps (Adds M) (linear op terms offset) := by
  intro m
  refine remainsAsk fun range bounds => remainsLift fun lo least => remainsLift fun hi most =>
    remainsLift fun c exact => addsTarget proper small fun h later _ target => ?_
  have bounds : m.sumBounds terms (offset, offset) = .ok (lo.toInt, hi.toInt) := by
    rw [bounds, narrowExact.mp least, narrowExact.mp most]
  exact linearDefines proper (sumBoundsLater later bounds) (narrowExact.mp exact) fits target

theorem addsSum (few : items.length < 2 ^ 59) : Keeps (Adds M) (sum items) := by
  refine fun m => remainsLift fun split ok => ?_
  have plain : Plain split.1 := by
    rw [(sumItemsOk ok).2]
    exact plainItems few
  dsimp only
  split
  · exact keepsBind (keepsLift _) (fun _ => keepsPure _) m
  · exact keepsBind (addsLinear proper small (.inr plain)) (fun _ => keepsPure _) m

theorem addsScaledSum (coeffs : List Int64) : Keeps (Adds M) (scaledSum hs coeffs) := by
  unfold scaledSum
  split
  · exact addsLinear proper small (.inl rfl)
  · exact keepsThrow _

theorem addsSigned {c : Int64} (unit : c = 1 ∨ c = -1) (x y : Operand) :
    Keeps (Adds M) (signed op c x y) :=
  keepsSignedOf unit (fun _ _ units few => addsLinear proper small (.inr ⟨units, by omega⟩)) x y

theorem addsExtreme (e : Extreme) : Keeps (Adds M) (extreme e items) := by
  have item := keepsItemOf (R := Adds M) (fun _ => addsNewInt _ _ _) e
  unfold extreme
  split
  · refine keepsBind (keepsLift _) fun numbers => ?_
    split
    · exact keepsPure _
    · exact keepsThrow _
  · refine fun m => remainsBind (keepsMapM item items m) fun vars k _ => remainsAsk fun hull enveloped =>
      addsTarget proper small fun h later _ target => extremeDefines target fun g mem => ?_
    obtain ⟨range, known, _⟩ := (envelopeExact enveloped).2 g mem
    exact boundsDefines proper later known

end Adding

end Model

namespace Layer

open Model

variable {M : Model} (proper : M.Proper) (small : M.Small) (ops : Layer)
include proper small

theorem addsCompareConst (rel : Relation) (h : Handle) (c : Int64) :
    Keeps (Adds M) (ops.compareConst rel h c) := by
  refine fun m => remainsAsk fun range known => ?_
  cases rel.decided range (.point c) with
  | some t => exact keepsPure _ m
  | none =>
    have value : m ≤ M → M.Defines (·.value h) := fun later =>
      boundsDefines proper later known
    exact addsReify proper small (fun later => compareConstDefines (value later))
      fun later => compareConstDefines (value later)

theorem addsCompareVars (rel : Relation) (l r : Handle) :
    Keeps (Adds M) (ops.compareVars rel l r) := by
  unfold compareVars
  split
  · exact keepsPure _
  refine fun m => remainsAsk fun left knownLeft => remainsAsk fun right knownRight => ?_
  cases rel.decided left right with
  | some t => exact keepsPure _ m
  | none =>
    have values : m ≤ M → M.Defines (·.value l) ∧ M.Defines (·.value r) := fun later =>
      ⟨boundsDefines proper later knownLeft, boundsDefines proper later knownRight⟩
    exact addsReify proper small (fun later => compareDefines (values later).1 (values later).2)
      fun later => compareDefines (values later).1 (values later).2

theorem addsAnyTrue (lits : List Handle) : Keeps (Adds M) (ops.anyTrue lits) := by
  refine fun m => remainsAsk fun rest found => ?_
  split
  · exact keepsPure _ m
  · exact keepsPure _ m
  · exact keepsPure _ m
  · exact addsReifyConnective proper small (undecidedLiterals found)

theorem addsConnectVars (c : Connective) (l r : Handle) :
    Keeps (Adds M) (ops.connectVars c l r) := by
  refine fun m => remainsAsk fun result _ => ?_
  split
  · exact keepsPure _ m
  refine remainsAsk fun _ first => remainsAsk fun _ second => addsReifyConnective proper small ?_
  simpa using ⟨assertBooleanOk.mp first, assertBooleanOk.mp second⟩

theorem addsInDomain (h : Handle) (d : Domain) : Keeps (Adds M) (ops.inDomain h d) := by
  refine fun m => remainsAsk fun current known => ?_
  split
  · split
    · exact keepsPure _ m
    · exact addsReify proper small (fun later => insideDefines (domainDefines later known))
        fun later => insideDefines (domainDefines later known)
  · exact keepsPure _ m

theorem addsKept : ops.Kept (Adds M) where
  constant _ := addsNewInt _ _ _
  compareConst := addsCompareConst proper small ops
  compareVars := addsCompareVars proper small ops
  connectVars := addsConnectVars proper small ops
  anyTrue := addsAnyTrue proper small ops
  inDomain := addsInDomain proper small ops

theorem addsMult {x y : Operand} (left : ∀ h ∈ x.handles, M.Tame h)
    (right : ∀ h ∈ y.handles, M.Tame h) : Keeps (Adds M) (ops.mult x y) := by
  unfold mult
  split
  · rename_i l r
    have left := left l (List.mem_singleton_self l)
    have right := right r (List.mem_singleton_self r)
    refine fun m => addsTarget proper small fun h _ owned target => ?_
    simp only [Constraint.handles, List.forall_mem_cons] at owned
    exact productDefines target (left.defines owned.2.1) (right.defines owned.2.2.1)
  · exact keepsBind (keepsLift _) fun _ =>
      keepsBind (addsLinear proper small (.inl rfl)) fun _ => keepsPure _
  · exact keepsBind (keepsLift _) fun _ =>
      keepsBind (addsLinear proper small (.inl rfl)) fun _ => keepsPure _
  · exact keepsBind (keepsLift _) fun _ => keepsBind (keepsLift _) fun _ =>
      keepsBind (keepsLift _) fun _ => keepsPure _

theorem addsDiv {x y : Operand} (numerator : ∀ h ∈ x.handles, M.Tame h) :
    Keeps (Adds M) (ops.div x y) := by
  unfold div
  split
  · exact keepsThrow _
  · refine keepsBind (keepsLift _) fun d => ?_
    split
    · exact keepsThrow _
    rename_i nonzero
    split
    · rename_i g
      have numerator := numerator g (List.mem_singleton_self g)
      refine fun m => addsTarget proper small fun h _ owned target => ?_
      simp only [Constraint.handles, List.forall_mem_cons] at owned
      exact quotientDefines nonzero target (numerator.defines owned.2.1)
    · refine keepsBind (keepsLift _) fun n => ?_
      split
      · exact keepsPure _
      · exact keepsThrow _

end Layer

end ConstraintAlgebra
