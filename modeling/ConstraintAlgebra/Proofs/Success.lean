import ConstraintAlgebra.Proofs.Operands
import ConstraintAlgebra.Proofs.Totals

/-! Calls that succeed. A comparison needs operands with a known range, and the other operators need
literals; given these, no call fails before the model has run out of handles. -/
namespace ConstraintAlgebra

/-- States that only grow, and a bound that all earlier states keep if a later one does. -/
class Growing (σ : Type) where
  Grows : σ → σ → Prop
  preorder : IsPreorder σ Grows
  Small : σ → Prop
  smaller {s t : σ} : Grows s t → Small t → Small s

attribute [instance] Growing.preorder

instance : Growing Model :=
  ⟨Model.Grown, inferInstance, Model.Small, fun grown => Model.smallOfLe grown.le⟩

instance {E : Type} [Encoding E] : Growing (Workspace E) :=
  ⟨Later, inferInstance, (·.model.Small), fun later => Model.smallOfLe later.grown.le⟩

section Succeeds

variable {σ α β : Type} [Growing σ] {x : EStateM Failure σ α} {f : α → EStateM Failure σ β} {s : σ}
  {P : α → σ → Prop} {Q : β → σ → Prop}

def Succeeds (action : EStateM Failure σ α) (s : σ) : Prop :=
  Growing.Small (remains (action s)) → ∃ a t, action s = .ok a t

def Achieves (action : EStateM Failure σ α) (s : σ) (P : α → σ → Prop) : Prop :=
  Growing.Small (remains (action s)) → ∃ a t, action s = .ok a t ∧ P a t

theorem Succeeds.achieves (succeeds : Succeeds x s)
    (exact : ∀ a t, x s = .ok a t → Growing.Small t → P a t) : Achieves x s P := by
  intro small
  obtain ⟨a, t, ok⟩ := succeeds small
  rw [ok] at small
  exact ⟨a, t, ok, exact a t ok small⟩

theorem Achieves.small (achieves : Achieves x s P) :
    Achieves x s fun a t => P a t ∧ Growing.Small t := by
  intro small
  obtain ⟨a, t, ok, achieved⟩ := achieves small
  rw [ok] at small
  exact ⟨a, t, ok, achieved, small⟩

theorem Achieves.imp {Q : α → σ → Prop} (achieves : Achieves x s P) (imp : ∀ a t, P a t → Q a t) :
    Achieves x s Q := fun small =>
  let ⟨a, t, ok, achieved⟩ := achieves small
  ⟨a, t, ok, imp a t achieved⟩

theorem Achieves.kept {R : σ → σ → Prop} (achieves : Achieves x s P) (keeps : Keeps R x) :
    Achieves x s fun a t => R s t ∧ P a t := by
  intro small
  obtain ⟨a, t, ok, achieved⟩ := achieves small
  exact ⟨a, t, ok, keepsOk keeps ok, achieved⟩

theorem Achieves.succeeds (achieves : Achieves x s P) : Succeeds x s := fun small =>
  let ⟨a, t, ok, _⟩ := achieves small
  ⟨a, t, ok⟩

theorem achievesBind (keeps : ∀ a, Keeps Growing.Grows (f a)) (first : Achieves x s P)
    (rest : ∀ a t, P a t → Achieves (f a) t Q) : Achieves (x >>= f) s Q := by
  intro small
  cases ran : x s with
  | ok a t =>
    rw [runAfter ran] at small ⊢
    obtain ⟨_, _, ok, achieved⟩ := first (ran.symm ▸ Growing.smaller (keeps a t) small)
    rw [ran] at ok
    cases ok
    exact rest a t achieved small
  | error e t =>
    rw [runFails ran] at small
    obtain ⟨_, _, ok, _⟩ := first (ran.symm ▸ small)
    rw [ran] at ok
    contradiction

theorem succeedsOk {a : α} {t : σ} (ok : x s = .ok a t) : Succeeds x s := fun _ => ⟨a, t, ok⟩

theorem succeedsPure (a : α) : Succeeds (pure a) s := succeedsOk rfl

theorem succeedsBind (keeps : ∀ a, Keeps Growing.Grows (f a)) (first : Succeeds x s)
    (rest : ∀ a t, x s = .ok a t → Growing.Small t → Succeeds (f a) t) : Succeeds (x >>= f) s := by
  have reached : Achieves x s fun a t => x s = .ok a t ∧ Growing.Small t :=
    first.achieves fun a t ok small => ⟨ok, small⟩
  refine (achievesBind (Q := fun _ _ => True) keeps reached fun a t before => ?_).succeeds
  exact (rest a t before.1 before.2).achieves fun _ _ _ _ => trivial

theorem achievesAfter {a : α} {t : σ} (ran : x s = .ok a t) (rest : Achieves (f a) t Q) :
    Achieves (x >>= f) s Q := by
  rw [Achieves, runAfter ran]
  exact rest

theorem succeedsAfter {a : α} {t : σ} (ran : x s = .ok a t) (rest : Succeeds (f a) t) :
    Succeeds (x >>= f) s :=
  (achievesAfter (Q := fun _ _ => True) ran (rest.achieves fun _ _ _ _ => trivial)).succeeds

theorem succeedsSmall (keeps : Keeps Growing.Grows x) (early : Growing.Small s → Succeeds x s) :
    Succeeds x s := fun small => early (Growing.smaller (keeps s) small) small

theorem succeedsMap {f : α → β} (first : Succeeds x s) : Succeeds (do return f (← x)) s := by
  intro small
  have left : remains ((do return f (← x)) s) = remains (x s) := by
    cases ran : x s <;> simp [bind, EStateM.bind, ran, remains, pure, EStateM.pure]
  obtain ⟨a, t, ok⟩ := first (left ▸ small)
  exact ⟨f a, t, runMap.mpr ⟨a, ok, rfl⟩⟩

end Succeeds

theorem succeedsOnModel {E α : Type} [Encoding E] {action : Build α} {w : Workspace E}
    (inner : Succeeds action w.model) : Succeeds (liftM action : Operate E α) w := by
  intro small
  obtain ⟨a, m, ok⟩ := inner (remainsOnModel action w ▸ small)
  exact ⟨a, ⟨m, w.encoder⟩, runOnModel.mpr ⟨ok, rfl⟩⟩

namespace Model

variable {m n : Model} {h g b : Handle} {range : Interval} {lo hi x : Int64}

theorem Literal.ranged (literal : m.Literal h) : m.Ranged h := literal.imp fun _ => And.left

theorem Ranged.owned (ranged : m.Ranged h) : m.Owns h := boundsOwned ranged.choose_spec

theorem boundsLater (le : m ≤ n) (known : m.bounds h = .ok range) : n.bounds h = .ok range := by
  obtain ⟨v, lo, hi, found, ends⟩ := boundsOk.mp known
  exact boundsOk.mpr ⟨v, lo, hi, varOfLe le found, ends⟩

theorem Ranged.later (ranged : m.Ranged h) (le : m ≤ n) : n.Ranged h :=
  ranged.imp fun _ => boundsLater le

theorem Literal.later (literal : m.Literal h) (le : m ≤ n) : n.Literal h :=
  literal.imp fun _ known => ⟨boundsLater le known.1, known.2⟩

theorem boundsFound {v : Variable} (sign : h.isNegated = false) (found : m.vars[h.index]? = some v)
    (only : v.domain.intervals = [⟨lo, hi⟩]) : m.bounds h = .ok ⟨lo, hi⟩ :=
  boundsOk.mpr ⟨v, lo, hi, found, by rw [Domain.min, only]; rfl, by rw [Domain.max, only]; rfl,
    by simp [sign]⟩

theorem Constant.literal (constant : m.Constant h x) (bit : x = 0 ∨ x = 1) : m.Literal h := by
  obtain ⟨sign, name, found⟩ := constant
  refine ⟨_, boundsFound sign found rfl, ?_⟩
  rcases bit with rfl | rfl <;> rfl

theorem Next.bounds {name : String} {ps : List Posted} (next : m.Next h) :
    (m.extended ⟨⟨[⟨lo, hi⟩]⟩, name⟩ ps).bounds h = .ok ⟨lo, hi⟩ :=
  boundsFound next.sign (by rw [next.place]; exact List.getElem?_concat_length) rfl

theorem newIntBounds {name : String} (small : n.Small) (ok : newInt lo hi name m = .ok h n) :
    n.bounds h = .ok ⟨lo, hi⟩ := by
  obtain ⟨_, rfl, next⟩ := newIntOk ok
  exact (next small).bounds

theorem negateExists (small : m.Small) (owned : m.Owns h) : ∃ n, h.negate = .ok n := by
  refine Handle.negateExists fun least => ?_
  have place := h.indexCode
  rw [Owns] at owned
  rw [Small] at small
  omega

theorem withinBit : range.within ⟨0, 1⟩ = true ↔ 0 ≤ range.lo.toInt ∧ range.hi.toInt ≤ 1 := by
  simp only [Interval.within, Bool.and_eq_true, decide_eq_true_eq, Int64.le_iff_toInt_le,
    Int64.toInt_zero, Int64.toInt_one]

theorem Literal.negate (proper : m.Proper) (literal : m.Literal h) (negated : h.negate = .ok g) :
    m.Literal g := by
  obtain ⟨place, sign⟩ := negateSource negated
  obtain ⟨range, known, within⟩ := literal
  obtain ⟨v, lo, hi, found, least, most, ends⟩ := boundsOk.mp known
  rw [withinBit] at within
  simp only [Literal, boundsOk, place, sign, withinBit]
  cases negative : h.isNegated with
  | true =>
    simp only [negative, if_true] at ends
    refine ⟨⟨lo, hi⟩, ⟨v, lo, hi, found, least, most, rfl⟩, ?_⟩
    dsimp only
    omega
  | false =>
    simp only [negative, Bool.false_eq_true, if_false] at ends
    subst ends
    have canonical := proper.canonical v (List.mem_of_getElem? found)
    have le := (Domain.maxExact canonical most).2 lo (Domain.minExact canonical least).1
    have above := hi.toInt_lt
    dsimp only at within
    obtain ⟨lo', first⟩ := toWordFits (n := 1 - hi.toInt) (by omega) (by omega)
    obtain ⟨hi', last⟩ := toWordFits (n := 1 - lo.toInt) (by omega) (by omega)
    have first := toWordExact.mp first
    have last := toWordExact.mp last
    refine ⟨⟨lo', hi'⟩, ⟨v, lo, hi, found, least, most, first, last⟩, ?_⟩
    dsimp only
    omega

section Building

variable {holds fails : Constraint} {lits : List Handle} {u : Unit}

theorem newVariableSucceeds {d : Domain} {name : String} (inhabited : d.intervals ≠ []) :
    Succeeds (newVariable d name) m := by
  rw [newVariable, if_neg (by simpa [Domain.isEmpty] using inhabited)]
  refine succeedsBind (fun _ => keepsBind keepsGet fun _ => keepsBind (keepsLift _) fun _ =>
    keepsPure _) (succeedsOk rfl) fun _ n added small => ?_
  have size : n.vars.length = m.vars.length + 1 := by
    rw [← runModify.mp added, List.length_append, List.length_singleton]
  have small : n.vars.length < 2 ^ 31 := small
  obtain ⟨v, named, _⟩ := VarId.ofIndexPlace (i := n.vars.length - 1) (by omega)
  exact succeedsAfter rfl (succeedsAfter (runLift.mpr ⟨named, rfl⟩) (succeedsPure _))

theorem newIntSucceeds {name : String} (le : lo ≤ hi) : Succeeds (newInt lo hi name) m := by
  have made : Domain.interval lo hi = .ok ⟨[⟨lo, hi⟩]⟩ := if_pos le
  rw [newInt, made]
  exact newVariableSucceeds (d := ⟨[⟨lo, hi⟩]⟩) (by simp)

theorem postOwned {c : Constraint} {g : Option Handle} (owned : ∀ h ∈ c.handles, m.Owns h)
    (guard : ∀ h ∈ g, m.Owns h) :
    post c g m = .ok () ⟨m.vars, m.constraints ++ [⟨c, g⟩]⟩ := by
  have recognized : m.recognize ⟨c, g⟩ = .ok () :=
    recognizeOk.mpr (List.forall_mem_append.mpr ⟨owned, by simpa using guard⟩)
  rw [postRun, recognized]

theorem Owns.later (owns : m.Owns h) (le : m ≤ n) : n.Owns h := owns.trans_le (leVars le)

theorem negateOwned (negated : h.negate = .ok g) (owned : m.Owns h) : m.Owns g := by
  rw [Owns, (negateSource negated).1]
  exact owned

theorem reifySucceeds (hold : ∀ h ∈ holds.handles, m.Owns h) (fail : ∀ h ∈ fails.handles, m.Owns h) :
    Succeeds (reify holds fails) m := by
  refine succeedsBind (fun b => keepsBind (keepsPost _ _) fun _ => keepsBind (keepsLift _) fun _ =>
    keepsBind (keepsPost _ _) fun _ => keepsPure _) (newIntSucceeds (by decide))
    fun b n made small => ?_
  have le := (keepsOk (keepsNewInt _ _ _) made).le
  have owned := boundsOwned (newIntBounds small made)
  obtain ⟨c, negated⟩ := negateExists small owned
  have hold : ∀ h ∈ holds.handles, n.Owns h := fun h mem => (hold h mem).later le
  have fail : ∀ h ∈ fails.handles, n.Owns h := fun h mem => (fail h mem).later le
  have opposite : ∀ h ∈ some c, n.Owns h := by simpa using negateOwned negated owned
  refine succeedsAfter (postOwned hold (by simpa using owned)) ?_
  refine succeedsAfter (runLift.mpr ⟨negated, rfl⟩) ?_
  exact succeedsAfter (postOwned fail opposite) (succeedsPure b)

theorem reifyLiteral (small : n.Small) (ok : reify holds fails m = .ok b n) : n.Literal b := by
  obtain ⟨c, _, rfl, _, next⟩ := reifyOk ok
  exact ⟨_, (next small).bounds, rfl⟩

theorem reifyConnectiveSucceeds {c : Connective} (owned : ∀ h ∈ lits, m.Owns h) :
    Succeeds (reifyConnective c lits) m := by
  refine succeedsSmall (keepsReifyConnective c lits) fun small => ?_
  obtain ⟨complements, negated⟩ := relate fun h mem => negateExists small (owned h mem)
  have ran : (lits.mapM fun h => (liftM h.negate : Build Handle)) m = .ok complements m :=
    runMapMLift.mpr ⟨negated, rfl⟩
  refine succeedsAfter ran ?_
  have opposite : ∀ h ∈ complements, m.Owns h := fun h mem => by
    obtain ⟨g, listed, source⟩ := relatedTo negated.flip mem
    exact negateOwned source (owned g listed)
  cases c
  · exact reifySucceeds owned opposite
  · exact reifySucceeds owned opposite

theorem reifyConnectiveLiteral {c : Connective} (small : n.Small)
    (ok : reifyConnective c lits m = .ok b n) : n.Literal b := by
  simp only [reifyConnective, runBind] at ok
  obtain ⟨_, _, _, ok⟩ := ok
  exact reifyLiteral small ok

theorem undecidedExists (literal : ∀ h ∈ lits, m.Literal h) :
    ∃ rest, m.undecided lits = .ok rest ∧ ∀ hs, rest = some hs → hs ⊆ lits := by
  suffices decided : ∃ rest, m.undecided lits = .ok rest by
    obtain ⟨rest, ok⟩ := decided
    exact ⟨rest, ok, fun hs same => undecidedSubset (same ▸ ok)⟩
  induction lits with
  | nil => exact ⟨some [], rfl⟩
  | cons h lits ih =>
    obtain ⟨first, others⟩ := List.forall_mem_cons.mp literal
    obtain ⟨range, known⟩ := first.ranged
    obtain ⟨rest, ok⟩ := ih others
    simp only [undecided, assertBooleanOk.mpr first, isTrue, isFalse, isTruthKnown known, ok, bind,
      Except.bind]
    repeat' split
    all_goals exact ⟨_, rfl⟩

theorem boundsOrdered (proper : m.Proper) (known : m.bounds h = .ok range) :
    range.lo.toInt ≤ range.hi.toInt := by
  obtain ⟨v, lo, hi, found, least, most, ends⟩ := boundsOk.mp known
  have canonical := proper.canonical v (List.mem_of_getElem? found)
  have le := (Domain.maxExact canonical most).2 lo (Domain.minExact canonical least).1
  split at ends
  · omega
  · rw [ends]
    exact le

theorem sumBoundsExists {terms : List Summand} {lo hi : Int} (proper : m.Proper)
    (literals : ∀ s ∈ terms, s.1 = 1 ∧ m.Literal s.2) (nonneg : 0 ≤ lo) (le : lo ≤ hi)
    (fits : hi + terms.length < 2 ^ 63) : ∃ range, m.sumBounds terms (lo, hi) = .ok range ∧
      0 ≤ range.1 ∧ range.1 ≤ range.2 ∧ range.2 < 2 ^ 63 := by
  induction terms generalizing lo hi with
  | nil => exact ⟨_, rfl, nonneg, le, by simpa using fits⟩
  | cons s rest ih =>
    obtain ⟨c, h⟩ := s
    obtain ⟨⟨rfl, range, known, within⟩, others⟩ := List.forall_mem_cons.mp literals
    have ordered := boundsOrdered proper known
    rw [withinBit] at within
    simp only [List.length_cons, Nat.cast_add, Nat.cast_one] at fits
    simp only [sumBounds, bindOk, wideExact, known, Except.ok.injEq, exists_eq_left',
      Int64.toInt_one, one_mul, min_eq_left ordered, max_eq_right ordered]
    obtain ⟨total, ok, bounds⟩ : ∃ total, m.sumBounds rest (lo + range.lo.toInt,
        hi + range.hi.toInt) = .ok total ∧ 0 ≤ total.1 ∧ total.1 ≤ total.2 ∧ total.2 < 2 ^ 63 :=
      ih others (by omega) (by omega) (by omega)
    exact ⟨total, ⟨_, ⟨rfl, by omega, by omega⟩, _, ⟨rfl, by omega, by omega⟩, ok⟩, bounds⟩

theorem addLinearSucceeds {terms : List Summand} {name : String} {c : Int64}
    (owned : ∀ s ∈ terms, m.Owns s.2) (small : n.Small) (made : newInt lo hi name m = .ok h n) :
    Succeeds (do add (.linear h terms c); return h) n := by
  have grown := (keepsOk (keepsNewInt _ _ _) made).le
  have known : ∀ g ∈ (Constraint.linear h terms c).handles, n.Owns g := by
    refine List.forall_mem_cons.mpr ⟨boundsOwned (newIntBounds small made), ?_⟩
    exact List.forall_mem_map.mpr fun s mem => (owned s mem).later grown
  exact succeedsAfter (postOwned known (by simp)) (succeedsPure h)

theorem linearSucceeds {op : Operation} {terms : List Summand} (proper : m.Proper)
    (literals : ∀ s ∈ terms, s.1 = 1 ∧ m.Literal s.2) (few : terms.length < 2 ^ 63) :
    Succeeds (linear op terms 0) m := by
  obtain ⟨range, bounds, nonneg, le, fits⟩ :=
    sumBoundsExists proper literals le_rfl le_rfl (by exact_mod_cast (zero_add _).trans_lt few)
  obtain ⟨lo, least⟩ := toWordFits (n := range.1) (by omega) (by omega)
  obtain ⟨hi, most⟩ := toWordFits (n := range.2) (by omega) (by omega)
  have least := toWordExact.mp least
  have most := toWordExact.mp most
  refine succeedsAfter (runAsk.mpr ⟨bounds, rfl⟩) ?_
  refine succeedsAfter (runLift.mpr ⟨narrowExact.mpr least, rfl⟩) ?_
  refine succeedsAfter (runLift.mpr ⟨narrowExact.mpr most, rfl⟩) ?_
  refine succeedsAfter (runLift.mpr ⟨narrowExact.mpr Int64.toInt_zero, rfl⟩) ?_
  refine succeedsBind (fun _ => keepsBind (keepsPost _ _) fun _ => keepsPure _)
    (newIntSucceeds (Int64.le_iff_toInt_le.mpr (by omega))) fun h n made small => ?_
  exact addLinearSucceeds (fun s mem => (literals s mem).2.ranged.owned) small made

theorem sumItemsVars (hs : List Handle) (terms : List Summand) (offset : Int) :
    sumItems (hs.map .var) terms offset = .ok (terms ++ hs.map fun h => (1, h), offset) := by
  induction hs generalizing terms with
  | nil => simp [sumItems]
  | cons h hs ih => simp [sumItems, ih]

theorem sumSucceeds (proper : m.Proper) (literals : ∀ h ∈ lits, m.Literal h)
    (few : lits.length < 2 ^ 63) : Succeeds (sum (lits.map .var)) m := by
  refine succeedsAfter (runLift.mpr ⟨sumItemsVars lits [] 0, rfl⟩) ?_
  dsimp only
  split
  · exact succeedsAfter (runLift.mpr ⟨narrowExact.mpr Int64.toInt_zero, rfl⟩) (succeedsPure _)
  · refine succeedsMap (linearSucceeds proper ?_ (by simpa using few))
    simpa using literals

theorem sumRanged {items : List Operand} {z : Operand} (small : n.Small)
    (ok : sum items m = .ok z n) : (∃ c, z = long c) ∨ ∃ h, z = .var h ∧ n.Ranged h := by
  obtain ⟨_, total⟩ := sumTotalled ok
  cases total with
  | number _ _ => exact .inl ⟨_, rfl⟩
  | target ok =>
    obtain ⟨lo, hi, c, _, _, rfl, _, _, next⟩ := linearOk ok
    exact .inr ⟨_, rfl, _, (next small).bounds⟩

end Building

end Model

namespace Layer

open Model

variable {ops : Layer} {m n : Model} {h l r b : Handle} {rel : Relation} {c : Int64}
  {k : Connective} {lits : List Handle}

theorem In.literal (inside : ops.In m) (t : Bool) : m.Literal (ops.constant t) := by
  cases t
  · exact inside.isFalse.literal (.inl rfl)
  · exact inside.isTrue.literal (.inr rfl)

theorem compareConstSucceeds (ranged : m.Ranged h) : Succeeds (ops.compareConst rel h c) m := by
  have owned : ∀ r : Relation, ∀ g ∈ (Constraint.compare h r (.const c)).handles, m.Owns g := by
    simpa [Constraint.handles, Term.handles] using fun _ => ranged.owned
  obtain ⟨range, known⟩ := ranged
  refine succeedsAfter (runAsk.mpr ⟨known, rfl⟩) ?_
  split
  · exact succeedsPure _
  · exact reifySucceeds (owned _) (owned _)

theorem compareConstLiteral (inside : ops.In m) (small : n.Small)
    (ok : ops.compareConst rel h c m = .ok b n) : n.Literal b := by
  obtain ⟨_, _, ⟨t, _, rfl, rfl⟩ | ⟨_, ok⟩⟩ := compareConstCases ok
  · exact inside.literal t
  · exact reifyLiteral small ok

theorem compareVarsSucceeds (left : m.Ranged l) (right : m.Ranged r) :
    Succeeds (ops.compareVars rel l r) m := by
  have owned : ∀ q : Relation, ∀ g ∈ (Constraint.compare l q (.var r)).handles, m.Owns g := by
    simpa [Constraint.handles, Term.handles] using fun _ => ⟨left.owned, right.owned⟩
  obtain ⟨i, knownLeft⟩ := left
  obtain ⟨j, knownRight⟩ := right
  rw [compareVars]
  split
  · exact succeedsPure _
  refine succeedsAfter (runAsk.mpr ⟨knownLeft, rfl⟩) (succeedsAfter (runAsk.mpr ⟨knownRight, rfl⟩) ?_)
  split
  · exact succeedsPure _
  · exact reifySucceeds (owned _) (owned _)

theorem compareVarsLiteral (inside : ops.In m) (small : n.Small)
    (ok : ops.compareVars rel l r m = .ok b n) : n.Literal b := by
  obtain ⟨_, rfl, rfl⟩ | ⟨_, _, _, _, _, ⟨t, _, rfl, rfl⟩ | ⟨_, ok⟩⟩ := compareVarsCases ok
  · exact inside.literal _
  · exact inside.literal t
  · exact reifyLiteral small ok

theorem notVarSucceeds (ranged : m.Ranged h) : Succeeds (ops.notVar h) m := by
  obtain ⟨range, known⟩ := ranged
  refine succeedsAfter (runAsk.mpr ⟨isTruthKnown known true, rfl⟩) ?_
  split
  · exact succeedsPure _
  refine succeedsAfter (runAsk.mpr ⟨isTruthKnown known false, rfl⟩) ?_
  split
  · exact succeedsPure _
  refine succeedsAfter (a := range.within ⟨0, 1⟩) (runAsk.mpr ⟨by rw [isBoolean, known]; rfl, rfl⟩) ?_
  split
  · refine succeedsSmall (keepsLift _) fun small => ?_
    obtain ⟨g, negated⟩ := negateExists small (boundsOwned known)
    exact succeedsOk (runLift.mpr ⟨negated, rfl⟩)
  · exact compareConstSucceeds ⟨range, known⟩

theorem notVarLiteral (proper : m.Proper) (inside : ops.In m) (small : n.Small)
    (ok : ops.notVar h m = .ok b n) : n.Literal b := by
  obtain ⟨t, _, rfl, rfl⟩ | ⟨literal, negated, rfl⟩ | ok := notVarCases ok
  · exact inside.literal _
  · exact Literal.negate proper literal negated
  · exact compareConstLiteral inside small ok

theorem waivedSucceeds (ops : Layer) (k : Connective) (small : m.Small) (left : m.Ranged l)
    (right : m.Ranged r) : ∃ result, ops.waived k l r m = .ok result := by
  obtain ⟨i, first⟩ := left
  obtain ⟨j, second⟩ := right
  obtain ⟨g, negated⟩ := negateExists small (boundsOwned second)
  simp only [waived, isTruthKnown first, isTruthKnown second, negated, bind, Except.bind]
  repeat' split
  all_goals exact ⟨_, rfl⟩

theorem connectVarsSucceeds (left : m.Literal l) (right : m.Literal r) :
    Succeeds (ops.connectVars k l r) m := by
  refine succeedsSmall (ops.keepsConnectVars k l r) fun small => ?_
  obtain ⟨result, decided⟩ := ops.waivedSucceeds k small left.ranged right.ranged
  refine succeedsAfter (runAsk.mpr ⟨decided, rfl⟩) ?_
  split
  · exact succeedsPure _
  refine succeedsAfter (runAsk.mpr ⟨assertBooleanOk.mpr left, rfl⟩) ?_
  refine succeedsAfter (runAsk.mpr ⟨assertBooleanOk.mpr right, rfl⟩) (reifyConnectiveSucceeds ?_)
  simp [left.ranged.owned, right.ranged.owned]

theorem connectVarsLiteral (inside : ops.In m) (left : m.Literal l) (right : m.Literal r)
    (small : n.Small) (ok : ops.connectVars k l r m = .ok b n) : n.Literal b := by
  obtain ⟨rfl, waived | ⟨_, _, rfl⟩⟩ | ⟨_, _, ok⟩ := connectVarsCases ok
  · cases waived with
    | neutralLeft _ _ => exact right
    | neutralRight _ _ => exact left
    | same _ _ => exact right
    | _ => exact inside.literal _
  · exact inside.literal _
  · exact reifyConnectiveLiteral small ok

theorem anyTrueSucceeds (literals : ∀ h ∈ lits, m.Literal h) : Succeeds (ops.anyTrue lits) m := by
  obtain ⟨rest, found, inside⟩ := undecidedExists literals
  refine succeedsAfter (runAsk.mpr ⟨found, rfl⟩) ?_
  split
  · exact succeedsPure _
  · exact succeedsPure _
  · exact succeedsPure _
  · exact reifyConnectiveSucceeds fun h mem => (literals h (inside _ rfl mem)).ranged.owned

theorem anyTrueLiteral (inside : ops.In m) (literals : ∀ h ∈ lits, m.Literal h) (small : n.Small)
    (ok : ops.anyTrue lits m = .ok b n) : n.Literal b := by
  obtain ⟨rest, undecided, listed⟩ := undecidedExists literals
  obtain ⟨_, found, ⟨rfl, ⟨rfl, rfl⟩ | ⟨rfl, rfl⟩ | rfl⟩ | ⟨hs, rfl, ok⟩⟩ := anyTrueCases ok
  · exact inside.literal true
  · exact inside.literal false
  · rw [undecided, Except.ok.injEq] at found
    exact literals _ (listed _ found (by simp))
  · exact reifyConnectiveLiteral small ok

section Operands

variable {E : Type} [Encoding E] {w v : Workspace E} {y z : Operand}

def Comparable (m : Model) (rel : Relation) : Operand → Prop
  | .var h => m.Ranged h
  | .scalar s => (s.kind = .string && rel.isOrdering) = false

theorem comparandExists {s : Scalar} (plain : (s.kind = .string && rel.isOrdering) = false) :
    ∃ c v, (comparand rel s : Operate E Int64) w = .ok c v ∧ v.model = w.model := by
  rw [comparand, plain]
  cases s <;> exact ⟨_, _, rfl, rfl⟩

theorem compareSucceeds (left : w.model.Ranged h) (right : Comparable w.model rel y) :
    Succeeds (ops.compare rel (.var h) y) w := by
  rcases y with s | g
  · obtain ⟨c, v, coded, same⟩ := comparandExists (E := E) (w := w) right
    refine succeedsAfter coded (succeedsMap (succeedsOnModel ?_))
    exact compareConstSucceeds (same ▸ left)
  · exact succeedsMap (succeedsOnModel (compareVarsSucceeds left right))

theorem compareLiteral (inside : ops.In w.model) (small : v.model.Small)
    (ok : ops.compare rel (.var h) y w = .ok z v) : ∃ b, z = .var b ∧ v.model.Literal b := by
  rcases y with s | g
  · simp only [compare, runBind, runPure] at ok
    obtain ⟨c, _, coded, b, _, ok, rfl, rfl⟩ := ok
    have ok := (runOnModel.mp ok).1
    rw [(comparandExact coded).1] at ok
    exact ⟨b, rfl, compareConstLiteral inside small ok⟩
  · simp only [compare, runMap] at ok
    obtain ⟨b, ok, rfl⟩ := ok
    exact ⟨b, rfl, compareVarsLiteral inside small (runOnModel.mp ok).1⟩

structure Marked (w v : Workspace E) (b : Handle) (P : Reading → Prop) : Prop where
  later : Later w v
  literal : v.model.Literal b
  settled : w.Settled v fun ρ => Marks (ρ.value b) (P ρ)

theorem compareMarked (proper : w.model.Proper) (inside : ops.In w.model)
    (left : w.model.Ranged h) (right : Comparable w.model rel y) :
    Achieves (ops.compare rel (.var h) y) w fun z v => ∃ b, z = .var b ∧
      Marked w v b fun ρ => rel.Holds (ρ.value h) (y.denote ρ) := by
  refine (compareSucceeds left right).achieves fun z v ok small => ?_
  obtain ⟨b, rfl, literal⟩ := compareLiteral inside small ok
  exact ⟨b, rfl, keepsOk (ops.keepsCompare _ _ _) ok, literal, compareSettled proper inside small ok⟩

theorem equalLiteralMarked (proper : w.model.Proper) (inside : ops.In w.model)
    (left : w.model.Ranged h) (right : Comparable w.model .eq y) :
    Achieves (ops.equalLiteral (.var h) y) w fun b v =>
      Marked w v b fun ρ => ρ.value h = y.denote ρ := by
  refine achievesBind (fun _ => keepsLift _) (compareMarked proper inside left right) ?_
  rintro _ v ⟨b, rfl, marked⟩
  exact fun _ => ⟨b, v, runLift.mpr ⟨rfl, rfl⟩, marked⟩

theorem notMarked (proper : w.model.Proper) (inside : ops.In w.model) (ranged : w.model.Ranged h) :
    Achieves (liftM (ops.not (.var h)) : Operate E Operand) w fun z v => ∃ b, z = .var b ∧
      Marked w v b fun ρ => ρ.value h = 0 := by
  have runs : Succeeds (liftM (ops.not (.var h)) : Operate E Operand) w :=
    succeedsOnModel (succeedsMap (notVarSucceeds ranged))
  refine runs.achieves fun z v ok small => ?_
  have later := keepsOk (keepsOnModel (ops.keepsNot _)) ok
  have settled := Workspace.settledOnModel ok (notSettled proper inside small)
  have ran := (runOnModel.mp ok).1
  simp only [Layer.not, runMap] at ran
  obtain ⟨b, ran, rfl⟩ := ran
  exact ⟨b, rfl, later, notVarLiteral proper inside small ran, settled⟩

theorem bitOfLiteral {a : Assignment} {ρ : Reading} (proper : m.Proper) (admits : m.Admits a)
    (reads : ρ.Reads a) (literal : m.Literal h) : Bit (ρ.value h) := by
  obtain ⟨x, value, bit⟩ := literal.bit proper admits
  rw [reads h x value]
  rcases bit with rfl | rfl
  · exact .inl rfl
  · exact .inr rfl

theorem connectMarked (proper : w.model.Proper) (inside : ops.In w.model)
    (left : w.model.Literal l) (right : w.model.Literal r) :
    Achieves (liftM (ops.connect k (.var l) (.var r)) : Operate E Operand) w fun z v =>
      ∃ b, z = .var b ∧ Marked w v b fun ρ => k.Joins (ρ.value l = 1) (ρ.value r = 1) := by
  have runs : Succeeds (liftM (ops.connect k (.var l) (.var r)) : Operate E Operand) w :=
    succeedsOnModel (succeedsMap (connectVarsSucceeds left right))
  refine runs.achieves fun z v ok small => ?_
  have later := keepsOk (keepsOnModel (ops.keepsConnect _ _ _)) ok
  have settled := Workspace.settledOnModel ok (connectSettled proper inside small)
  have ran := (runOnModel.mp ok).1
  simp only [connect, runMap] at ran
  obtain ⟨b, ran, rfl⟩ := ran
  refine ⟨b, rfl, later, connectVarsLiteral inside left right small ran, ?_⟩
  refine Model.Settled.imp settled fun a ρ solution reads marks knows => ?_
  have admits := (solutionExact.mp solution).1
  exact marks knows (bitOfLiteral settled.proper admits reads (left.later later.grown.le))
    (bitOfLiteral settled.proper admits reads (right.later later.grown.le))

theorem anyTrueMarked (proper : w.model.Proper) (inside : ops.In w.model)
    (literals : ∀ h ∈ lits, w.model.Literal h) :
    Achieves (liftM (ops.anyTrue lits) : Operate E Handle) w fun b v =>
      Marked w v b fun ρ => ∃ h ∈ lits, ρ.value h = 1 := by
  refine (succeedsOnModel (anyTrueSucceeds literals)).achieves fun b v ok small => ?_
  exact ⟨keepsOk (keepsOnModel (ops.keepsAnyTrue _)) ok,
    anyTrueLiteral inside literals small (runOnModel.mp ok).1,
    Workspace.settledOnModel ok (anyTrueSettled proper inside small)⟩

theorem sumAchieves (proper : w.model.Proper) (literals : ∀ h ∈ lits, w.model.Literal h)
    (few : lits.length < 2 ^ 59) :
    Achieves (liftM (Model.sum (lits.map .var)) : Operate E Operand) w fun z v => Later w v ∧
      ((∃ c, z = Model.long c) ∨ ∃ h, z = .var h ∧ v.model.Ranged h) ∧
      w.Settled v fun ρ => z.denote ρ = (lits.map ρ.value).sum := by
  refine (succeedsOnModel (sumSucceeds proper literals (by omega))).achieves fun z v ok small => ?_
  refine ⟨keepsOk (keepsOnModel (Model.keepsSum _)) ok, sumRanged small (runOnModel.mp ok).1, ?_⟩
  refine Workspace.settledOnModel ok fun ok => ?_
  obtain ⟨numeric, total⟩ := sumTotalled ok
  refine settledTotal total proper small (.inr (plainItems (by simpa using few))) fun ρ => ?_
  rw [sumExact numeric, List.map_map]
  rfl

end Operands

end Layer

end ConstraintAlgebra
