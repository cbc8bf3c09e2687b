import ConstraintAlgebra.Proofs.Codes
import ConstraintAlgebra.Proofs.Decisions
import ConstraintAlgebra.Proofs.SumRanges

/-! Operators on constants. A scalar may be made into a variable of its own before it becomes an
operand. As long as different strings have different codes the result is the one that the scalars
themselves give: a constant of the layer for a boolean, a variable fixed to it for a number. -/
namespace ConstraintAlgebra

open Encoding

namespace Relation

theorem decidedPoints {r : Relation} {x y : Int64} :
    r.decided (.point x) (.point y) = some (r.holds x y) := by
  have left : (Interval.point x).lo ≤ (Interval.point x).hi := Int64.le_refl x
  have right : (Interval.point y).lo ≤ (Interval.point y).hi := Int64.le_refl y
  refine (decidedSome left right).mpr fun u left v right => ?_
  rw [Interval.memPoint.mp left, Interval.memPoint.mp right]

theorem holdsSame {r : Relation} (x : Int64) : r.holds x x = r.accepts .eq := by
  rw [holds, compareWords, compare_eq_iff_eq.mpr rfl]

end Relation

namespace Scalar

variable {E : Type} [Encoding E] {e : E} {a b : Scalar} {c d : Int64} {rel : Relation} {t : Bool}

def Alike : Scalar → Scalar → Prop
  | bool _, bool _ => True
  | str _, str _ => True
  | a, b => a.number?.isSome = true ∧ b.number?.isSome = true

theorem Alike.kind (alike : a.Alike b) (string : b.kind = .string) : a.kind = .string := by
  cases b with
  | str t =>
    cases a with
    | str s => rfl
    | _ => exact absurd alike.2 (by simp [number?])
  | _ => cases string

theorem compareAlike (rel : Relation) (alike : a.Alike b)
    (plain : a.kind = .string → rel.isOrdering = false) :
    ∃ t, a.compare rel b = .ok t := by
  cases a with
  | str s =>
    cases b with
    | str t => exact ⟨_, if_neg (by simpa using plain rfl)⟩
    | _ => exact absurd alike.1 (by simp [number?])
  | bool p =>
    cases b with
    | bool q => exact ⟨_, rfl⟩
    | _ => exact absurd alike.1 (by simp [number?])
  | _ =>
    cases b with
    | str _ => exact absurd alike.2 (by simp [number?])
    | bool _ => exact absurd alike.2 (by simp [number?])
    | _ => exact ⟨_, rfl⟩

theorem compareStands [StableEncoding E] (injective : Injective e) (left : Stands e a c)
    (right : Stands e b d) (ok : a.compare rel b = .ok t) : rel.holds c d = t := by
  have host := compareExact (ρ := Encoding.reading e) ok
  have knows := readingKnows e
  rw [Bool.eq_iff_iff, ← host, Relation.holdsWords, left.exact _ knows, right.exact _ knows]
  cases a with
  | str s =>
    cases b with
    | str t =>
      have same : (Encoding.reading e).code s = (Encoding.reading e).code t ↔ s = t := by
        refine ⟨fun codes => ?_, fun same => same ▸ rfl⟩
        exact injective s t (left.asked s rfl) (right.asked t rfl) (Int64.toInt_inj.mp codes)
      cases rel with
      | eq => exact same
      | ne => exact not_congr same
      | _ => cases ok
    | _ => rfl
  | _ => rfl

end Scalar

namespace Model

variable {m : Model} {h : Handle} {x y : Int64}

theorem Constant.bounds (constant : m.Constant h x) : m.bounds h = .ok (.point x) := by
  obtain ⟨sign, name, found⟩ := constant
  exact boundsFound sign found rfl

theorem Constant.domain (constant : m.Constant h x) : m.domain h = .ok (.constant x) := by
  obtain ⟨sign, name, found⟩ := constant
  exact domainOk.mpr ⟨_, found, by simp [sign]⟩

theorem Constant.unique (first : m.Constant h x) (second : m.Constant h y) : x = y := by
  have same := first.bounds.symm.trans second.bounds
  cases same
  rfl

end Model

namespace Domain

variable {x : Int64} {d : Domain}

theorem constantIntersects : (constant x).intersects d = d.contains x := by
  rw [intersects, constant, List.any_cons, List.any_nil, Bool.or_false, intersectsRange, contains]
  congr 1
  funext i
  rw [Bool.eq_iff_iff, Interval.overlaps, Bool.and_eq_true, decide_eq_true_eq, decide_eq_true_eq,
    decide_eq_true_eq]
  exact Iff.rfl

theorem constantSubset : (constant x).isSubset d = d.contains x := by
  rw [isSubset, constant, List.all_cons, List.all_nil, Bool.and_true, contains]
  congr 1
  funext i
  rw [Bool.eq_iff_iff, Interval.within, Bool.and_eq_true, decide_eq_true_eq, decide_eq_true_eq,
    decide_eq_true_eq]
  exact Iff.rfl

end Domain

section Presenting

variable {E : Type} [Encoding E] {w v : Workspace E} {s : Scalar} {x : Operand}

/-- The operand is the scalar, or a variable fixed to what the scalar stands for. -/
def Workspace.Presents (w : Workspace E) (s : Scalar) : Operand → Prop
  | .scalar t => t = s
  | .var h => ∃ c, w.model.Constant h c ∧ Stands w.encoder s c

theorem Workspace.Presents.later (presents : w.Presents s x) (later : Later w v) :
    v.Presents s x := by
  cases x with
  | scalar t => exact presents
  | var h =>
    obtain ⟨c, constant, stands⟩ := presents
    exact ⟨c, constant.later later.grown.le, later.stands stands⟩

end Presenting

namespace Layer

open Model

variable {E : Type} [Encoding E] {ops : Layer} {m : Model} {w v u : Workspace E} {h l r : Handle}
  {c x y : Int64} {rel : Relation} {a b s : Scalar} {p q : Operand}

def presentItem (ops : Layer) (item : Scalar × Bool) : Operate E Operand :=
  if item.2 then return .var (← ops.toConst (.scalar item.1)) else return .scalar item.1

def present (ops : Layer) (items : List (Scalar × Bool)) : Operate E (List Operand) :=
  items.mapM ops.presentItem

theorem keepsPresentItem (item : Scalar × Bool) :
    Keeps Later (ops.presentItem item : Operate E Operand) := by
  unfold presentItem
  split
  · exact keepsBind (ops.grownKept.toConst laterCarries _) fun _ => keepsPure _
  · exact keepsPure _

theorem toConstAchieves (inside : ops.In w.model) (s : Scalar) :
    Achieves (ops.toConst (.scalar s)) w fun h v =>
      v.Presents s (.var h) ∧ v.model.constraints = w.model.constraints := by
  obtain ⟨c, v, coded, same, stands⟩ := s.codeStands w
  cases s with
  | bool t =>
    intro _
    cases coded
    refine ⟨ops.constant t, w, rfl, ⟨_, ?_, stands⟩, rfl⟩
    cases t
    · exact inside.isFalse
    · exact inside.isTrue
  | _ =>
    refine achievesAfter coded ?_
    have made : Succeeds (liftM (newConstant c) : Operate E Handle) v :=
      succeedsOnModel (newIntSucceeds (Int64.le_refl c))
    refine made.achieves fun h u ok small => ?_
    obtain ⟨ran, encoder⟩ := runOnModel.mp ok
    obtain ⟨_, extended, _⟩ := newIntOk ran
    refine ⟨⟨c, (constantOk small ran).2, encoder ▸ stands⟩, ?_⟩
    rw [extended, Model.extended, same]
    exact List.append_nil _

theorem presentItemAchieves (inside : ops.In w.model) (item : Scalar × Bool) :
    Achieves (ops.presentItem item) w fun x v => x.isSymbolic = item.2 ∧ v.Presents item.1 x ∧
      v.model.constraints = w.model.constraints := by
  obtain ⟨s, symbolic⟩ := item
  cases symbolic with
  | true =>
    refine achievesBind (fun _ => keepsPure _) (toConstAchieves inside s) fun h v made _ => ?_
    exact ⟨.var h, v, rfl, rfl, made⟩
  | false => exact fun _ => ⟨.scalar s, w, rfl, rfl, rfl, rfl⟩

theorem presentAchieves (inside : ops.In w.model) (items : List (Scalar × Bool)) :
    Achieves (ops.present items) w fun xs v =>
      List.Forall₂ (fun item x => x.isSymbolic = item.2 ∧ v.Presents item.1 x) items xs ∧
      v.model.constraints = w.model.constraints := by
  induction items generalizing w with
  | nil => exact fun _ => ⟨[], w, rfl, .nil, rfl⟩
  | cons item items ih =>
    rw [present, List.mapM_cons]
    have rest : ∀ xs, Keeps Later (do
        let ys ← items.mapM ops.presentItem
        return xs :: ys : Operate E (List Operand)) :=
      fun _ => keepsBind (keepsMapM keepsPresentItem _) fun _ => keepsPure _
    have first := (presentItemAchieves inside item).kept (keepsPresentItem item)
    refine achievesBind rest first fun x u ⟨early, symbolic, presents, kept⟩ => ?_
    have others := (ih (inside.later early.grown.le)).kept (keepsMapM keepsPresentItem items)
    refine achievesBind (fun _ => keepsPure _) others fun xs v ⟨late, all, same⟩ _ => ?_
    exact ⟨x :: xs, v, rfl, .cons ⟨symbolic, presents.later late⟩ all, same.trans kept⟩

theorem compareConstConstant (ops : Layer) (rel : Relation) (c : Int64) (left : m.Constant h x) :
    ops.compareConst rel h c m = .ok (ops.constant (rel.holds x c)) m := by
  rw [compareConst, runAfter (runAsk.mpr ⟨left.bounds, rfl⟩), Relation.decidedPoints]
  rfl

theorem compareVarsConstant (ops : Layer) (rel : Relation) (left : m.Constant l x)
    (right : m.Constant r y) :
    ops.compareVars rel l r m = .ok (ops.constant (rel.holds x y)) m := by
  rw [compareVars]
  split
  · rename_i same
    subst same
    rw [← left.unique right, Relation.holdsSame]
    rfl
  · rw [runAfter (runAsk.mpr ⟨left.bounds, rfl⟩), runAfter (runAsk.mpr ⟨right.bounds, rfl⟩),
      Relation.decidedPoints]
    rfl

theorem comparePresented (ops : Layer) (left : u.Presents a p) (right : u.Presents b q)
    (symbolic : p.isSymbolic = true ∨ q.isSymbolic = true)
    (first : a.kind = .string → rel.isOrdering = false)
    (second : b.kind = .string → rel.isOrdering = false) :
    ∃ c d v, (ops.compare rel p q : Operate E Operand) u =
        .ok (.var (ops.constant (rel.holds c d))) v ∧
      v.model = u.model ∧ Stands v.encoder a c ∧ Stands v.encoder b d := by
  cases p with
  | scalar t =>
    subst left
    cases q with
    | scalar _ => simp [Operand.isSymbolic] at symbolic
    | var r =>
      obtain ⟨d, constant, known⟩ := right
      obtain ⟨c, v, coded, later, same, stands⟩ := comparandStands first u
      have ran := ops.compareConstConstant rel.flip c (same ▸ constant)
      rw [Relation.holdsFlipped] at ran
      refine ⟨c, d, v, ?_, same, stands, later.stands known⟩
      exact runBind.mpr ⟨c, v, coded, runMap.mpr ⟨_, runOnModel.mpr ⟨ran, rfl⟩, rfl⟩⟩
  | var l =>
    obtain ⟨c, constant, known⟩ := left
    cases q with
    | scalar t =>
      subst right
      obtain ⟨d, v, coded, later, same, stands⟩ := comparandStands second u
      have ran := ops.compareConstConstant rel d (same ▸ constant)
      refine ⟨c, d, v, ?_, same, later.stands known, stands⟩
      exact runBind.mpr ⟨d, v, coded, runMap.mpr ⟨_, runOnModel.mpr ⟨ran, rfl⟩, rfl⟩⟩
    | var r =>
      obtain ⟨d, other, stands⟩ := right
      have ran := ops.compareVarsConstant rel constant other
      exact ⟨c, d, u, runMap.mpr ⟨_, runOnModel.mpr ⟨ran, rfl⟩, rfl⟩, rfl, known, stands⟩

theorem inDomainConstant (ops : Layer) (d : Domain) (constant : m.Constant h x) :
    ops.inDomain h d m = .ok (ops.constant (d.contains x)) m := by
  rw [inDomain, runAfter (runAsk.mpr ⟨constant.domain, rfl⟩), Domain.constantIntersects,
    Domain.constantSubset]
  cases d.contains x <;> rfl

theorem memberPresented (ops : Layer) (constant : u.model.Constant h c) (known : Stands u.encoder s c)
    (items : List Scalar) : ∃ cs t v,
      (ops.memberLiteral (.var h) (items.map .scalar) : Operate E Handle) u =
        .ok (ops.constant t) v ∧ v.model = u.model ∧ Stands v.encoder s c ∧
      List.Forall₂ (Stands v.encoder) items cs ∧ (t = true ↔ c ∈ cs) := by
  match items with
  | [] => exact ⟨[], false, u, rfl, rfl, known, .nil, by simp⟩
  | [item] =>
    have plain : item.kind = .string → Relation.eq.isOrdering = false := fun _ => rfl
    obtain ⟨d, v, coded, later, same, stands⟩ := comparandStands plain u
    have ran := ops.compareConstConstant .eq d (same ▸ constant)
    have compared : (ops.compare .eq (.var h) (.scalar item) : Operate E Operand) u =
        .ok (.var (ops.constant (Relation.eq.holds c d))) v :=
      runBind.mpr ⟨d, v, coded, runMap.mpr ⟨_, runOnModel.mpr ⟨ran, rfl⟩, rfl⟩⟩
    refine ⟨[d], Relation.eq.holds c d, v, ?_, same, later.stands known, .cons stands .nil, ?_⟩
    · exact runBind.mpr ⟨_, v, compared, runLift.mpr ⟨rfl, rfl⟩⟩
    · rw [Relation.holdsEqual, List.mem_singleton]
  | first :: second :: rest =>
    obtain ⟨cs, v, coded, same, stands⟩ := Scalar.codesStand (first :: second :: rest) u
    have later := keepsOk (keepsMapM keepsCode (first :: second :: rest)) coded
    have ran := ops.inDomainConstant (.ofValues cs) (same ▸ constant)
    have scalars : Operand.scalars? ((first :: second :: rest).map .scalar) =
        some (first :: second :: rest) := Operand.scalarsExact.mpr rfl
    refine ⟨cs, (Domain.ofValues cs).contains c, v, ?_, same, later.stands known, stands,
      Domain.containsExact.trans Domain.ofValuesExact⟩
    simp only [List.map_cons] at scalars ⊢
    simp only [memberLiteral, scalars]
    exact runBind.mpr ⟨cs, v, coded, runOnModel.mpr ⟨ran, rfl⟩⟩

def Decides (ops : Layer) (action : Operate E Operand) (w : Workspace E) (t : Bool) : Prop :=
  ∃ z v, action w = .ok z v ∧ v.model = w.model ∧
    (Injective v.encoder → z = .var (ops.constant t))

theorem compareDecides [StableEncoding E] (alike : a.Alike b)
    (plain : a.kind = .string → rel.isOrdering = false) (left : u.Presents a p)
    (right : u.Presents b q) (symbolic : p.isSymbolic = true ∨ q.isSymbolic = true) {t : Bool}
    (host : a.compare rel b = .ok t) : ops.Decides (ops.compare rel p q) u t := by
  have other : b.kind = .string → rel.isOrdering = false := fun kind => plain (alike.kind kind)
  obtain ⟨c, d, v, ran, same, first, second⟩ := ops.comparePresented left right symbolic plain other
  refine ⟨_, v, ran, same, fun injective => ?_⟩
  rw [Scalar.compareStands injective first second host]

theorem isInRun (ops : Layer) (s : Scalar) (items : List Scalar) :
    (ops.isIn (.scalar s) (items.map .scalar) : Operate E Operand) = do
      let found ← items.anyM fun item => s.compare .eq item
      return .scalar (.bool found) := by
  have scalars : Operand.scalars? (items.map .scalar) = some items := Operand.scalarsExact.mpr rfl
  simp only [isIn, scalars]

theorem isInScalars (ops : Layer) (w : Workspace E) {items : List Scalar}
    (alike : ∀ item ∈ items, s.Alike item) : ∃ t,
      (ops.isIn (.scalar s) (items.map .scalar) : Operate E Operand) w = .ok (.scalar (.bool t)) w ∧
      (t = true ↔ ∃ item ∈ items, s.compare .eq item = .ok true) := by
  obtain ⟨t, ran⟩ := runAnyMDecided (s := w) fun item mem =>
    Scalar.compareAlike .eq (alike item mem) fun _ => rfl
  refine ⟨t, ?_, ?_⟩
  · rw [isInRun]
    exact runMap.mpr ⟨t, ran, rfl⟩
  · obtain ⟨_, found, missing⟩ := runAnyMLift ran
    cases t with
    | true => exact iff_of_true rfl (found rfl)
    | false =>
      refine iff_of_false Bool.false_ne_true fun ⟨item, mem, same⟩ => ?_
      rw [missing rfl item mem] at same
      cases same

theorem isInDecides [StableEncoding E] (presents : u.Presents s (.var h)) {items : List Scalar}
    (alike : ∀ item ∈ items, s.Alike item) {t : Bool}
    (host : t = true ↔ ∃ item ∈ items, s.compare .eq item = .ok true) :
    ops.Decides (ops.isIn (.var h) (items.map .scalar)) u t := by
  obtain ⟨c, constant, known⟩ := presents
  obtain ⟨cs, b, v, ran, same, stands, coded, exact⟩ := ops.memberPresented constant known items
  refine ⟨.var (ops.constant b), v, runMap.mpr ⟨_, ran, rfl⟩, same, fun injective => ?_⟩
  have equal : ∀ item d, item ∈ items → Stands v.encoder item d →
      (s.compare .eq item = .ok true ↔ c = d) := fun item d mem standing => by
    obtain ⟨r, compared⟩ := Scalar.compareAlike .eq (alike item mem) fun _ => rfl
    rw [compared, Except.ok.injEq, ← Scalar.compareStands injective stands standing compared,
      Relation.holdsEqual]
  have codes : b = t := by
    rw [Bool.eq_iff_iff, exact, host]
    constructor
    · intro mem
      obtain ⟨item, listed, standing⟩ := relatedTo coded.flip mem
      exact ⟨item, listed, (equal item c listed standing).mpr rfl⟩
    · intro found
      obtain ⟨item, mem, compared⟩ := found
      obtain ⟨d, listed, standing⟩ := relatedTo coded mem
      exact (equal item d mem standing).mp compared ▸ listed
  rw [codes]

end Layer

end ConstraintAlgebra
