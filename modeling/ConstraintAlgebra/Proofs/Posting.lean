import ConstraintAlgebra.Proofs.Allocation
import ConstraintAlgebra.Proofs.Decisions

/-! What a boolean operator adds to a model: nothing, where what is known already gives an answer, or
one bit with a constraint for either value of it. Comparisons look at ranges only; membership in
several scalars looks at the whole domain, gaps included. -/
namespace ConstraintAlgebra

namespace Model

variable {m n : Model} {b : Handle}

theorem Posts.changes (posts : m.Posts n b) : n ≠ m := by
  obtain ⟨holds, fails, c, _, _, rfl⟩ := posts
  intro same
  have sizes := congrArg (·.vars.length) same
  simp at sizes

end Model

def Operand.Ranges {E : Type} [Encoding E] (w : Workspace E) : Operand → Interval → Prop
  | .var h, i => w.model.bounds h = .ok i
  | .scalar s, i => ∃ c u, s.code w = .ok c u ∧ i = .point c

namespace Layer

open Model

variable {ops : Layer} {m n : Model} {h l r b : Handle} {hs : List Handle} {rel : Relation} {c : Int64}
  {undecided : Prop}

structure Weighs (ops : Layer) (m n : Model) (b : Handle) (undecided : Prop) : Prop where
  answer : (∃ t, b = ops.constant t ∧ m = n) ∨ m.Posts n b
  exact : m.Posts n b ↔ undecided

theorem Weighs.responds (weighs : ops.Weighs m n b undecided) : ops.Responds m n hs b := by
  obtain ⟨⟨t, constant, same⟩ | posts, _⟩ := weighs
  · exact respondsConstant constant same
  · exact .inr posts

theorem weighsKnown {t : Bool} (constant : b = ops.constant t) (same : m = n)
    (decided : ¬undecided) : ops.Weighs m n b undecided :=
  ⟨.inl ⟨t, constant, same⟩, iff_of_false (fun posts => posts.changes same.symm) decided⟩

theorem weighsPosted (posts : m.Posts n b) (varies : undecided) : ops.Weighs m n b undecided :=
  ⟨.inr posts, iff_of_true posts varies⟩

theorem Weighs.congr {other : Prop} (weighs : ops.Weighs m n b undecided)
    (same : undecided ↔ other) : ops.Weighs m n b other :=
  ⟨weighs.answer, weighs.exact.trans same⟩

section Comparing

variable {i j : Interval} {t : Bool}

theorem decidedUniform (left : i.lo ≤ i.hi) (right : j.lo ≤ j.hi)
    (decided : rel.decided i j = some t) : ¬rel.Varies i j := by
  rw [← Relation.decidedNone left right, decided]
  exact nofun

theorem rangeProper (proper : m.Proper) (known : m.bounds h = .ok i) : i.lo ≤ i.hi :=
  Int64.le_iff_toInt_le.mpr (boundsOrdered proper known)

theorem compareConstWeighs (proper : m.Proper) (small : n.Small)
    (ok : ops.compareConst rel h c m = .ok b n) :
    ∃ i, m.bounds h = .ok i ∧ ops.Weighs m n b (rel.Varies i (.point c)) := by
  obtain ⟨i, known, cases⟩ := compareConstCases ok
  have left := rangeProper proper known
  refine ⟨i, known, ?_⟩
  rcases cases with ⟨t, decided, constant, same⟩ | ⟨decided, ok⟩
  · exact weighsKnown constant same (decidedUniform left (Int64.le_refl c) decided)
  · exact weighsPosted (reifyPosts small ok) (Relation.undecidedVaries left (Int64.le_refl c) decided)

theorem compareVarsWeighs (proper : m.Proper) (small : n.Small)
    (ok : ops.compareVars rel l r m = .ok b n) :
    (l = r ∧ ops.Weighs m n b False) ∨ l ≠ r ∧ ∃ i j, m.bounds l = .ok i ∧ m.bounds r = .ok j ∧
      ops.Weighs m n b (rel.Varies i j) := by
  obtain ⟨equal, constant, same⟩ | ⟨different, i, j, first, second, cases⟩ := compareVarsCases ok
  · exact .inl ⟨equal, weighsKnown constant same id⟩
  have left := rangeProper proper first
  have right := rangeProper proper second
  refine .inr ⟨different, i, j, first, second, ?_⟩
  rcases cases with ⟨t, decided, constant, same⟩ | ⟨decided, ok⟩
  · exact weighsKnown constant same (decidedUniform left right decided)
  · exact weighsPosted (reifyPosts small ok) (Relation.undecidedVaries left right decided)

end Comparing

def Sorts (ops : Layer) (m n : Model) (b : Handle) (values : Domain) (member : Int64 → Prop) : Prop :=
  ((n = m ∧ b = ops.trueVar) ∧ ∀ x ∈ values, member x) ∨
    ((n = m ∧ b = ops.falseVar) ∧ ∀ x ∈ values, ¬member x) ∨
      m.Posts n b ∧ (∃ x ∈ values, member x) ∧ ∃ x ∈ values, ¬member x

theorem inDomainSorts {d : Domain} (canonical : d.Canonical) (proper : m.Proper) (small : n.Small)
    (ok : ops.inDomain h d m = .ok b n) :
    ∃ current, m.domain h = .ok current ∧ ops.Sorts m n b current (· ∈ d) := by
  obtain ⟨current, known, cases⟩ := inDomainCases ok
  have source := domainCanonical proper known
  refine ⟨current, known, ?_⟩
  rcases cases with ⟨subset, constant, same⟩ | ⟨apart, constant, same⟩ | ⟨meets, leaves, ok⟩
  · exact .inl ⟨⟨same.symm, constant⟩, fun x mem => Domain.isSubsetExact subset mem⟩
  · refine .inr (.inl ⟨⟨same.symm, constant⟩, fun x mem shared => ?_⟩)
    rw [Domain.intersectsExact mem shared] at apart
    cases apart
  · refine .inr (.inr ⟨reifyPosts small ok, Domain.intersectsShared source canonical meets, ?_⟩)
    by_contra covered
    simp only [not_exists, not_and, not_not] at covered
    rw [Domain.isSubsetCovered source canonical covered] at leaves
    cases leaves

theorem Sorts.responds {values : Domain} {member : Int64 → Prop}
    (sorts : ops.Sorts m n b values member) : ops.Responds m n hs b := by
  rcases sorts with ⟨⟨same, constant⟩, _⟩ | ⟨⟨same, constant⟩, _⟩ | ⟨posts, _⟩
  · exact .inl ⟨same, .inl constant⟩
  · exact .inl ⟨same, .inr (.inl constant)⟩
  · exact .inr posts

theorem In.distinct (inside : ops.In m) : ops.trueVar ≠ ops.falseVar := by
  intro same
  obtain ⟨_, _, first⟩ := inside.isTrue
  obtain ⟨_, _, second⟩ := inside.isFalse
  rw [← same, first] at second
  cases second

theorem Sorts.exact {values : Domain} {member : Int64 → Prop} (inside : ops.In m)
    (inhabited : ∃ x, x ∈ values) (sorts : ops.Sorts m n b values member) :
    (n = m ∧ b = ops.trueVar ↔ ∀ x ∈ values, member x) ∧
      (n = m ∧ b = ops.falseVar ↔ ∀ x ∈ values, ¬member x) ∧
      (m.Posts n b ↔ (∃ x ∈ values, member x) ∧ ∃ x ∈ values, ¬member x) := by
  obtain ⟨x, mem⟩ := inhabited
  have apart : ¬(b = ops.trueVar ∧ b = ops.falseVar) := fun both =>
    inside.distinct (both.1.symm.trans both.2)
  rcases sorts with ⟨kept, all⟩ | ⟨kept, none⟩ | ⟨posts, ⟨y, yes, holds⟩, z, there, fails⟩
  · have unposted : ¬m.Posts n b := fun posts => posts.changes kept.1
    exact ⟨iff_of_true kept all,
      iff_of_false (fun other => apart ⟨kept.2, other.2⟩) fun none => none x mem (all x mem),
      iff_of_false unposted fun ⟨_, z, there, fails⟩ => fails (all z there)⟩
  · have unposted : ¬m.Posts n b := fun posts => posts.changes kept.1
    exact ⟨iff_of_false (fun other => apart ⟨other.2, kept.2⟩) fun all => none x mem (all x mem),
      iff_of_true kept none,
      iff_of_false unposted fun ⟨⟨y, yes, holds⟩, _⟩ => none y yes holds⟩
  · exact ⟨iff_of_false (fun kept => posts.changes kept.1) fun all => fails (all z there),
      iff_of_false (fun kept => posts.changes kept.1) fun none => none y yes holds,
      iff_of_true posts ⟨⟨y, yes, holds⟩, z, there, fails⟩⟩

section Operands

variable {E : Type} [Encoding E] {w v u : Workspace E} {x y z : Operand} {i j : Interval} {s : Scalar}

theorem comparandCode (ok : comparand rel s w = .ok c v) : s.code w = .ok c v := by
  rw [comparand] at ok
  split at ok
  · exact absurd ok runThrow
  · exact ok

theorem rangesUnique (first : x.Ranges w i) (second : x.Ranges w j) : i = j := by
  rcases x with s | h
  · obtain ⟨c, _, left, rfl⟩ := first
    obtain ⟨d, _, right, rfl⟩ := second
    rw [left] at right
    cases right
    rfl
  · exact Except.ok.inj (first.symm.trans second)

theorem Weighs.operands (different : x ≠ y) (left : x.Ranges w i) (right : y.Ranges w j)
    (weighs : ops.Weighs m n b (rel.Varies i j)) :
    ops.Weighs m n b (x ≠ y ∧ ∃ i j, x.Ranges w i ∧ y.Ranges w j ∧ rel.Varies i j) := by
  refine weighs.congr ⟨fun varies => ⟨different, i, j, left, right, varies⟩, ?_⟩
  rintro ⟨_, i', j', first, second, varies⟩
  rwa [rangesUnique left first, rangesUnique right second]

theorem compareWeighs (proper : w.model.Proper) (small : v.model.Small)
    (symbolic : x.isSymbolic = true ∨ y.isSymbolic = true) (ok : ops.compare rel x y w = .ok z v) :
    ∃ b, z = .var b ∧ ops.Weighs w.model v.model b
      (x ≠ y ∧ ∃ i j, x.Ranges w i ∧ y.Ranges w j ∧ rel.Varies i j) := by
  cases compareCases ok with
  | handles ran _ =>
    refine ⟨_, rfl, ?_⟩
    obtain ⟨rfl, weighs⟩ | ⟨different, i, j, first, second, weighs⟩ :=
      compareVarsWeighs proper small ran
    · exact weighs.congr (by simp)
    · exact weighs.operands (fun same => different (Operand.var.inj same)) first second
  | handleFirst coded _ ran =>
    obtain ⟨i, known, weighs⟩ := compareConstWeighs proper small ran
    exact ⟨_, rfl, weighs.operands nofun known ⟨_, _, comparandCode coded, rfl⟩⟩
  | scalarFirst coded _ ran =>
    obtain ⟨i, known, weighs⟩ := compareConstWeighs proper small ran
    have flipped := weighs.congr Relation.variesFlip
    exact ⟨_, rfl, flipped.operands nofun ⟨_, _, comparandCode coded, rfl⟩ known⟩
  | scalars => simp [Operand.isSymbolic] at symbolic

theorem memberScalars (hs : List Handle) {scalars : List Scalar} (proper : w.model.Proper)
    (small : v.model.Small) (ok : ops.memberLiteral (.var h) (scalars.map .scalar) w = .ok b v) :
    ops.Responds w.model v.model hs b ∧ (2 ≤ scalars.length → ∃ values codes u,
      w.model.domain h = .ok values ∧ scalars.mapM Scalar.code w = .ok codes u ∧
        ops.Sorts w.model v.model b values (· ∈ codes)) := by
  have count : (scalars.map Operand.scalar).length = scalars.length := List.length_map _
  cases memberCases ok with
  | none empty constant same =>
    rw [empty] at count
    exact ⟨respondsConstant (t := false) constant (congrArg Workspace.model same),
      fun several => by simp [← count] at several⟩
  | one single ran =>
    rw [single] at count
    obtain ⟨z, compared, literal⟩ := equalLiteralOk ran
    obtain ⟨c, rfl, weighs⟩ := compareWeighs proper small (.inl rfl) compared
    cases literal
    exact ⟨weighs.responds, fun several => by simp [← count] at several⟩
  | @codes _ ss codes u left same coded _ ran =>
    cases left
    cases List.map_injective_iff.mpr (fun _ _ => Operand.scalar.inj) same
    have canonical : (Domain.ofValues codes).Canonical := Domain.ofIntervalsCanonical _
    obtain ⟨values, known, sorts⟩ := inDomainSorts canonical proper small ran
    simp only [Domain.ofValuesExact] at sorts
    exact ⟨sorts.responds, fun _ => ⟨values, codes, u, known, coded, sorts⟩⟩
  | each _ mixed => exact absurd rfl (mixed h scalars rfl)

end Operands

end Layer

namespace OperatorCall

def AmongScalars : OperatorCall → Handle → List Scalar → Prop
  | inIntegers g set, h, scalars => g = h ∧ scalars = set.map .long
  | inStrings g set, h, scalars => g = h ∧ scalars = set.map .str
  | isIn x items, h, scalars => x = .var h ∧ items = scalars.map .scalar
  | _, _, _ => False

def Indicates : OperatorCall → Prop
  | compare _ x y => x.isSymbolic = true ∨ y.isSymbolic = true
  | connect _ x y => x.isSymbolic = true ∨ y.isSymbolic = true
  | not x => x.isSymbolic = true
  | anyTrue _ => True
  | call => ∃ h scalars, call.AmongScalars h scalars

variable {E : Type} [Encoding E] {w v : Workspace E} {ops : Layer} {call : OperatorCall}
  {reply : Reply} {h : Handle} {scalars : List Scalar}

theorem AmongScalars.member (among : call.AmongScalars h scalars)
    (ok : call.perform ops w = .ok reply v) :
    ∃ b, reply = .var b ∧ ops.memberLiteral (.var h) (scalars.map .scalar) w = .ok b v := by
  cases call with (simp only [perform, runMap] at ok; obtain ⟨z, ok, rfl⟩ := ok)
  | inIntegers g set =>
    obtain ⟨rfl, rfl⟩ := among
    exact ⟨z, rfl, by rwa [List.map_map]⟩
  | inStrings g set =>
    obtain ⟨rfl, rfl⟩ := among
    exact ⟨z, rfl, by rwa [List.map_map]⟩
  | isIn x items =>
    obtain ⟨rfl, rfl⟩ := among
    simp only [Layer.isIn, runMap] at ok
    obtain ⟨b, ok, rfl⟩ := ok
    exact ⟨b, rfl, ok⟩
  | _ => exact among.elim

theorem performResponds (indicates : call.Indicates) (proper : w.model.Proper)
    (small : v.model.Small) (ok : call.perform ops w = .ok reply v) :
    ∃ b, reply = .var b ∧ ops.Responds w.model v.model call.handles b := by
  have performed := ok
  cases call with (simp only [perform, runMap] at ok; obtain ⟨z, ok, rfl⟩ := ok)
  | compare rel x y =>
    obtain ⟨b, rfl, weighs⟩ := Layer.compareWeighs proper small indicates ok
    exact ⟨b, rfl, weighs.responds⟩
  | connect c x y =>
    obtain ⟨_, _, _, rfl, rfl, _⟩ | ⟨b, rfl, responds⟩ :=
      Layer.connectResponds small (runOnModel.mp ok).1
    · simp [Operand.isSymbolic, Indicates] at indicates
    · exact ⟨b, rfl, responds⟩
  | not x =>
    obtain ⟨_, _, rfl, _⟩ | ⟨b, rfl, responds⟩ := Layer.notResponds small (runOnModel.mp ok).1
    · cases indicates
    · exact ⟨b, rfl, responds⟩
  | anyTrue lits => exact ⟨z, rfl, Layer.anyTrueResponds small (runOnModel.mp ok).1⟩
  | _ =>
    obtain ⟨h, scalars, among⟩ := indicates
    obtain ⟨b, same, ran⟩ := among.member performed
    exact ⟨b, same, (Layer.memberScalars _ proper small ran).1⟩

end OperatorCall

namespace Session

variable {E : Type} [Encoding E] {ops : Layer} {e : E} {t : Session E}

/-- A boolean operator on variables either keeps the model and gives a constant of the layer, an
operand or the complement of one, or posts one bit. A comparison posts one exactly when its operands
are not the same handle and their ranges leave the relation open; membership in several scalars
exactly when some values that the variable can have are among the codes and some are not. -/
theorem bitsPosted (calls : List (Call E)) (place : Nat) (call : OperatorCall) {reply : Reply}
    (built : ∀ c ∈ calls, c.Built) (indicates : call.Indicates)
    (found : (start.run calls).layers[place]? = some (ops, e))
    (replied : (start.run calls).step (.operator place call) = (.ok reply, t))
    (small : t.model.Small) :
    let m := (start.run calls).model
    let w : Workspace E := ⟨m, e⟩
    ∃ b, reply = .var b ∧
      ((t.model = m ∧
        (b = ops.trueVar ∨ b = ops.falseVar ∨ ∃ h ∈ call.handles, b = h ∨ h.negate = .ok b)) ∨
        m.Posts t.model b) ∧
      (∀ rel x y, call = .compare rel x y → (m.Posts t.model b ↔
        x ≠ y ∧ ∃ i j, x.Ranges w i ∧ y.Ranges w j ∧ rel.Varies i j)) ∧
      ∀ h scalars, call.AmongScalars h scalars → 2 ≤ scalars.length → ∃ values codes u,
        m.domain h = .ok values ∧ scalars.mapM Scalar.code w = .ok codes u ∧
        (t.model = m ∧ b = ops.trueVar ↔ ∀ x ∈ values, x ∈ codes) ∧
        (t.model = m ∧ b = ops.falseVar ↔ ∀ x ∈ values, x ∉ codes) ∧
        (m.Posts t.model b ↔ (∃ x ∈ values, x ∈ codes) ∧ ∃ x ∈ values, x ∉ codes) := by
  intro m w
  have sound := runSound built startSound
  obtain ⟨v, ok, rfl⟩ := operateOk found replied
  have grown := (keepsOk (keepsPerform ops call) ok).grown
  have inside := sound.layers (Model.smallOfLe grown.le small) _ (List.mem_of_getElem? found)
  obtain ⟨b, rfl, responds⟩ := call.performResponds indicates sound.proper small ok
  refine ⟨b, rfl, responds, ?_, ?_⟩
  · rintro rel x y rfl
    simp only [OperatorCall.perform, runMap] at ok
    obtain ⟨_, ok, same⟩ := ok
    obtain ⟨c, rfl, weighs⟩ := Layer.compareWeighs sound.proper small indicates ok
    cases same
    exact weighs.exact
  · intro h scalars among several
    obtain ⟨c, same, ran⟩ := among.member ok
    cases same
    obtain ⟨values, codes, u, known, coded, sorts⟩ :=
      (Layer.memberScalars [] sound.proper small ran).2 several
    exact ⟨values, codes, u, known, coded,
      sorts.exact inside (Model.domainInhabited sound.proper known)⟩

theorem bitsPostedOnce :
    let x : Handle := ⟨3, by decide⟩
    let calls : List (Call Dictionary) :=
      [.layer .standard .empty, .model (.withDomain (.ofValues [0, 2, 5]) "x")]
    let call : OperatorCall := .inIntegers x [0, 2]
    let s : Session Dictionary := start.run calls
    let t := (s.step (.operator 0 call)).2
    t.model.Small ∧ s.model.Posts t.model ⟨4, by decide⟩ := by
  intro x calls call s t
  have small : t.model.Small := by decide
  have built : ∀ c ∈ calls, c.Built := by
    simpa [calls, Call.Built] using Domain.Built.values [0, 2, 5]
  have opened : s.layers[0]? = some (⟨⟨1, by decide⟩, ⟨2, by decide⟩, .standard⟩, .empty) := rfl
  have among : call.AmongScalars x [.long 0, .long 2] := ⟨rfl, rfl⟩
  obtain ⟨b, same, responds, _⟩ := bitsPosted calls 0 call built ⟨x, _, among⟩ opened rfl small
  cases same
  rcases responds with ⟨kept, _⟩ | posts
  · exact absurd kept (by decide)
  · exact ⟨small, posts⟩

end Session

end ConstraintAlgebra
