import ConstraintAlgebra.Proofs.Growth
import ConstraintAlgebra.Proofs.Literals

/-! Operators on operands of every kind: comparing, and membership of a list. A string beside a
variable stands for its code, so results are exact for readings that agree with the codes given. -/
namespace ConstraintAlgebra

def Operand.handles : Operand → List Handle
  | scalar _ => []
  | var h => [h]

def OperatorCall.handles : OperatorCall → List Handle
  | encode _ => []
  | toConst x => x.handles
  | compare _ x y => x.handles ++ y.handles
  | plus x y => x.handles ++ y.handles
  | minus x y => x.handles ++ y.handles
  | mult x y => x.handles ++ y.handles
  | div x y => x.handles ++ y.handles
  | sum items => items.flatMap Operand.handles
  | scaledSum vars _ => vars
  | extreme _ items => items.flatMap Operand.handles
  | increasing vars => vars
  | connect _ x y => x.handles ++ y.handles
  | not x => x.handles
  | anyTrue lits => lits
  | isIn x items => x.handles ++ items.flatMap Operand.handles
  | inIntegers h _ => [h]
  | inStrings h _ => [h]
  | inVars h set => h :: set

variable {E : Type} [Encoding E] {w v u : Workspace E} {ρ : Reading} {Q R : Reading → Prop}

def Workspace.Settled (w v : Workspace E) (Q : Reading → Prop) : Prop :=
  Model.Settled w.model v.model fun ρ => ρ.Knows v.encoder → Q ρ

theorem Workspace.Settled.imp (first : w.Settled v Q) (imp : ∀ ρ, Q ρ → R ρ) : w.Settled v R :=
  Model.Settled.imp first fun _ _ _ _ exact knows => imp _ (exact knows)

theorem Workspace.Settled.trans (first : w.Settled v Q) (second : v.Settled u R)
    (later : Later v u) : w.Settled u fun ρ => Q ρ ∧ R ρ := by
  obtain ⟨ss, asked⟩ := later.asked
  refine (Model.Settled.trans first second).imp fun a ρ _ _ both knows => ?_
  exact ⟨both.1 (asked ▸ knows).before, both.2 knows⟩

theorem Workspace.settledOnModel {α : Type} {action : Build α} {b : α}
    (ok : (liftM action : Operate E α) w = .ok b v)
    (settled : action w.model = .ok b v.model → Model.Settled w.model v.model Q) : w.Settled v Q :=
  (settled (runOnModel.mp ok).1).imp fun _ _ _ _ exact _ => exact

theorem Workspace.settledPure (proper : w.model.Proper)
    (exact : ∀ a ρ, w.model.Solution a → ρ.Reads a → ρ.Knows w.encoder → Q ρ) : w.Settled w Q :=
  Model.settledSame proper exact

namespace Scalar

variable {s t : Scalar} {c : Int64}

theorem compareExact {rel : Relation} {b : Bool} (ok : s.compare rel t = .ok b) :
    rel.Between ρ (.scalar s) (.scalar t) ↔ b = true := by
  unfold compare at ok
  split at ok
  · rename_i m n left right
    cases ok
    rw [Relation.holdsWords, ← numberDenote left (ρ := ρ), ← numberDenote right (ρ := ρ)]
    cases s <;> cases left <;> rfl
  · split at ok
    · cases ok
      exact Relation.holdsTruths.symm
    · split at ok
      · contradiction
      · rename_i plain
        cases ok
        exact (Relation.holdsStrings (by simpa using plain)).symm
    · contradiction

theorem codeExact (ok : s.code w = .ok c v) :
    v.model = w.model ∧ ∀ ρ : Reading, ρ.Knows v.encoder → c.toInt = s.denote ρ := by
  cases s with
  | int n =>
    obtain ⟨rfl, rfl⟩ := runPure.mp ok
    exact ⟨rfl, fun _ _ => Int32.toInt_toInt64 n⟩
  | long n =>
    obtain ⟨rfl, rfl⟩ := runPure.mp ok
    exact ⟨rfl, fun _ _ => rfl⟩
  | bool b =>
    obtain ⟨rfl, rfl⟩ := runPure.mp ok
    cases b <;> exact ⟨rfl, fun _ _ => rfl⟩
  | str s =>
    cases ok
    exact ⟨rfl, fun _ knows => knows.answer.symm⟩

theorem codesExact {ss : List Scalar} {cs : List Int64} (ok : ss.mapM code w = .ok cs v) :
    v.model = w.model ∧ ∀ ρ : Reading, ρ.Knows v.encoder →
      List.Forall₂ (fun s c => c.toInt = s.denote ρ) ss cs := by
  induction ss generalizing w cs with
  | nil =>
    obtain ⟨rfl, rfl⟩ := runPure.mp ok
    exact ⟨rfl, fun _ _ => .nil⟩
  | cons s ss ih =>
    simp only [List.mapM_cons, runBind, runPure] at ok
    obtain ⟨c, w₁, first, cs, _, rest, rfl, rfl⟩ := ok
    obtain ⟨same, exact⟩ := codeExact first
    obtain ⟨others, tail⟩ := ih rest
    obtain ⟨ts, asked⟩ := (keepsOk (keepsMapM keepsCode ss) rest).asked
    exact ⟨others.trans same, fun ρ knows => .cons (exact ρ (asked ▸ knows).before) (tail ρ knows)⟩

end Scalar

theorem Operand.scalarsExact {xs : List Operand} {ss : List Scalar} :
    Operand.scalars? xs = some ss ↔ xs = ss.map .scalar := by
  induction xs generalizing ss with
  | nil => cases ss <;> simp [scalars?]
  | cons x xs ih =>
    rw [scalars?, List.mapM_cons]
    rcases x with s | h
    · simp only [scalar?, Option.bind_eq_bind, Option.bind_some, Option.bind_eq_some_iff]
      cases ss <;> simp [← ih, scalars?, and_comm]
    · cases ss <;> simp [scalar?]

namespace Layer

open Model

variable {ops : Layer} {x y z : Operand} {b h : Handle} {m n : Model} {rel : Relation}

theorem comparandExact {s : Scalar} {c : Int64} (ok : comparand rel s w = .ok c v) :
    v.model = w.model ∧ ∀ ρ : Reading, ρ.Knows v.encoder → c.toInt = s.denote ρ := by
  rw [comparand] at ok
  split at ok
  · exact absurd ok runThrow
  · exact Scalar.codeExact ok

inductive Compared (ops : Layer) (rel : Relation) (w v : Workspace E) :
    Operand → Operand → Operand → Prop where
  | handles {l r b : Handle} (ran : ops.compareVars rel l r w.model = .ok b v.model)
      (encoder : w.encoder = v.encoder) : Compared ops rel w v (.var l) (.var r) (.var b)
  | handleFirst {h b : Handle} {s : Scalar} {c : Int64} {u : Workspace E}
      (coded : comparand rel s w = .ok c u) (encoder : u.encoder = v.encoder)
      (ran : ops.compareConst rel h c w.model = .ok b v.model) :
      Compared ops rel w v (.var h) (.scalar s) (.var b)
  | scalarFirst {h b : Handle} {s : Scalar} {c : Int64} {u : Workspace E}
      (coded : comparand rel s w = .ok c u) (encoder : u.encoder = v.encoder)
      (ran : ops.compareConst rel.flip h c w.model = .ok b v.model) :
      Compared ops rel w v (.scalar s) (.var h) (.var b)
  | scalars {s t : Scalar} {k : Bool} (decided : s.compare rel t = .ok k) (same : w = v) :
      Compared ops rel w v (.scalar s) (.scalar t) (.scalar (.bool k))

theorem compareCases (ok : ops.compare rel x y w = .ok z v) : ops.Compared rel w v x y z := by
  unfold compare at ok
  split at ok
  · simp only [runBind, runPure] at ok
    obtain ⟨b, _, ok, rfl, rfl⟩ := ok
    obtain ⟨ran, encoder⟩ := runOnModel.mp ok
    exact .handles ran encoder
  · simp only [runBind, runPure] at ok
    obtain ⟨c, u, coded, b, _, ok, rfl, rfl⟩ := ok
    obtain ⟨ran, encoder⟩ := runOnModel.mp ok
    exact .handleFirst coded encoder ((comparandExact coded).1 ▸ ran)
  · simp only [runBind, runPure] at ok
    obtain ⟨c, u, coded, b, _, ok, rfl, rfl⟩ := ok
    obtain ⟨ran, encoder⟩ := runOnModel.mp ok
    exact .scalarFirst coded encoder ((comparandExact coded).1 ▸ ran)
  · simp only [runBind, runLift, runPure] at ok
    obtain ⟨k, _, ⟨decided, rfl⟩, rfl, rfl⟩ := ok
    exact .scalars decided rfl

theorem compareSettled (proper : w.model.Proper) (inside : ops.In w.model) (small : v.model.Small)
    (ok : ops.compare rel x y w = .ok z v) :
    w.Settled v fun ρ => Marks (z.denote ρ) (rel.Between ρ x y) := by
  cases compareCases ok with
  | handles ran encoder =>
    exact Workspace.settledOnModel (runOnModel.mpr ⟨ran, encoder⟩)
      (compareVarsSettled proper inside small)
  | handleFirst coded encoder ran =>
    refine (compareConstSettled proper inside small ran).imp fun a ρ _ _ marks knows => ?_
    rwa [(comparandExact coded).2 _ (encoder ▸ knows)] at marks
  | scalarFirst coded encoder ran =>
    refine (compareConstSettled proper inside small ran).imp fun a ρ _ _ marks knows => ?_
    rw [(comparandExact coded).2 _ (encoder ▸ knows)] at marks
    exact (marksCongr (Relation.holdsFlip.trans Relation.betweenRight.symm)).mp marks
  | scalars decided same =>
    subst same
    exact Workspace.settledPure proper fun a ρ _ _ _ => marksTruth (Scalar.compareExact decided)

theorem literalExact {ops : Layer} (inside : ops.In m) {a : Assignment} (solution : m.Solution a)
    (reads : ρ.Reads a) (ok : ops.literal z = .ok b) : z.denote ρ = ρ.value b := by
  rcases z with s | h
  · cases s with
    | bool t =>
      cases ok
      exact (inside.value solution reads t).symm
    | _ => contradiction
  · cases ok
    rfl

theorem equalLiteralOk (ok : ops.equalLiteral x y w = .ok b v) :
    ∃ z, ops.compare .eq x y w = .ok z v ∧ ops.literal z = .ok b := by
  simp only [equalLiteral, runBind, runLift] at ok
  obtain ⟨z, _, compared, literal, rfl⟩ := ok
  exact ⟨z, compared, literal⟩

theorem equalLiteralSettled (proper : w.model.Proper) (inside : ops.In w.model)
    (small : v.model.Small) (ok : ops.equalLiteral x y w = .ok b v) :
    w.Settled v fun ρ => Marks (ρ.value b) (Relation.eq.Between ρ x y) := by
  obtain ⟨z, compared, literal⟩ := equalLiteralOk ok
  have settled := compareSettled proper inside small compared
  refine Model.Settled.imp settled fun a ρ solution reads marks knows => ?_
  change Marks (ρ.value b) _
  rw [← literalExact (inside.later settled.le) solution reads literal]
  exact marks knows

theorem mapMSettled {α β : Type} {f : α → Operate E β} {P : Reading → α → β → Prop} {xs : List α}
    {ys : List β} (keeps : ∀ x, Keeps Later (f x))
    (each : ∀ x w y v, f x w = .ok y v → w.model.Proper → ops.In w.model → v.model.Small →
      w.Settled v fun ρ => P ρ x y)
    (proper : w.model.Proper) (inside : ops.In w.model) (small : v.model.Small)
    (ok : xs.mapM f w = .ok ys v) : w.Settled v fun ρ => List.Forall₂ (P ρ) xs ys := by
  induction xs generalizing w ys with
  | nil =>
    obtain ⟨rfl, rfl⟩ := runPure.mp ok
    exact Workspace.settledPure proper fun _ _ _ _ _ => .nil
  | cons x xs ih =>
    simp only [List.mapM_cons, runBind, runPure] at ok
    obtain ⟨y, w₁, first, ys, _, rest, rfl, rfl⟩ := ok
    have later := keepsOk (keepsMapM keeps xs) rest
    have head := each x w y w₁ first proper inside (smallOfLe later.grown.le small)
    have tail := ih head.proper (inside.later head.le) rest
    exact (head.trans tail later).imp fun ρ both => .cons both.1 both.2

theorem inDomainCases {d : Domain} (ok : ops.inDomain h d m = .ok b n) :
    ∃ current, m.domain h = .ok current ∧
      ((current.isSubset d = true ∧ b = ops.constant true ∧ m = n) ∨
        (current.intersects d = false ∧ b = ops.constant false ∧ m = n) ∨
        current.intersects d = true ∧ current.isSubset d = false ∧
          reify (.inside h d) (.inside h d.complement) m = .ok b n) := by
  simp only [inDomain, runBind, runAsk] at ok
  obtain ⟨current, _, ⟨known, rfl⟩, ok⟩ := ok
  refine ⟨current, known, ?_⟩
  split at ok
  · rename_i meets
    split at ok
    · rename_i subset
      obtain ⟨rfl, rfl⟩ := runPure.mp ok
      exact .inl ⟨subset, rfl, rfl⟩
    · rename_i leaves
      exact .inr (.inr ⟨meets, Bool.eq_false_iff.mpr leaves, ok⟩)
  · rename_i apart
    obtain ⟨rfl, rfl⟩ := runPure.mp ok
    exact .inr (.inl ⟨Bool.eq_false_iff.mpr apart, rfl, rfl⟩)

theorem inDomainSettled {d : Domain} (canonical : d.Canonical) (proper : m.Proper)
    (inside : ops.In m) (small : n.Small) (ok : ops.inDomain h d m = .ok b n) :
    Model.Settled m n fun ρ => Marks (ρ.value b) (∃ c ∈ d, ρ.value h = c.toInt) := by
  have member : ∀ {a : Assignment} {ρ : Reading} {x : Int64}, ρ.Reads a → a.value h = .ok x →
      ((∃ c ∈ d, ρ.value h = c.toInt) ↔ x ∈ d) := fun reads value => by
    rw [reads _ _ value]
    exact ⟨fun ⟨c, mem, same⟩ => Int64.toInt_inj.mp same ▸ mem, fun mem => ⟨_, mem, rfl⟩⟩
  obtain ⟨current, known, ⟨subset, rfl, rfl⟩ | ⟨apart, rfl, rfl⟩ | ⟨_, _, ok⟩⟩ := inDomainCases ok
  · refine inside.settled (t := true) proper fun a ρ admits reads => ?_
    obtain ⟨x, found, mem⟩ := domainExact admits known
    exact iff_of_true ((member reads found).mpr (Domain.isSubsetExact subset mem)) rfl
  · refine inside.settled (t := false) proper fun a ρ admits reads => ?_
    obtain ⟨x, found, mem⟩ := domainExact admits known
    refine iff_of_false (fun listed => ?_) Bool.false_ne_true
    rw [Domain.intersectsExact mem ((member reads found).mp listed)] at apart
    cases apart
  · refine reifySettled proper small ok fun a admits => ?_
    obtain ⟨x, found, _⟩ := domainExact admits known
    refine ⟨d.contains x, fun y => insideHolds (pushValue found), fun y => ?_,
      fun ρ reads => (member reads found).trans Domain.containsExact.symm⟩
    rw [insideHolds (pushValue found), Except.ok.injEq, Bool.eq_iff_iff, Domain.containsExact,
      Domain.complementExact canonical, Bool.not_eq_true', ← Bool.not_eq_true,
      Domain.containsExact]

theorem memberCodes {ss : List Scalar} {cs : List Int64}
    (coded : List.Forall₂ (fun s c => c.toInt = s.denote ρ) ss cs) :
    (∃ c ∈ Domain.ofValues cs, ρ.value h = c.toInt) ↔
      ∃ item ∈ ss.map Operand.scalar, Relation.eq.Between ρ (.var h) item := by
  simp only [Domain.ofValuesExact]
  induction coded with
  | nil => simp
  | cons first rest ih =>
    simp only [List.map_cons, List.exists_mem_cons_iff, ih, first]
    rfl

theorem memberMarks {α : Type} {items : List α} {lits : List Handle} {P : α → Prop}
    (each : List.Forall₂ (fun item lit => Marks (ρ.value lit) (P item)) items lits) :
    (∃ lit ∈ lits, ρ.value lit = 1) ↔ ∃ item ∈ items, P item := by
  induction each with
  | nil => simp
  | cons first rest ih =>
    rw [List.exists_mem_cons_iff, List.exists_mem_cons_iff, ih]
    exact or_congr_left (marksOne first)

inductive Sought (ops : Layer) (w v : Workspace E) (x : Operand) (items : List Operand)
    (b : Handle) : Prop where
  | none (empty : items = []) (constant : b = ops.falseVar) (same : w = v)
  | one {item : Operand} (single : items = [item]) (ran : ops.equalLiteral x item w = .ok b v)
  | codes {h : Handle} {ss : List Scalar} {cs : List Int64} {u : Workspace E} (left : x = .var h)
      (scalars : items = ss.map .scalar) (coded : ss.mapM Scalar.code w = .ok cs u)
      (encoder : u.encoder = v.encoder)
      (ran : ops.inDomain h (.ofValues cs) w.model = .ok b v.model)
  | each {lits : List Handle} {u : Workspace E} (several : 2 ≤ items.length)
      (mixed : ∀ (h : Handle) (ss : List Scalar), x = .var h → items ≠ ss.map .scalar)
      (compared : items.mapM (ops.equalLiteral x) w = .ok lits u)
      (encoder : u.encoder = v.encoder) (ran : ops.anyTrue lits u.model = .ok b v.model)

theorem memberCases {items : List Operand} (ok : ops.memberLiteral x items w = .ok b v) :
    ops.Sought w v x items b := by
  unfold memberLiteral at ok
  split at ok
  · obtain ⟨constant, same⟩ := runPure.mp ok
    exact .none rfl constant.symm same
  · exact .one rfl ok
  rename_i none one
  have several : 2 ≤ items.length := by
    rcases items with _ | ⟨item, _ | ⟨next, rest⟩⟩
    · exact absurd rfl none
    · exact absurd rfl (one item)
    · simp
  generalize split : Operand.scalars? items = scalars at ok
  split at ok
  · simp only [runBind] at ok
    obtain ⟨cs, u, coded, ok⟩ := ok
    obtain ⟨ran, encoder⟩ := runOnModel.mp ok
    exact .codes rfl (Operand.scalarsExact.mp split) coded encoder
      ((Scalar.codesExact coded).1 ▸ ran)
  · rename_i mixed
    simp only [runBind] at ok
    obtain ⟨lits, u, compared, ok⟩ := ok
    obtain ⟨ran, encoder⟩ := runOnModel.mp ok
    refine .each several (fun h ss left same => ?_) compared encoder ran
    exact mixed h ss left (split.symm.trans (Operand.scalarsExact.mpr same))

theorem memberLiteralSettled {items : List Operand} (proper : w.model.Proper)
    (inside : ops.In w.model) (small : v.model.Small)
    (ok : ops.memberLiteral x items w = .ok b v) :
    w.Settled v fun ρ => Marks (ρ.value b) (∃ item ∈ items, Relation.eq.Between ρ x item) := by
  cases memberCases ok with
  | none empty constant same =>
    subst empty constant same
    exact Workspace.settledPure proper fun a ρ solution reads _ =>
      inside.marks (b := false) solution reads (by simp)
  | one single ran =>
    subst single
    exact (equalLiteralSettled proper inside small ran).imp fun ρ marks =>
      (marksCongr (by simp)).mp marks
  | codes left scalars coded encoder ran =>
    subst left scalars
    refine (inDomainSettled (Domain.ofIntervalsCanonical _) proper inside small ran).imp
      fun a ρ _ _ marks knows => (marksCongr ?_).mp marks
    exact memberCodes ((Scalar.codesExact coded).2 _ (encoder ▸ knows))
  | @each lits u _ _ compared encoder ran =>
    have ok := runOnModel.mpr ⟨ran, encoder⟩
    have later := keepsOk (keepsOnModel (ops.keepsAnyTrue lits)) ok
    have each := mapMSettled (keepsEqualLiteral ops x)
      (fun item w lit v ok proper inside small => equalLiteralSettled proper inside small ok)
      proper inside (smallOfLe later.grown.le small) compared
    have any := Workspace.settledOnModel ok
      (anyTrueSettled each.proper (inside.later each.le) small)
    exact (each.trans any later).imp fun ρ both => (marksCongr (memberMarks both.1)).mp both.2

theorem isInCases {items : List Operand} (ok : ops.isIn x items w = .ok z v) :
    (∃ (s : Scalar) (ss : List Scalar) (t : Bool), x = .scalar s ∧ items = ss.map .scalar ∧
        z = .scalar (.bool t) ∧
        (ss.anyM fun item => (s.compare .eq item : Operate E Bool)) w = .ok t v) ∨
      ∃ b, z = .var b ∧ ops.memberLiteral x items w = .ok b v := by
  unfold isIn at ok
  generalize split : Operand.scalars? items = scalars at ok
  split at ok
  · simp only [runMap] at ok
    obtain ⟨t, compared, rfl⟩ := ok
    exact .inl ⟨_, _, t, rfl, Operand.scalarsExact.mp split, rfl, compared⟩
  · simp only [runMap] at ok
    obtain ⟨b, ran, rfl⟩ := ok
    exact .inr ⟨b, rfl, ran⟩

theorem isInSettled {items : List Operand} (proper : w.model.Proper)
    (inside : ops.In w.model) (small : v.model.Small) (ok : ops.isIn x items w = .ok z v) :
    w.Settled v fun ρ => Marks (z.denote ρ) (∃ item ∈ items, Relation.eq.Between ρ x item) := by
  obtain ⟨s, ss, t, rfl, rfl, rfl, compared⟩ | ⟨b, rfl, ran⟩ := isInCases ok
  · obtain ⟨rfl, found, missing⟩ := runAnyMLift compared
    refine Workspace.settledPure proper fun a ρ _ _ _ => marksTruth ?_
    cases t with
    | true =>
      obtain ⟨item, mem, same⟩ := found rfl
      exact iff_of_true ⟨_, List.mem_map_of_mem mem, (Scalar.compareExact same).mpr rfl⟩ rfl
    | false =>
      refine iff_of_false ?_ Bool.false_ne_true
      rintro ⟨_, mem, equal⟩
      obtain ⟨item, listed, rfl⟩ := List.mem_map.mp mem
      exact Bool.false_ne_true ((Scalar.compareExact (missing rfl item listed)).mp equal)
  · exact memberLiteralSettled proper inside small ran

theorem toConstSettled (proper : w.model.Proper) (inside : ops.In w.model) (small : v.model.Small)
    (ok : ops.toConst x w = .ok h v) : w.Settled v fun ρ => ρ.value h = x.denote ρ := by
  unfold toConst at ok
  split at ok
  · obtain ⟨rfl, rfl⟩ := runPure.mp ok
    exact Workspace.settledPure proper fun _ _ _ _ _ => rfl
  · obtain ⟨rfl, rfl⟩ := runPure.mp ok
    exact Workspace.settledPure proper fun a ρ solution reads _ => inside.value solution reads _
  · simp only [runBind] at ok
    obtain ⟨c, w₁, coded, ok⟩ := ok
    have same := (Scalar.codeExact coded).1
    obtain ⟨ok, encoder⟩ := runOnModel.mp ok
    rw [same] at ok
    refine (newConstantSettled proper small ok).imp fun a ρ _ _ value knows => ?_
    rw [← encoder] at knows
    exact value.trans ((Scalar.codeExact coded).2 _ knows)

end Layer

end ConstraintAlgebra
