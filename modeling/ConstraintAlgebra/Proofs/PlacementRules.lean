import ConstraintAlgebra.Placement
import ConstraintAlgebra.Proofs.Success

/-! What the parts of a placement model impose on the roles of the hosts and on the hosts of the
tasks. Each part defines a literal for its rule and then requires it, so exactly the solutions that
follow the rule are left, each of them once. -/
namespace ConstraintAlgebra

open Model

def Assignment.number (a : Assignment) (h : Handle) : Int :=
  (a.reading (fun _ => 0) (fun _ => 0)).value h

theorem numberRestrict {a : Assignment} {h : Handle} {n : Nat} (inside : h.index < n) :
    (a.restrict n).number h = a.number h := by
  simp only [Assignment.number, Assignment.reading, restrictValue inside]

namespace Placement

variable {ops : Layer} {p : Plan} {m n k : Model} {w v u : Workspace Dictionary} {a : Assignment}
  {rule other : List Int → List Int → Prop} {z : Operand} {b : Handle}

def Plan.handles (p : Plan) : List Handle := p.roles ++ p.tasks

theorem viewRestrict (owned : ∀ h ∈ p.handles, m.Owns h) (a : Assignment) :
    p.roles.map (a.restrict m.vars.length).number = p.roles.map a.number ∧
      p.tasks.map (a.restrict m.vars.length).number = p.tasks.map a.number := by
  obtain ⟨roles, tasks⟩ := List.forall_mem_append.mp owned
  exact ⟨List.map_congr_left fun h mem => numberRestrict (roles h mem),
    List.map_congr_left fun h mem => numberRestrict (tasks h mem)⟩

structure Imposed (p : Plan) (m n : Model) (rule : List Int → List Int → Prop) : Prop where
  proper : n.Proper
  evaluates : m.Evaluates → n.Evaluates
  refined : m.Refined n fun a => rule (p.roles.map a.number) (p.tasks.map a.number)

theorem imposedNothing (proper : m.Proper)
    (free : ∀ value : Handle → Int, rule (p.roles.map value) (p.tasks.map value)) :
    Imposed p m m rule where
  proper := proper
  evaluates := id
  refined := by
    have same := conservativeRefl m
    rw [Conservative] at same
    simpa only [free] using same

theorem Imposed.trans (first : Imposed p m n rule) (second : Imposed p n k other)
    (owned : ∀ h ∈ p.handles, m.Owns h) :
    Imposed p m k fun roles tasks => rule roles tasks ∧ other roles tasks where
  proper := second.proper
  evaluates := second.evaluates ∘ first.evaluates
  refined := by
    refine first.refined.trans first.proper second.refined (fun a _ => ?_) fun _ _ => And.left
    obtain ⟨roles, tasks⟩ := viewRestrict owned a
    rw [roles, tasks]

theorem Imposed.congr (imposed : Imposed p m n rule)
    (same : ∀ roles tasks, rule roles tasks ↔ other roles tasks) : Imposed p m n other := by
  have equal : rule = other := funext₂ fun roles tasks => propext (same roles tasks)
  exact equal ▸ imposed

def Requirable (ops : Layer) (m : Model) (z : Operand) : Prop :=
  ∃ b, ops.literal z = .ok b ∧ m.Literal b

theorem keepsRequire (ops : Layer) (z : Operand) : Keeps Later (require ops z) :=
  keepsBind (keepsLift _) fun _ => keepsOnModel (keepsPost _ _)

def truthConstraint (b : Handle) : Posted := ⟨.compare b .eq (.const 1), none⟩

theorem requireSucceeds (requirable : Requirable ops w.model z) : Succeeds (require ops z) w := by
  obtain ⟨b, literal, bit⟩ := requirable
  refine succeedsAfter (runLift.mpr ⟨literal, rfl⟩) (succeedsOnModel (succeedsOk (postOwned ?_ ?_)))
  · simpa [Constraint.handles, Term.handles] using bit.ranged.owned
  · simp

theorem requireOk {t : Unit} (ok : require ops z w = .ok t v) : ∃ b, ops.literal z = .ok b ∧
    v.model = w.model.posted (truthConstraint b) ∧ w.model.Owns b := by
  simp only [require, Model.add, runBind, runLift] at ok
  obtain ⟨b, _, ⟨literal, rfl⟩, ok⟩ := ok
  obtain ⟨same, owned⟩ := postOk (runOnModel.mp ok).1
  exact ⟨b, literal, same, owned b (by simp [Posted.handles, Constraint.handles])⟩

theorem truthSatisfied {x : Int64} (value : a.value b = .ok x) :
    (truthConstraint b).isSatisfied a = .ok (Relation.eq.holds x 1) := compareHolds value rfl

theorem requireImposed {t : Unit} (settled : w.Settled v fun ρ =>
      Marks (z.denote ρ) (rule (p.roles.map ρ.value) (p.tasks.map ρ.value)))
    (owned : ∀ h ∈ p.handles, w.model.Owns h) (inside : ops.In v.model)
    (requirable : Requirable ops v.model z) (ok : require ops z v = .ok t u) :
    Imposed p w.model u.model rule := by
  obtain ⟨b, literal, same, owns⟩ := requireOk ok
  obtain ⟨_, again, range, known, _⟩ := requirable
  rw [literal] at again
  cases again
  have value : ∀ a, v.model.Admits a → ∃ x, a.value b = .ok x := fun a admits => by
    obtain ⟨x, value, _⟩ := boundsExact settled.proper admits known
    exact ⟨x, value⟩
  rw [same]
  refine ⟨postedProper settled.proper ?_, fun evaluates => postedEvaluates
    (settled.evaluates evaluates) fun a admits => ?_, ?_⟩
  · simpa [truthConstraint, Posted.handles, Constraint.handles, Term.handles] using owns
  · obtain ⟨x, value⟩ := value a admits
    exact ⟨_, truthSatisfied value⟩
  refine Refined.trans settled.proper settled.conservative (postedRefined _ _)
    (fun a solution => ?_) fun _ _ _ => trivial
  obtain ⟨x, value⟩ := value a (solutionExact.mp solution).1
  let ρ := a.reading (fun s => (Encoding.encode v.encoder s).1.toInt) (fun _ => 0)
  have reads : ρ.Reads a := readingReads a _ _
  have marks : Marks (z.denote ρ) (rule (p.roles.map a.number) (p.tasks.map a.number)) :=
    settled.exact a ρ solution reads (knowsOfStable fun _ => rfl)
  rw [Layer.literalExact inside solution reads literal, reads b x value] at marks
  obtain ⟨roles, tasks⟩ := viewRestrict owned a
  rw [roles, tasks, truthSatisfied value, true_and, Except.ok.injEq, Relation.holdsWords]
  exact (marksOne marks).symm

structure Ready (ops : Layer) (p : Plan) (w : Workspace Dictionary) : Prop where
  proper : w.model.Proper
  inside : ops.In w.model
  ranged : ∀ h ∈ p.handles, w.model.Ranged h
  named : ∃ ss, w.encoder = Encoding.after (Dictionary.mk ["web", "db"]) ss

theorem Ready.later (ready : Ready ops p w) (later : Later w v) : Ready ops p v where
  proper := later.grown.proper ready.proper
  inside := ready.inside.later later.grown.le
  ranged h mem := (ready.ranged h mem).later later.grown.le
  named := by
    obtain ⟨ss, same⟩ := ready.named
    obtain ⟨ts, asked⟩ := later.asked
    exact ⟨ss ++ ts, by rw [asked, same, Encoding.afterAppend]⟩

theorem Ready.owned (ready : Ready ops p w) : ∀ h ∈ p.handles, w.model.Owns h :=
  fun h mem => (ready.ranged h mem).owned

theorem Ready.codes (ready : Ready ops p w) {ρ : Reading} (knows : ρ.Knows w.encoder) :
    ρ.code "web" = 0 ∧ ρ.code "db" = 1 := by
  obtain ⟨ss, same⟩ := ready.named
  exact ⟨knows ⟨[]⟩ "web" ("db" :: ss) same.symm, knows ⟨["web"]⟩ "db" ss same.symm⟩

def Imposes (p : Plan) (action : Planning Unit) (w : Workspace Dictionary)
    (rule : List Int → List Int → Prop) : Prop :=
  Achieves action w fun _ v => Later w v ∧ Imposed p w.model v.model rule

theorem imposesPure (ready : Ready ops p w)
    (free : ∀ value : Handle → Int, rule (p.roles.map value) (p.tasks.map value)) :
    Imposes p (pure ()) w rule :=
  fun _ => ⟨(), w, rfl, Std.Refl.refl w, imposedNothing ready.proper free⟩

theorem Imposes.congr {action : Planning Unit} (imposes : Imposes p action w rule)
    (same : ∀ roles tasks, rule roles tasks ↔ other roles tasks) : Imposes p action w other := by
  intro small
  obtain ⟨t, v, ok, later, imposed⟩ := imposes small
  exact ⟨t, v, ok, later, imposed.congr same⟩

theorem imposesBind {first next : Planning Unit} (ready : Ready ops p w)
    (keeps : Keeps Later next) (imposes : Imposes p first w rule)
    (rest : ∀ v, Ready ops p v → Imposes p next v other) :
    Imposes p (first >>= fun _ => next) w fun roles tasks => rule roles tasks ∧ other roles tasks := by
  refine achievesBind (fun _ => keeps) imposes ?_
  intro _ v ⟨later, imposed⟩ small
  obtain ⟨t, u, ok, after, others⟩ := rest v (ready.later later) small
  exact ⟨t, u, ok, IsTrans.trans _ _ _ later after, imposed.trans others ready.owned⟩

theorem imposesForM {α : Type} {f : α → Planning Unit} {each : α → List Int → List Int → Prop}
    (keeps : ∀ x, Keeps Later (f x)) (ready : Ready ops p w) (xs : List α)
    (imposes : ∀ x ∈ xs, ∀ v, Ready ops p v → Imposes p (f x) v (each x)) :
    Imposes p (xs.forM f) w fun roles tasks => ∀ x ∈ xs, each x roles tasks := by
  induction xs generalizing w with
  | nil => exact imposesPure ready (by simp)
  | cons x xs ih =>
    obtain ⟨first, rest⟩ := List.forall_mem_cons.mp imposes
    refine (imposesBind ready (keepsForM keeps xs) (first w ready) fun v ready =>
      ih ready rest).congr fun roles tasks => ?_
    exact (List.forall_mem_cons (p := fun x => each x roles tasks)).symm

theorem requireImposes (ready : Ready ops p w) (later : Later w v)
    (requirable : Requirable ops v.model z)
    (settled : Model.Settled w.model v.model fun ρ => ρ.Knows v.encoder →
      ρ.code "web" = 0 → ρ.code "db" = 1 →
      Marks (z.denote ρ) (rule (p.roles.map ρ.value) (p.tasks.map ρ.value))) :
    Achieves (require ops z) v fun _ u => Later w u ∧ Imposed p w.model u.model rule := by
  refine (requireSucceeds requirable).achieves fun _ u ok _ => ?_
  have exact : w.Settled v fun ρ =>
      Marks (z.denote ρ) (rule (p.roles.map ρ.value) (p.tasks.map ρ.value)) :=
    Model.Settled.imp settled fun a ρ _ _ marks knows =>
      marks knows ((ready.later later).codes knows).1 ((ready.later later).codes knows).2
  exact ⟨IsTrans.trans _ _ _ later (keepsOk (keepsRequire ops z) ok),
    requireImposed exact ready.owned (ready.later later).inside requirable ok⟩

theorem keepsEither (ops : Layer) (l r : Operand) : Keeps Later (do
    let ok ← ops.connect .or l r
    require ops ok : Planning Unit) :=
  keepsBind (keepsOnModel (ops.keepsConnect _ _ _)) fun _ => keepsRequire ops _

theorem keepsUnlessDb (ops : Layer) (offHost : Operand) (role : Handle) : Keeps Later (do
    let isDb ← ops.compare .eq (.var role) (text "db")
    let ok ← ops.connect .or offHost isDb
    require ops ok : Planning Unit) :=
  keepsBind (ops.keepsCompare _ _ _) fun _ => keepsEither ops _ _

theorem keepsAfterHost (ops : Layer) (onHost : Operand) (role : Handle) : Keeps Later (do
    let offHost ← ops.not onHost
    let isDb ← ops.compare .eq (.var role) (text "db")
    let ok ← ops.connect .or offHost isDb
    require ops ok : Planning Unit) :=
  keepsBind (keepsOnModel (ops.keepsNot _)) fun _ => keepsUnlessDb ops _ role

theorem keepsHostNeedsDb (ops : Layer) (first role : Handle) (host : Int64) :
    Keeps Later (hostNeedsDb ops first role host) :=
  keepsBind (ops.keepsCompare _ _ _) fun _ => keepsAfterHost ops _ role

theorem marksZero {v : Int} {q : Prop} (marks : Marks v q) : v = 0 ↔ ¬q := by
  rcases marks with ⟨rfl, holds⟩ | ⟨rfl, fails⟩
  · exact iff_of_false (by decide) (not_not.mpr holds)
  · exact iff_of_true rfl fails

theorem hostNeedsDbImposes (ready : Ready ops p w) {first role : Handle} {host : Int64}
    (task : first ∈ p.handles) (server : role ∈ p.handles)
    (states : ∀ ρ : Reading, ρ.code "db" = 1 → ((ρ.value first = host.toInt → ρ.value role = 1) ↔
      rule (p.roles.map ρ.value) (p.tasks.map ρ.value))) :
    Imposes p (hostNeedsDb ops first role host) w rule := by
  -- One step for each operator; what it settles is carried over what the later ones add.
  refine achievesBind (fun _ => keepsAfterHost ops _ role)
    (Layer.compareMarked ready.proper ready.inside (ready.ranged first task) rfl) ?_
  rintro _ w₁ ⟨onHost, rfl, made₁⟩
  have ready₁ := ready.later made₁.later
  refine achievesBind (fun _ => keepsUnlessDb ops _ role)
    (Layer.notMarked ready₁.proper ready₁.inside made₁.literal.ranged) ?_
  rintro _ w₂ ⟨offHost, rfl, made₂⟩
  have ready₂ := ready₁.later made₂.later
  refine achievesBind (fun _ => keepsEither ops _ _)
    (Layer.compareMarked ready₂.proper ready₂.inside (ready₂.ranged role server) rfl) ?_
  rintro _ w₃ ⟨isDb, rfl, made₃⟩
  have ready₃ := ready₂.later made₃.later
  refine achievesBind (fun _ => keepsRequire ops _)
    (Layer.connectMarked ready₃.proper ready₃.inside (made₂.literal.later made₃.later.grown.le)
      made₃.literal) ?_
  rintro _ w₄ ⟨b, rfl, made₄⟩
  have all := ((made₁.settled.trans made₂.settled made₂.later).trans made₃.settled
    made₃.later).trans made₄.settled made₄.later
  refine requireImposes ready ?_ ⟨b, rfl, made₄.literal⟩ ?_
  · exact IsTrans.trans _ _ _ made₁.later (IsTrans.trans _ _ _ made₂.later
      (IsTrans.trans _ _ _ made₃.later made₄.later))
  refine Model.Settled.imp all fun a ρ _ _ marks knows _ db => ?_
  obtain ⟨⟨⟨on, off⟩, named⟩, either⟩ := marks knows
  refine (marksCongr ?_).mp either
  change (ρ.value offHost = 1 ∨ ρ.value isDb = 1) ↔ _
  rw [← states ρ db, marksOne off, marksZero on, marksOne named]
  change (¬ρ.value first = host.toInt ∨ ρ.value role = ρ.code "db") ↔ _
  rw [db, imp_iff_not_or]

theorem keepsFirstNeedsDb (ops : Layer) (first : Handle) (host : Int64) (roles : List Handle) :
    Keeps Later (firstNeedsDb ops first host roles) := by
  induction roles generalizing host with
  | nil => exact keepsPure _
  | cons role roles ih => exact keepsBind (keepsHostNeedsDb ops first role host) fun _ => ih _

/- The induction is on the hosts still to come; the others are at the places before. -/
theorem firstNeedsDbImposes {first : Handle} {others : List Handle} (head : p.tasks = first :: others)
    (few : p.roles.length < 2 ^ 31) (rest : List Handle) : ∀ (w : Workspace Dictionary)
    (done : List Handle) (host : Int64), Ready ops p w → p.roles = done ++ rest →
    host.toInt = done.length → Imposes p (firstNeedsDb ops first host rest) w fun roles tasks =>
      ∀ i : Nat, done.length ≤ i → i < p.roles.length → tasks.head? = some (i : Int) →
        roles[i]? = some 1 := by
  induction rest with
  | nil =>
    intro w done host ready split _
    refine imposesPure ready fun _ i beyond below => ?_
    simp only [split, List.append_nil] at below
    omega
  | cons role rest ih =>
    intro w done host ready split place
    have size : done.length + 1 + rest.length < 2 ^ 31 := by
      simpa [split, add_assoc, add_comm, add_left_comm] using few
    have next : (host + 1).toInt = (done ++ [role]).length := by
      rw [succToInt]
      · simp [place]
      · rw [place, Int64.toInt_maxValue]
        omega
    have here : Imposes p (hostNeedsDb ops first role host) w fun roles tasks =>
        tasks.head? = some (done.length : Int) → roles[done.length]? = some 1 := by
      refine hostNeedsDbImposes ready ?_ ?_ fun ρ _ => ?_
      · simp [Plan.handles, head]
      · simp [Plan.handles, split]
      · simp [head, split, place]
    have split : p.roles = (done ++ [role]) ++ rest := by rw [split, List.append_assoc]; rfl
    refine (imposesBind ready (keepsFirstNeedsDb ops first _ rest) here fun v ready =>
      ih v (done ++ [role]) (host + 1) ready split next).congr ?_
    intro roles tasks
    simp only [List.length_append, List.length_singleton]
    constructor
    · rintro ⟨here, there⟩ i beyond below
      rcases beyond.eq_or_lt with rfl | beyond
      · exact here
      · exact there i beyond below
    · intro all
      exact ⟨all done.length le_rfl (by rw [split]; simp), fun i beyond => all i (by omega)⟩

theorem keepsFirstTwoApart (ops : Layer) (tasks : List Handle) :
    Keeps Later (firstTwoApart ops tasks) := by
  unfold firstTwoApart
  split
  · exact keepsBind (ops.keepsCompare _ _ _) fun _ => keepsRequire ops _
  · exact keepsPure _

theorem firstTwoApartImposes (ready : Ready ops p w) :
    Imposes p (firstTwoApart ops p.tasks) w fun _ tasks =>
      ∀ s t rest, tasks = s :: t :: rest → s ≠ t := by
  rcases split : p.tasks with _ | ⟨s, _ | ⟨t, rest⟩⟩
  · exact imposesPure ready (by simp [split])
  · exact imposesPure ready (by simp [split])
  have first : s ∈ p.handles := by simp [Plan.handles, split]
  have second : t ∈ p.handles := by simp [Plan.handles, split]
  refine achievesBind (fun _ => keepsRequire ops _) (Layer.compareMarked ready.proper ready.inside
    (ready.ranged s first) (ready.ranged t second)) ?_
  rintro _ v ⟨b, rfl, made⟩
  refine requireImposes ready made.later ⟨b, rfl, made.literal⟩ ?_
  refine Model.Settled.imp made.settled fun a ρ _ _ marks knows _ _ => (marksCongr ?_).mp (marks knows)
  change ρ.value s ≠ ρ.value t ↔ _
  simp [split]

theorem mapMMarked {α β : Type} {f : α → Planning β} {g : Handle → β} {P : Reading → α → Prop}
    (keeps : ∀ x, Keeps Later (f x)) (ready : Ready ops p w) (xs : List α)
    (each : ∀ x ∈ xs, ∀ w, Ready ops p w →
      Achieves (f x) w fun y v => ∃ b, y = g b ∧ Layer.Marked w v b fun ρ => P ρ x) :
    Achieves (xs.mapM f) w fun ys v => ∃ bs, ys = bs.map g ∧ bs.length = xs.length ∧ Later w v ∧
      (∀ b ∈ bs, v.model.Literal b) ∧
      w.Settled v fun ρ => List.Forall₂ (fun x b => Marks (ρ.value b) (P ρ x)) xs bs := by
  induction xs generalizing w with
  | nil =>
    exact fun _ => ⟨[], w, rfl, [], rfl, rfl, Std.Refl.refl w, by simp,
      Workspace.settledPure ready.proper fun _ _ _ _ _ => .nil⟩
  | cons x xs ih =>
    obtain ⟨head, tail⟩ := List.forall_mem_cons.mp each
    rw [List.mapM_cons]
    refine achievesBind (fun _ => keepsBind (keepsMapM keeps xs) fun _ => keepsPure _)
      (head w ready) ?_
    rintro _ v ⟨b, rfl, made⟩
    refine achievesBind (fun _ => keepsPure _) (ih (ready.later made.later) tail) ?_
    rintro _ u ⟨bs, rfl, size, later, literals, settled⟩ _
    refine ⟨_, u, rfl, b :: bs, rfl, by simp [size], IsTrans.trans _ _ _ made.later later,
      List.forall_mem_cons.mpr ⟨made.literal.later later.grown.le, literals⟩, ?_⟩
    exact (made.settled.trans settled later).imp fun ρ both => .cons both.1 both.2

theorem keepsWithinCapacity (ops : Layer) (r : Request) (tasks : List Handle) (host : Nat) :
    Keeps Later (withinCapacity ops r tasks host) :=
  keepsBind (keepsMapM (fun _ => ops.keepsCompare _ _ _) _) fun _ =>
    keepsBind (keepsOnModel (keepsSum _)) fun _ =>
    keepsBind (ops.keepsCompare _ _ _) fun _ => keepsRequire ops _

theorem fitsAchieves (ready : Ready ops p w) {load : Operand} {c : Int64}
    (known : (∃ n, load = long n) ∨ ∃ h, load = .var h ∧ w.model.Ranged h) :
    Achieves (ops.compare .le load (number c)) w fun z v => Later w v ∧ Requirable ops v.model z ∧
      w.Settled v fun ρ => Marks (z.denote ρ) (load.denote ρ ≤ c.toInt) := by
  rcases known with ⟨n, rfl⟩ | ⟨h, rfl, ranged⟩
  · intro _
    refine ⟨.scalar (.bool (Relation.le.holds n c)), w, rfl, Std.Refl.refl w,
      ⟨ops.constant _, rfl, ready.inside.literal _⟩, ?_⟩
    exact Workspace.settledPure ready.proper fun _ ρ _ _ _ =>
      marksTruth (Relation.holdsWords (r := .le) (x := n) (y := c)).symm
  · intro small
    obtain ⟨_, v, ok, b, rfl, made⟩ :=
      Layer.compareMarked (y := number c) ready.proper ready.inside ranged rfl small
    exact ⟨_, v, ok, made.later, ⟨b, rfl, made.literal⟩, made.settled⟩

theorem sumMarks {ρ : Reading} {tasks bs : List Handle} {host : Int}
    (marks : List.Forall₂ (fun t b => Marks (ρ.value b) (ρ.value t = host)) tasks bs) :
    (bs.map ρ.value).sum = (tasks.map fun t => if ρ.value t = host then 1 else 0).sum := by
  induction marks with
  | nil => rfl
  | cons first _ ih =>
    simp only [List.map_cons, List.sum_cons, ih]
    rcases first with ⟨one, here⟩ | ⟨zero, elsewhere⟩
    · rw [one, if_pos here]
    · rw [zero, if_neg elsewhere]

theorem withinCapacityImposes (ready : Ready ops p w) {r : Request} {host : Nat}
    (few : p.tasks.length < 2 ^ 59) (near : host < 2 ^ 63) :
    Imposes p (withinCapacity ops r p.tasks host) w fun _ tasks =>
      (tasks.map fun t => if t = (host : Int) then 1 else 0).sum ≤ r.capacity.toInt := by
  have place : (Int64.ofNat host).toInt = host := Int64.toInt_ofNat_of_lt near
  refine achievesBind (fun _ => keepsBind (keepsOnModel (keepsSum _)) fun _ =>
    keepsBind (ops.keepsCompare _ _ _) fun _ => keepsRequire ops _)
    (mapMMarked (g := Operand.var) (P := fun ρ t => ρ.value t = host)
      (fun _ => ops.keepsCompare _ _ _) ready p.tasks fun t mem w ready => ?_) ?_
  · intro small
    have plain : Layer.Comparable w.model .eq (number (.ofNat host)) := rfl
    obtain ⟨z, v, ok, b, same, made⟩ := Layer.compareMarked ready.proper ready.inside
      (ready.ranged t (List.mem_append_right _ mem)) plain small
    refine ⟨z, v, ok, b, same, made.later, made.literal, made.settled.imp fun ρ marks => ?_⟩
    exact (marksCongr (by rw [← place]; rfl)).mp marks
  rintro _ w₁ ⟨bs, rfl, size, later₁, literals, onHost⟩
  have ready₁ := ready.later later₁
  refine achievesBind (fun _ => keepsBind (ops.keepsCompare _ _ _) fun _ => keepsRequire ops _)
    (Layer.sumAchieves ready₁.proper literals (by omega)) ?_
  intro load w₂ ⟨later₂, known, total⟩
  refine achievesBind (fun _ => keepsRequire ops _) (fitsAchieves (ready₁.later later₂) known) ?_
  intro fits w₃ ⟨later₃, requirable, bounded⟩
  have all := (onHost.trans total later₂).trans bounded later₃
  refine requireImposes ready ?_ requirable (Model.Settled.imp all fun a ρ _ _ marks knows _ _ => ?_)
  · exact IsTrans.trans _ _ _ later₁ (IsTrans.trans _ _ _ later₂ later₃)
  obtain ⟨⟨each, total⟩, fits⟩ := marks knows
  rw [total, sumMarks each] at fits
  rwa [List.map_map]

theorem keepsSomeWeb (ops : Layer) (roles : List Handle) : Keeps Later (someWeb ops roles) :=
  keepsBind (keepsMapM (fun _ => ops.keepsEqualLiteral _ _) _) fun _ =>
    keepsBind (keepsOnModel (ops.keepsAnyTrue _)) fun _ => keepsRequire ops _

theorem someWebImposes (ready : Ready ops p w) :
    Imposes p (someWeb ops p.roles) w fun roles _ => 0 ∈ roles := by
  refine achievesBind (fun _ => keepsBind (keepsOnModel (ops.keepsAnyTrue _)) fun _ =>
    keepsRequire ops _) (mapMMarked (g := id) (P := fun ρ role => ρ.value role = ρ.code "web")
    (fun _ => ops.keepsEqualLiteral _ _) ready p.roles fun role mem w ready => ?_) ?_
  · intro small
    obtain ⟨b, v, ok, made⟩ := Layer.equalLiteralMarked (y := text "web") ready.proper ready.inside
      (ready.ranged role (List.mem_append_left _ mem)) rfl small
    exact ⟨b, v, ok, b, rfl, made⟩
  rintro _ w₁ ⟨bs, rfl, _, later₁, literals, each⟩
  have ready₁ := ready.later later₁
  rw [List.map_id]
  refine achievesBind (fun _ => keepsRequire ops _)
    (Layer.anyTrueMarked ready₁.proper ready₁.inside literals) ?_
  intro b w₂ made
  refine requireImposes ready (IsTrans.trans _ _ _ later₁ made.later) ⟨b, rfl, made.literal⟩ ?_
  refine Model.Settled.imp (each.trans made.settled made.later) fun a ρ _ _ marks knows web _ => ?_
  obtain ⟨each, some⟩ := marks knows
  rw [web] at each
  refine (marksCongr ?_).mp some
  rw [Layer.memberMarks each, List.mem_map]

theorem keepsFirstOnDb (ops : Layer) (p : Plan) : Keeps Later (firstOnDb ops p) := by
  unfold firstOnDb
  split
  · exact keepsFirstNeedsDb ops _ _ _
  · exact keepsPure _

theorem firstOnDbImposes (ready : Ready ops p w) (few : p.roles.length < 2 ^ 31) :
    Imposes p (firstOnDb ops p) w fun roles tasks => ∀ i : Nat, i < p.roles.length →
      tasks.head? = some (i : Int) → roles[i]? = some 1 := by
  unfold firstOnDb
  split
  · rename_i first others head
    exact (firstNeedsDbImposes head few p.roles w [] 0 ready rfl rfl).congr fun roles tasks => by simp
  · rename_i none
    exact imposesPure ready (by simp [none])

structure Rules (hosts : Nat) (capacity : Int) (roles tasks : List Int) : Prop where
  first : ∀ i : Nat, i < hosts → tasks.head? = some (i : Int) → roles[i]? = some 1
  apart : ∀ s t rest, tasks = s :: t :: rest → s ≠ t
  within : ∀ h ∈ List.range hosts,
    (tasks.map fun t => if t = (h : Int) then 1 else 0).sum ≤ capacity
  web : 0 ∈ roles

theorem keepsConstrain (ops : Layer) (r : Request) (p : Plan) : Keeps Later (constrain ops r p) :=
  keepsBind (keepsFirstOnDb ops p) fun _ => keepsBind (keepsFirstTwoApart ops _) fun _ =>
    keepsBind (keepsForM (keepsWithinCapacity ops r _) _) fun _ => keepsSomeWeb ops _

theorem constrainImposes (ready : Ready ops p w) {r : Request}
    (hosts : r.hosts.toInt.toNat = p.roles.length) (fewHosts : p.roles.length < 2 ^ 31)
    (fewTasks : p.tasks.length < 2 ^ 31) :
    Imposes p (constrain ops r p) w (Rules p.roles.length r.capacity.toInt) := by
  rw [constrain, hosts]
  have loads : ∀ v, Ready ops p v → Imposes p ((List.range p.roles.length).forM
      (withinCapacity ops r p.tasks)) v fun _ tasks => ∀ h ∈ List.range p.roles.length,
        (tasks.map fun t => if t = (h : Int) then 1 else 0).sum ≤ r.capacity.toInt := by
    intro v ready
    refine imposesForM (keepsWithinCapacity ops r _) ready _ fun h mem u ready => ?_
    have inside := List.mem_range.mp mem
    exact withinCapacityImposes ready (by omega) (by omega)
  refine (imposesBind ready (keepsBind (keepsFirstTwoApart ops _) fun _ =>
      keepsBind (keepsForM (keepsWithinCapacity ops r _) _) fun _ => keepsSomeWeb ops _)
    (firstOnDbImposes ready fewHosts) fun v ready => imposesBind ready
      (keepsBind (keepsForM (keepsWithinCapacity ops r _) _) fun _ => keepsSomeWeb ops _)
    (firstTwoApartImposes ready) fun v ready => imposesBind ready (keepsSomeWeb ops _)
    (loads v ready) fun v ready => someWebImposes ready).congr fun roles tasks => ?_
  exact ⟨fun ⟨first, apart, within, web⟩ => ⟨first, apart, within, web⟩,
    fun ⟨first, apart, within, web⟩ => ⟨first, apart, within, web⟩⟩

end Placement

end ConstraintAlgebra
