import ConstraintAlgebra.Search
import ConstraintAlgebra.Proofs.Runs

/-! The pruned walk against the list of what it has to find. The walk tests a constraint on values of
which the later ones are stale; the constraint does not read them, so it answers as it does on the
values given so far and on every assignment that continues them. -/
namespace ConstraintAlgebra

section Visiting

variable {σ : Type} {body : Int64 → σ → Except Failure (ForInStep σ)}
  {visit : Assignment → σ → ForInStep σ} {s : σ} {a b : Assignment}

def sweep (body : Int64 → σ → Except Failure (ForInStep σ)) :
    List Int64 → σ → Except Failure (ForInStep σ)
  | [], s => .ok (.yield s)
  | x :: xs, s =>
    match body x s with
    | .ok (.yield s) => sweep body xs s
    | stopped => stopped

theorem sweepAppend {xs ys : List Int64} : sweep body (xs ++ ys) s =
    match sweep body xs s with
    | .ok (.yield s) => sweep body ys s
    | stopped => stopped := by
  induction xs generalizing s with
  | nil => rfl
  | cons x xs ih =>
    simp only [List.cons_append, sweep]
    rcases body x s with e | s | s
    · rfl
    · rfl
    · exact ih

theorem intervalVisit {n : Nat} {x : Int64} :
    Interval.visit body n x s = sweep body (Interval.run n x) s := by
  induction n generalizing x s with
  | zero => rfl
  | succ n ih =>
    rcases run : body x s with e | s | s <;>
      simp only [Interval.visit, Interval.run, sweep, ih, run]

theorem domainVisit {is : List Interval} :
    Domain.visit body is s = sweep body (is.flatMap Interval.values) s := by
  induction is generalizing s with
  | nil => rfl
  | cons i is ih =>
    rw [List.flatMap_cons, sweepAppend]
    rcases run : sweep body (Interval.run i.size i.lo) s with e | s | s <;>
      simp only [Domain.visit, Interval.values, intervalVisit, ih, run]

def visitAll (visit : Assignment → σ → ForInStep σ) : List Assignment → σ → ForInStep σ
  | [], s => .yield s
  | a :: rest, s =>
    match visit a s with
    | .done s => .done s
    | .yield s => visitAll visit rest s

theorem visitAllAppend {as bs : List Assignment} : visitAll visit (as ++ bs) s =
    match visitAll visit as s with
    | .done s => .done s
    | .yield s => visitAll visit bs s := by
  induction as generalizing s with
  | nil => rfl
  | cons a as ih =>
    simp only [List.cons_append, visitAll]
    cases visit a s with
    | done s => rfl
    | yield s => exact ih

def resume (a : Assignment) : ForInStep σ → ForInStep (Tour σ)
  | .done s => .done ⟨a, s⟩
  | .yield s => .yield ⟨a, s⟩

theorem presentAll {t : Tour σ} :
    t.present visit = resume t.assignment (visitAll visit [t.assignment] t.gathered) := by
  simp only [Tour.present, visitAll]
  cases visit t.assignment t.gathered <;> rfl

end Visiting

def Level.accepts (level : Level) (a : Assignment) : Bool :=
  level.watched.all fun p => p.isSatisfied a = .ok true

def found : List Level → Assignment → List Assignment
  | [], a => [a]
  | level :: deeper, a => level.domain.values.flatMap fun x =>
    if level.accepts (a.push x) then found deeper (a.push x) else []

def Walkable : List Level → Assignment → Prop
  | [], _ => True
  | level :: deeper, a => (∀ p ∈ level.watched, ∀ h ∈ p.handles, h.index ≤ a.values.length) ∧
      ∀ x ∈ level.domain, (∀ p ∈ level.watched, ∃ b, p.isSatisfied (a.push x) = .ok b) ∧
        Walkable deeper (a.push x)

section Walk

variable {σ : Type} (visit : Assignment → σ → ForInStep σ) {level : Level} {levels : List Level}
  {t : Tour σ} {a b : Assignment} {x : Int64}

theorem setOk {i : Nat} (small : a.values.length < 2 ^ 31) (inside : i < a.values.length) :
    ∃ v, VarId.ofIndex i = .ok v ∧ a.set v x = .ok ⟨a.values.set i x⟩ := by
  obtain ⟨v, named, place⟩ := VarId.ofIndexPlace (i := i) (by omega)
  subst place
  exact ⟨v, named, if_pos inside⟩

structure Assignment.Continues (b a : Assignment) (n : Nat) : Prop where
  size : b.values.length = n
  start : b.values.take a.values.length = a.values

theorem continuesSet {n : Nat} (continues : b.Continues a n) (inside : a.values.length < n) :
    (Assignment.mk (b.values.set a.values.length x)).Continues (a.push x) n where
  size := by rw [List.length_set, continues.size]
  start := by
    have longer : a.values.length < b.values.length := continues.size ▸ inside
    simp only [Assignment.push, List.length_append, List.length_singleton]
    rw [List.take_add_one, List.take_set_of_le le_rfl, continues.start, List.getElem?_set_self longer]
    rfl

theorem Assignment.Continues.before {n : Nat} (continues : b.Continues (a.push x) n) :
    b.Continues a n where
  size := continues.size
  start := by
    have first := congrArg (List.take a.values.length) continues.start
    simpa [Assignment.push, List.take_take] using first

theorem Assignment.Continues.same {n : Nat} (continues : b.Continues a n) {p : Posted}
    (within : ∀ h ∈ p.handles, h.index < a.values.length) : p.isSatisfied b = p.isSatisfied a := by
  refine isSatisfiedCongr fun h mem => valueCongr ?_
  rw [← continues.start, List.getElem?_take_of_lt (within h mem)]

theorem Assignment.Continues.samePushed {n : Nat} (continues : b.Continues (a.push x) n)
    {p : Posted} (within : ∀ h ∈ p.handles, h.index ≤ a.values.length) :
    p.isSatisfied b = p.isSatisfied (a.push x) :=
  continues.same fun h mem => by simpa [Assignment.push] using Nat.lt_succ_of_le (within h mem)

theorem continuesAppend (zs : List Int64) :
    (Assignment.mk (a.values ++ x :: zs)).Continues (a.push x) (a.values ++ x :: zs).length where
  size := rfl
  start := by simp [Assignment.push, List.take_length_add_append]

theorem turnFound {below : Tour σ → Except Failure (ForInStep (Tour σ))} {found : List Assignment}
    {n : Nat} (small : n < 2 ^ 31)
    (walked : ∀ t : Tour σ, t.assignment.Continues (a.push x) n → ∃ b,
      below t = .ok (resume b (visitAll visit found t.gathered)) ∧ b.Continues (a.push x) n)
    (within : ∀ p ∈ level.watched, ∀ h ∈ p.handles, h.index ≤ a.values.length)
    (decided : ∀ p ∈ level.watched, ∃ c, p.isSatisfied (a.push x) = .ok c)
    (continues : t.assignment.Continues a n) (inside : a.values.length < n) :
    ∃ b, level.turn a.values.length below x t = .ok (resume b
        (visitAll visit (if level.accepts (a.push x) then found else []) t.gathered)) ∧
      b.Continues a n := by
  obtain ⟨v, named, set⟩ := setOk (a := t.assignment) (x := x) (i := a.values.length)
    (continues.size.trans_lt small) (continues.size.symm ▸ inside)
  have next := continuesSet (x := x) continues inside
  generalize Assignment.mk (t.assignment.values.set a.values.length x) = c at set next
  -- The constraints do not see the stale values of the later variables.
  have fresh : ∀ p ∈ level.watched, p.isSatisfied c = p.isSatisfied (a.push x) := fun p mem =>
    next.samePushed (within p mem)
  have tested : level.watched.allM (·.isSatisfied c) = .ok (level.accepts (a.push x)) := by
    rw [allMDecided fun p mem => (fresh p mem).symm ▸ decided p mem, Level.accepts,
      Except.ok.injEq, Bool.eq_iff_iff, List.all_eq_true, List.all_eq_true]
    exact forall₂_congr fun p mem => by rw [fresh p mem]
  simp only [Level.turn, named, set, tested, bind, Except.bind]
  cases level.accepts (a.push x) with
  | true =>
    obtain ⟨b, ran, after⟩ := walked ⟨c, t.gathered⟩ next
    exact ⟨b, ran, after.before⟩
  | false => exact ⟨c, rfl, next.before⟩

theorem walkFound (levels : List Level) {n : Nat} (small : n < 2 ^ 31) :
    ∀ (t : Tour σ) (a : Assignment), Walkable levels a → t.assignment.Continues a n →
      a.values.length + levels.length = n →
      ∃ b, walk visit levels a.values.length t =
        .ok (resume b (visitAll visit (found levels a) t.gathered)) ∧ b.Continues a n := by
  -- On the levels, and at each of them on the values still to be tried there.
  induction levels with
  | nil =>
    intro t a _ continues length
    have whole : t.assignment = a := by
      have := continues.start
      rw [List.take_of_length_le (by simpa [continues.size] using length.ge)] at this
      exact congrArg Assignment.mk this
    exact ⟨t.assignment, by rw [walk, presentAll, whole]; rfl, continues⟩
  | cons level deeper ih =>
    intro t a ⟨within, walkable⟩ continues length
    rw [walk, domainVisit, found]
    have each : ∀ x ∈ level.domain.values, x ∈ level.domain := fun x => Domain.memValues.mp
    change ∃ b, sweep _ level.domain.values t = _ ∧ _
    generalize level.domain.values = xs at each ⊢
    induction xs generalizing t with
    | nil => exact ⟨t.assignment, rfl, continues⟩
    | cons x xs rest =>
      obtain ⟨first, others⟩ := List.forall_mem_cons.mp each
      obtain ⟨decided, deeperWalkable⟩ := walkable x first
      simp only [List.length_cons] at length
      have inside : a.values.length < n := by omega
      have pushed : (a.push x).values.length = a.values.length + 1 := by simp [Assignment.push]
      obtain ⟨b, turned, after⟩ := turnFound visit small
        (fun t continues => pushed ▸ ih t (a.push x) deeperWalkable continues (by omega))
        within decided continues inside
      rw [List.flatMap_cons, visitAllAppend, sweep, turned]
      cases visitAll visit (if level.accepts (a.push x) then found deeper (a.push x) else [])
        t.gathered with
      | done s => exact ⟨b, rfl, after⟩
      | yield s => exact rest ⟨b, s⟩ after others

theorem acceptsExact : level.accepts a = true ↔ ∀ p ∈ level.watched, p.isSatisfied a = .ok true := by
  simp only [Level.accepts, List.all_eq_true, decide_eq_true_eq]

theorem memFound (levels : List Level) : ∀ a : Assignment, Walkable levels a →
    (b ∈ found levels a ↔ ∃ zs, b = ⟨a.values ++ zs⟩ ∧
      List.Forall₂ (fun level z => z ∈ level.domain) levels zs ∧
      ∀ level ∈ levels, ∀ p ∈ level.watched, p.isSatisfied b = .ok true) := by
  induction levels with
  | nil =>
    intro a _
    simp [found]
  | cons level deeper ih =>
    intro a ⟨within, walkable⟩
    have pushed : ∀ (x : Int64) (zs : List Int64), (a.push x).values ++ zs = a.values ++ x :: zs :=
      fun x zs => List.append_assoc _ _ _
    have accepted : ∀ (x : Int64) (zs : List Int64), level.accepts (a.push x) = true ↔
        ∀ p ∈ level.watched, p.isSatisfied ⟨a.values ++ x :: zs⟩ = .ok true := fun x zs => by
      refine acceptsExact.trans (forall₂_congr fun p mem => ?_)
      rw [(continuesAppend zs).samePushed (within p mem)]
    simp only [found, List.mem_flatMap, Domain.memValues]
    constructor
    · rintro ⟨x, inside, mem⟩
      split at mem
      · rename_i first
        obtain ⟨zs, rfl, domains, satisfied⟩ := (ih _ (walkable x inside).2).mp mem
        rw [pushed] at satisfied ⊢
        exact ⟨x :: zs, rfl, .cons inside domains,
          List.forall_mem_cons.mpr ⟨(accepted x zs).mp first, satisfied⟩⟩
      · simp at mem
    · rintro ⟨zs, rfl, domains, satisfied⟩
      obtain ⟨x, zs, inside, others, rfl⟩ := List.forall₂_cons_left_iff.mp domains
      obtain ⟨first, rest⟩ := List.forall_mem_cons.mp satisfied
      refine ⟨x, inside, ?_⟩
      rw [if_pos ((accepted x zs).mpr first)]
      exact (ih _ (walkable x inside).2).mpr ⟨zs, by rw [pushed], others, rest⟩

theorem foundAscends (levels : List Level) (canonical : ∀ level ∈ levels, level.domain.Canonical) :
    ∀ a : Assignment, Walkable levels a → (found levels a).Pairwise (·.values < ·.values) := by
  induction levels with
  | nil => simp [found]
  | cons level deeper ih =>
    intro a ⟨within, walkable⟩
    obtain ⟨first, others⟩ := List.forall_mem_cons.mp canonical
    have row : ∀ {x b}, x ∈ level.domain → b ∈ (if level.accepts (a.push x) then
        found deeper (a.push x) else []) → ∃ zs, b.values = a.values ++ x :: zs := by
      intro x b inside mem
      split at mem
      · obtain ⟨zs, rfl, _⟩ := (memFound deeper _ (walkable x inside).2).mp mem
        exact ⟨zs, List.append_assoc _ _ _⟩
      · simp at mem
    rw [found, List.pairwise_flatMap]
    refine ⟨fun x mem => ?_, (Domain.valuesAscend first).imp_of_mem fun hx hy below b left c right => ?_⟩
    · split
      · exact ih others _ (walkable x (Domain.memValues.mp mem)).2
      · exact .nil
    · obtain ⟨zs, same⟩ := row (Domain.memValues.mp hx) left
      obtain ⟨ws, other⟩ := row (Domain.memValues.mp hy) right
      rw [same, other]
      exact List.append_left_lt (List.cons_lt_cons_iff.mpr (.inl below))

end Walk

namespace Model

variable {m : Model} {a : Assignment} {p : Posted} {σ : Type}

theorem Evaluates.decided (evaluates : m.Evaluates) (proper : m.Proper) (admits : m.Admits a)
    (mem : p ∈ m.constraints) : ∃ b, p.isSatisfied a = .ok b := by
  cases failed : p.isSatisfied a with
  | ok b => exact ⟨b, rfl⟩
  | error e =>
    have covers : a.Covers p.handles := fun h hh =>
      (proper.owned p mem h hh).trans_eq (admitsLength admits).symm
    have overflow := isSatisfiedFails covers failed
    subst overflow
    exact absurd failed (evaluates a admits p mem)

theorem valuesExist (vs : List Variable) (canonical : ∀ v ∈ vs, v.domain.Canonical)
    (inhabited : ∀ v ∈ vs, v.domain.intervals ≠ []) :
    ∃ zs, List.Forall₂ (fun (v : Variable) z => z ∈ v.domain) vs zs :=
  relate fun v mem => Domain.memberExists (canonical v mem) (inhabited v mem)

theorem lastIndexExact {i : Nat} (last : p.lastIndex = some i) :
    (∃ h ∈ p.handles, h.index = i) ∧ ∀ h ∈ p.handles, h.index ≤ i := by
  obtain ⟨mem, most⟩ := List.max?_eq_some_iff.mp last
  exact ⟨List.mem_map.mp mem, List.forall_mem_map.mp most⟩

theorem walkableFrom (evaluates : m.Evaluates) (proper : m.Proper) (vs : List Variable) :
    ∀ (before : List Variable) (a : Assignment), m.vars = before ++ vs →
      List.Forall₂ (fun (v : Variable) x => x ∈ v.domain) before a.values →
      Walkable ((vs.zipIdx before.length).map m.level) a := by
  induction vs with
  | nil => exact fun _ _ _ _ => trivial
  | cons v vs ih =>
    intro before a split given
    have place := given.length_eq
    have within : ∀ p ∈ (m.level (v, before.length)).watched, ∀ h ∈ p.handles,
        h.index ≤ a.values.length := fun p mem h hh => by
      simp only [level, List.mem_filter, decide_eq_true_eq] at mem
      exact ((lastIndexExact mem.2).2 h hh).trans_eq place
    refine ⟨within, fun x inside => ⟨fun p mem => ?_, ?_⟩⟩
    · obtain ⟨zs, rest⟩ := valuesExist vs
        (fun w hw => proper.canonical w (by simp [split, hw]))
        (fun w hw => proper.inhabited w (by simp [split, hw]))
      have admits : m.Admits ⟨a.values ++ x :: zs⟩ := by
        rw [Admits, split]
        exact List.rel_append given (.cons inside rest)
      obtain ⟨b, decided⟩ := evaluates.decided proper admits (List.mem_filter.mp mem).1
      exact ⟨b, ((continuesAppend zs).samePushed (within p mem)).symm.trans decided⟩
    · have next := ih (before ++ [v]) (a.push x) (by simp [split])
        (List.rel_append given (.cons inside .nil))
      simpa using next

theorem walkable (evaluates : m.Evaluates) (proper : m.Proper) : Walkable m.levels ⟨[]⟩ :=
  walkableFrom evaluates proper m.vars [] ⟨[]⟩ rfl .nil

theorem lastIndexNone : p.lastIndex = none ↔ p.handles = [] := by
  rw [Posted.lastIndex, List.max?_eq_none_iff, List.map_eq_nil_iff]

theorem unconditionalSame (mem : p ∈ m.unconditional) (a b : Assignment) :
    p.isSatisfied a = p.isSatisfied b := by
  simp only [unconditional, List.mem_filter, decide_eq_true_eq, lastIndexNone] at mem
  exact isSatisfiedCongr (by simp [mem.2])

theorem unconditionalDecided (evaluates : m.Evaluates) (proper : m.Proper) :
    ∀ p ∈ m.unconditional, ∃ b, p.isSatisfied m.blank = .ok b := by
  intro p mem
  obtain ⟨zs, admits⟩ := valuesExist m.vars proper.canonical proper.inhabited
  obtain ⟨b, decided⟩ := evaluates.decided proper (a := ⟨zs⟩) admits (List.mem_filter.mp mem).1
  exact ⟨b, (unconditionalSame mem _ _).trans decided⟩

def outcomes (m : Model) : List Assignment :=
  if m.unconditional.all fun p => p.isSatisfied m.blank = .ok true then found m.levels ⟨[]⟩ else []

theorem levelsLength : m.levels.length = m.vars.length := by simp [levels]

theorem enumerateOutcomes (evaluates : m.Evaluates) (proper : m.Proper) (small : m.Small)
    (visit : Assignment → σ → ForInStep σ) (s : σ) :
    m.enumerate visit s = .ok (visitAll visit m.outcomes s).value := by
  rw [enumerate, allMDecided (unconditionalDecided evaluates proper), outcomes]
  simp only [bind, Except.bind]
  split
  · obtain ⟨b, walked, _⟩ := walkFound visit m.levels (n := m.vars.length) small
      ⟨m.blank, s⟩ ⟨[]⟩ (walkable evaluates proper) ⟨by simp [blank], rfl⟩ (by simp [levelsLength])
    change walk visit m.levels 0 _ = _ at walked
    rw [walked]
    cases visitAll visit (found m.levels ⟨[]⟩) s <;> rfl
  · rfl

theorem watchedExact (proper : m.Proper) (mem : p ∈ m.constraints) :
    p ∈ m.unconditional ∨ ∃ level ∈ m.levels, p ∈ level.watched := by
  cases last : p.lastIndex with
  | none => exact .inl (by simp [unconditional, mem, last])
  | some i =>
    obtain ⟨⟨h, hh, rfl⟩, _⟩ := lastIndexExact last
    have owned := proper.owned p mem h hh
    refine .inr ⟨m.level (m.vars[h.index], h.index), ?_, by simp [level, mem, last]⟩
    exact List.mem_map_of_mem (List.mem_zipIdx_iff_getElem?.mpr (List.getElem?_eq_getElem owned))

theorem watchedPosted {level : Level} (mem : level ∈ m.levels) (watched : p ∈ level.watched) :
    p ∈ m.constraints := by
  obtain ⟨v, _, rfl⟩ := List.mem_map.mp mem
  exact (List.mem_filter.mp watched).1

theorem levelsAdmit {zs : List Int64} :
    List.Forall₂ (fun level z => z ∈ level.domain) m.levels zs ↔ m.Admits ⟨zs⟩ := by
  rw [levels, List.forall₂_map_left_iff, Admits]
  conv_rhs => rw [← List.zipIdx_map_fst 0 m.vars, List.forall₂_map_left_iff]
  rfl

theorem outcomesExact (evaluates : m.Evaluates) (proper : m.Proper) :
    a ∈ m.outcomes ↔ m.Solution a := by
  have listed := memFound (b := a) m.levels ⟨[]⟩ (walkable evaluates proper)
  simp only [List.nil_append] at listed
  rw [solutionExact, outcomes]
  split
  · rename_i all
    simp only [List.all_eq_true, decide_eq_true_eq] at all
    rw [listed]
    constructor
    · rintro ⟨zs, rfl, domains, satisfied⟩
      refine ⟨levelsAdmit.mp domains, fun p mem => ?_⟩
      rcases watchedExact proper mem with free | ⟨level, hl, watched⟩
      · exact (unconditionalSame free _ _).trans (all p free)
      · exact satisfied level hl p watched
    · rintro ⟨admits, satisfied⟩
      exact ⟨a.values, rfl, levelsAdmit.mpr admits,
        fun level hl p watched => satisfied p (watchedPosted hl watched)⟩
  · rename_i broken
    simp only [List.all_eq_true, decide_eq_true_eq] at broken
    refine iff_of_false (by simp) fun ⟨_, satisfied⟩ => broken fun p free => ?_
    exact (unconditionalSame free _ _).trans (satisfied p (List.mem_filter.mp free).1)

theorem outcomesAscend (evaluates : m.Evaluates) (proper : m.Proper) :
    m.outcomes.Pairwise (·.values < ·.values) := by
  rw [outcomes]
  split
  · refine foundAscends _ (fun level mem => ?_) _ (walkable evaluates proper)
    obtain ⟨v, listed, rfl⟩ := List.mem_map.mp mem
    exact proper.canonical v.1 (List.fst_mem_of_mem_zipIdx listed)
  · exact .nil

theorem visitAllGathered {as found : List Assignment} :
    visitAll (fun a found => .yield (a :: found)) as found = .yield (as.reverse ++ found) := by
  induction as generalizing found with
  | nil => rfl
  | cons a as ih => simp [visitAll, ih]

theorem solutionsOutcomes (evaluates : m.Evaluates) (proper : m.Proper) (small : m.Small) :
    m.solutions = .ok m.outcomes := by
  rw [solutions, enumerateOutcomes evaluates proper small, visitAllGathered]
  simp [bind, Except.bind, pure, Except.pure, ForInStep.value]

theorem visitAllCounted {as : List Assignment} {n : Nat} :
    visitAll (fun _ n => .yield (n + 1)) as n = .yield (n + as.length) := by
  induction as generalizing n with
  | nil => rfl
  | cons a as ih => simp [visitAll, ih, Nat.add_assoc, Nat.add_comm 1]

theorem solutionCountOutcomes (evaluates : m.Evaluates) (proper : m.Proper) (small : m.Small) :
    m.solutionCount = .ok m.outcomes.length := by
  rw [solutionCount, enumerateOutcomes evaluates proper small, visitAllCounted]
  simp [ForInStep.value]

theorem oneSolutionOutcomes (evaluates : m.Evaluates) (proper : m.Proper) (small : m.Small) :
    m.oneSolution = .ok m.outcomes.head? := by
  rw [oneSolution, enumerateOutcomes evaluates proper small]
  cases m.outcomes <;> rfl

theorem oneSolutionLeast (evaluates : m.Evaluates) (proper : m.Proper) (small : m.Small) :
    (m.oneSolution = .ok none ∧ ∀ a, ¬m.Solution a) ∨ ∃ a, m.oneSolution = .ok (some a) ∧
      m.Solution a ∧ ∀ b, m.Solution b → a = b ∨ a.values < b.values := by
  have listed := fun a => outcomesExact (a := a) evaluates proper
  have ascend := outcomesAscend evaluates proper
  rw [oneSolutionOutcomes evaluates proper small]
  cases found : m.outcomes with
  | nil => exact .inl ⟨rfl, fun a => by simp [← listed, found]⟩
  | cons a later =>
    rw [found] at listed ascend
    refine .inr ⟨a, rfl, (listed a).mp List.mem_cons_self, fun b solution => ?_⟩
    rcases List.mem_cons.mp ((listed b).mpr solution) with rfl | after
    · exact .inl rfl
    · exact .inr (List.rel_of_pairwise_cons ascend after)

theorem checkDecided (evaluates : m.Evaluates) (proper : m.Proper) (size : a.size = m.vars.length) :
    ∃ b, m.check a = .ok b := by
  rw [check, if_neg (not_not.mpr size)]
  split
  · rename_i all
    simp only [List.all_eq_true, Domain.containsExact, Prod.forall] at all
    have admits : m.Admits a := List.forall₂_iff_zip.mpr ⟨size.symm, all _ _⟩
    exact ⟨_, allMDecided fun p mem => evaluates.decided proper admits mem⟩
  · exact ⟨false, rfl⟩

theorem outcomesNodup (evaluates : m.Evaluates) (proper : m.Proper) : m.outcomes.Nodup := by
  refine (outcomesAscend evaluates proper).imp ?_
  rintro a _ below rfl
  exact List.lt_irrefl _ below

theorem outcomesCount (evaluates : m.Evaluates) (proper : m.Proper) :
    {a | m.Solution a}.encard = m.outcomes.length := by
  have listed : {a | m.Solution a} = (m.outcomes.toFinset : Set Assignment) := by
    ext a
    simp [outcomesExact evaluates proper]
  rw [listed, Set.encard_coe_eq_coe_finsetCard,
    List.toFinset_card_of_nodup (outcomesNodup evaluates proper)]

theorem solutionCountExact (evaluates : m.Evaluates) (proper : m.Proper) (small : m.Small) :
    ∃ n, m.solutionCount = .ok n ∧ (n : ℕ∞) = {a | m.Solution a}.encard :=
  ⟨m.outcomes.length, solutionCountOutcomes evaluates proper small,
    (outcomesCount evaluates proper).symm⟩

end Model

namespace Session

variable {E : Type} [Encoding E]

/-- The pruned walk gives what plain generation and testing would: every solution once, in order. -/
theorem solutionsExact (calls : List (Call E)) (built : ∀ c ∈ calls, c.Built)
    (small : (start.run calls).model.Small)
    (evaluates : ∀ a, (start.run calls).model.Admits a →
      ∀ p ∈ (start.run calls).model.constraints, p.isSatisfied a ≠ .error .overflow) :
    ∃ found, (start.run calls).model.solutions = .ok found ∧
      found.Pairwise (·.values < ·.values) ∧
      ∀ a, a ∈ found ↔ a.values.length = (start.run calls).model.vars.length ∧
        (start.run calls).model.check a = .ok true := by
  have proper := (runSound built startSound).proper
  refine ⟨_, Model.solutionsOutcomes evaluates proper small,
    Model.outcomesAscend evaluates proper, fun a => ?_⟩
  rw [Model.outcomesExact evaluates proper]
  exact ⟨fun solution => ⟨Model.admitsLength (Model.solutionExact.mp solution).1, solution⟩, And.right⟩

theorem solutionsExactOnce :
    let h : Handle := ⟨1, by decide⟩
    let calls : List (Call Dictionary) := [.model (.withDomain (.ofValues [4, 2, 0]) "x"),
      .model (.post (.compare h .ge (.const 1)) none), .model (.post (.allTrue []) none)]
    let m := (start.run calls).model
    m.solutions = .ok [⟨[2]⟩, ⟨[4]⟩] ∧ ∃ found, m.solutions = .ok found ∧
      ∀ a, a ∈ found ↔ a.values.length = m.vars.length ∧ m.check a = .ok true := by
  intro h calls m
  have evaluates : ∀ a, m.Admits a → ∀ p ∈ m.constraints, p.isSatisfied a ≠ .error .overflow := by
    intro a admits p mem
    obtain ⟨x, given⟩ := List.length_eq_one_iff.mp (Model.admitsLength admits)
    obtain ⟨values⟩ := a
    subst given
    have posted : m.constraints = [⟨.compare h .ge (.const 1), none⟩, ⟨.allTrue [], none⟩] := rfl
    simp only [posted, List.mem_cons, List.not_mem_nil, or_false] at mem
    rcases mem with rfl | rfl
    · change (Constraint.compare h .ge (.const 1)).holds ⟨[x]⟩ ≠ _
      rw [compareHolds (x := x) (y := 1) rfl rfl]
      exact nofun
    · exact nofun
  obtain ⟨found, listed, _, exact⟩ := solutionsExact calls
    (by simpa [calls, Call.Built] using .values _) (by decide) evaluates
  exact ⟨rfl, found, listed, exact⟩
end Session

end ConstraintAlgebra
