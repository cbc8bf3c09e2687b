import ConstraintAlgebra.Proofs.Codes
import ConstraintAlgebra.Proofs.PlacementCount

/-! The placement that is shown. Roles and tasks come before the indicators and sums of the rules and
fix their values, so the least solution of a plan begins with the least of the valid arrangements. -/
namespace ConstraintAlgebra

open Model

theorem takeBelow {α : Type} [LT α] {xs ys : List α} (below : xs < ys) (n : Nat) :
    xs.take n = ys.take n ∨ xs.take n < ys.take n := by
  induction n generalizing xs ys with
  | zero => exact .inl rfl
  | succ n ih =>
    cases below with
    | nil => exact .inr .nil
    | rel first => exact .inr (.rel first)
    | cons rest =>
      rcases ih rest with same | before
      · exact .inl (congrArg (List.cons _) same)
      · exact .inr (.cons before)

namespace Placement

def Role.name : Role → String
  | .web => "web"
  | .db => "db"

def Role.rank : Role → Int
  | .web => 0
  | .db => 1

namespace Arrangement

variable {tasks hosts : Nat}

def reading (x : Arrangement tasks hosts) : List Int :=
  (List.ofFn fun h => (x.role h).rank) ++ List.ofFn fun t => ((x.host t).val : Int)

structure First (capacity : Int) (x : Arrangement tasks hosts) : Prop where
  valid : x.Valid capacity
  least : ∀ y : Arrangement tasks hosts, y.Valid capacity → x = y ∨ x.reading < y.reading

def roleLines (x : Arrangement tasks hosts) : List String :=
  List.ofFn fun h => s!"host {h.val} is {(x.role h).name}"

def taskLines (x : Arrangement tasks hosts) : List String :=
  List.ofFn fun t => s!"task {t.val} runs on host {(x.host t).val}"

def lines (x : Arrangement tasks hosts) : List String := x.roleLines ++ x.taskLines

end Arrangement

section Shown

variable {r : Request} {p : Plan} {w : Workspace Dictionary} {x y : Arrangement r.tasks r.hostCount}
  {a : Assignment}

theorem readingExact (small : r.hostCount < 2 ^ 31) :
    x.assignment.values.map Int64.toInt = [1, 0] ++ x.reading := by
  have ranks : (fun h => (x.role h).code.toInt) = fun h => (x.role h).rank :=
    funext fun h => by cases x.role h <;> rfl
  have places : (fun t => (Int64.ofNat (x.host t).val).toInt) = fun t => ((x.host t).val : Int) :=
    funext fun t => placeExact small t
  simp only [Arrangement.assignment, Arrangement.roles, Arrangement.places, Arrangement.reading,
    List.map_append, List.map_ofFn, Function.comp_def, ranks, places, List.append_assoc]
  rfl

theorem readingBelow (small : r.hostCount < 2 ^ 31)
    (below : x.assignment.values < y.assignment.values) : x.reading < y.reading := by
  have mapped := List.map_lt (f := Int64.toInt) (fun _ _ => Int64.lt_iff_toInt_lt.mp) below
  rw [readingExact small, readingExact small] at mapped
  simpa [List.cons_lt_cons_iff] using mapped

theorem Ready.roleName (ready : Ready layer p w) (role : Role) :
    w.encoder.string? role.code = some role.name := by
  obtain ⟨ss, asked⟩ := ready.named
  obtain ⟨others, strings⟩ := Dictionary.afterLonger ⟨["web", "db"]⟩ ss
  rw [asked, Dictionary.string?, ← strings]
  cases role <;> rfl

theorem linesShown {hs : List Handle} {n : Nat} {value : Fin n → Int64} {text : Fin n → String}
    {line : Handle × Nat → Except Failure String}
    (values : List.Forall₂ (fun h x => a.value h = .ok x) hs (List.ofFn value))
    (shown : ∀ h i, a.value h = .ok (value i) → line (h, i.val) = .ok (text i)) :
    hs.zipIdx.mapM line = .ok (List.ofFn text) := by
  obtain ⟨length, each⟩ := List.forall₂_iff_get.mp values
  rw [List.length_ofFn] at length
  refine mapMOk.mpr (List.forall₂_iff_get.mpr ⟨by simp [length], fun i left right => ?_⟩)
  have inside : i < n := by simpa using right
  have given := each i (length.symm ▸ inside) (by simpa using inside)
  simp only [List.get_eq_getElem, List.getElem_ofFn, List.getElem_zipIdx, Nat.zero_add] at given ⊢
  exact shown _ ⟨i, inside⟩ given

theorem arrangementShown (ready : Ready layer p w) (roles : Listed p.roles 2 r.hostCount)
    (tasks : Listed p.tasks (2 + r.hostCount) r.tasks) (small : r.hostCount < 2 ^ 31) {n : Nat}
    (begins : a.restrict n = x.assignment) :
    p.roles.zipIdx.mapM (roleLine w.encoder a) = .ok x.roleLines ∧
      p.tasks.zipIdx.mapM (taskLine a) = .ok x.taskLines := by
  obtain ⟨first, rest⟩ := arrangedValues (x := x) roles tasks
  have extend : ∀ h z, x.assignment.value h = .ok z → a.value h = .ok z :=
    fun h z value => valueOfRestrict (n := n) (begins ▸ value)
  refine ⟨linesShown (first.imp extend) fun h i value => ?_,
    linesShown (rest.imp extend) fun h i value => ?_⟩
  · simp only [roleLine, value, bind, Except.bind, ready.roleName]
    rfl
  · have text : toString (Int64.ofNat (x.host i).val) = toString (x.host i).val :=
      congrArg toString (placeExact small i)
    simp only [taskLine, value, bind, Except.bind, text]
    rfl

theorem solvedArrangements (hosts : 1 ≤ r.hosts) (roles : Listed p.roles 2 r.hostCount)
    (tasks : Listed p.tasks (2 + r.hostCount) r.tasks) (small : r.hostCount < 2 ^ 31)
    (imposed : Imposed p r.base w.model (Rules r.hostCount r.capacity.toInt)) :
    (·.restrict r.base.vars.length) '' {a | w.model.Solution a} =
      Arrangement.assignment ''
        {x : Arrangement r.tasks r.hostCount | x.Valid r.capacity.toInt} := by
  rw [imposed.refined.restricted (baseProper hosts), arrangedExact hosts roles tasks small]

theorem leastArranged (small : r.hostCount < 2 ^ 31) {m : Model} {n : Nat} {capacity : Int}
    (solved : (·.restrict n) '' {a | m.Solution a} = Arrangement.assignment ''
      {x : Arrangement r.tasks r.hostCount | x.Valid capacity})
    (solution : m.Solution a) (least : ∀ b, m.Solution b → a = b ∨ a.values < b.values) :
    ∃ x : Arrangement r.tasks r.hostCount, x.First capacity ∧ a.restrict n = x.assignment := by
  obtain ⟨x, valid, begins⟩ := solved.subset (Set.mem_image_of_mem _ solution)
  refine ⟨x, ⟨valid, fun y other => ?_⟩, begins.symm⟩
  obtain ⟨b, solves, same⟩ := solved.superset (Set.mem_image_of_mem _ other)
  rcases least b solves with rfl | below
  · exact .inl (assignmentInjective small (begins.trans same))
  · rcases takeBelow below n with alike | before
    · exact .inl (assignmentInjective small
        (begins.trans ((congrArg Assignment.mk alike).trans same)))
    · refine .inr (readingBelow small ?_)
      rw [begins, ← same]
      exact before

end Shown

theorem firstPlacementShown (r : Request) (hosts : 1 ≤ r.hosts) (count : r.count = false)
    (small : (remains (plan r ⟨.empty, .empty⟩)).model.Small) :
    ∃ lines, report r = .ok ([s!"args = {r.text}",
        s!"model = {(remains (plan r ⟨.empty, .empty⟩)).model.summary}",
        s!"search space: {(remains (plan r ⟨.empty, .empty⟩)).model.searchSpace}"] ++ lines) ∧
      (((∀ x : Arrangement r.tasks r.hosts.toInt.toNat, ¬x.Valid r.capacity.toInt) ∧
          lines = ["no placement"]) ∨
        ∃ x : Arrangement r.tasks r.hosts.toInt.toNat, x.First r.capacity.toInt ∧
          lines = x.lines) := by
  obtain ⟨p, w, planned, ready, roles, tasks, smallBase, imposed⟩ := planReady hosts small
  rw [planned] at small
  have few : r.base.vars.length < 2 ^ 31 := smallBase
  rw [baseSize] at few
  have evaluates : w.model.Evaluates := imposed.evaluates (by simp [Evaluates, Request.base])
  have solved := solvedArrangements hosts roles tasks (by omega) imposed
  simp only [report, planned]
  rcases oneSolutionLeast evaluates imposed.proper small with ⟨one, none⟩ | ⟨a, one, solution, least⟩
  · refine ⟨["no placement"], ?_, .inl ⟨fun x valid => ?_, rfl⟩⟩
    · simp only [answer, count, one]
      rfl
    · obtain ⟨a, solution, _⟩ := solved.superset (Set.mem_image_of_mem _ valid)
      exact none a solution
  · obtain ⟨x, first, begins⟩ := leastArranged (by omega) solved solution least
    obtain ⟨shownRoles, shownTasks⟩ := arrangementShown ready roles tasks (by omega) begins
    refine ⟨x.lines, ?_, .inr ⟨x, first, rfl⟩⟩
    simp only [answer, count, one, bind, Except.bind, shownRoles, shownTasks]
    rfl

theorem firstPlacementShownOnce :
    let r : Request := ⟨2, 2, 1, false⟩
    1 ≤ r.hosts ∧ r.count = false ∧ ∃ head, report r = .ok (head ++ ["host 0 is web",
      "host 1 is db", "task 0 runs on host 1", "task 1 runs on host 0"]) ∧
      ∃ x : Arrangement r.tasks r.hosts.toInt.toNat, x.First r.capacity.toInt ∧
        x.lines = ["host 0 is web", "host 1 is db", "task 0 runs on host 1",
          "task 1 runs on host 0"] := by
  intro r
  have hosts : 1 ≤ r.hosts := by decide
  have small : (remains (plan r ⟨.empty, .empty⟩)).model.Small := by decide +kernel
  obtain ⟨lines, reported, shown⟩ := firstPlacementShown r hosts rfl small
  have found : (report r).toOption.map (·.drop 3) = some ["host 0 is web", "host 1 is db",
      "task 0 runs on host 1", "task 1 runs on host 0"] := by decide +kernel
  rw [reported] at found
  cases Option.some.inj found
  obtain ⟨_, other⟩ | ⟨x, first, same⟩ := shown
  · exact absurd other (by decide)
  · exact ⟨hosts, rfl, _, reported, x, first, same.symm⟩

end Placement

end ConstraintAlgebra
