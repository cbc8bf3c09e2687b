import ConstraintAlgebra.Proofs.Enumeration
import ConstraintAlgebra.Proofs.PlacementRules

/-! The number of placements. The variables of a plan, before any rule, have one assignment for every
arrangement of roles and tasks, and the rules leave those of the arrangements that are valid. -/
namespace ConstraintAlgebra.Placement

open Model

inductive Role where
  | web
  | db
  deriving DecidableEq, Repr

structure Arrangement (tasks hosts : Nat) where
  role : Fin hosts → Role
  host : Fin tasks → Fin hosts

namespace Arrangement

variable {tasks hosts : Nat}

structure Valid (capacity : Int) (x : Arrangement tasks hosts) : Prop where
  first : ∀ t, t.val = 0 → x.role (x.host t) = .db
  apart : ∀ s t, s.val = 0 → t.val = 1 → x.host s ≠ x.host t
  within : ∀ h, ((Finset.univ.filter fun t => x.host t = h).card : Int) ≤ capacity
  web : ∃ h, x.role h = .web

end Arrangement

def Role.code : Role → Int64
  | .web => 0
  | .db => 1

theorem Role.codeExact {x : Role} : (x.code.toInt = 1 ↔ x = .db) ∧ (x.code.toInt = 0 ↔ x = .web) := by
  cases x <;> decide

namespace Arrangement

variable {tasks hosts : Nat} {x : Arrangement tasks hosts} {capacity : Int}

def roles (x : Arrangement tasks hosts) : List Int64 := List.ofFn fun h => (x.role h).code

def places (x : Arrangement tasks hosts) : List Int64 := List.ofFn fun t => .ofNat (x.host t).val

theorem loadExact (h : Fin hosts) :
    ((List.ofFn fun t => ((x.host t).val : Int)).map fun t => if t = (h.val : Int) then 1 else 0).sum =
      ((Finset.univ.filter fun t => x.host t = h).card : Int) := by
  rw [List.map_ofFn, List.sum_ofFn]
  simp [Fin.ext_iff]

theorem ofFnAt {α : Type} {n : Nat} {f : Fin n → α} {i : Nat} {y : α} :
    (List.ofFn f)[i]? = some y ↔ ∃ h : i < n, f ⟨i, h⟩ = y := by
  rw [List.getElem?_ofFn]
  split
  · rename_i inside
    simp [inside]
  · rename_i outside
    simp [outside]

theorem rulesValid (rules : Rules hosts capacity (List.ofFn fun h => (x.role h).code.toInt)
    (List.ofFn fun t => ((x.host t).val : Int))) : x.Valid capacity where
  first t zero := by
    have head := rules.first (x.host t) (x.host t).isLt
    rw [List.head?_eq_getElem?, ofFnAt, ofFnAt] at head
    obtain ⟨_, db⟩ := head ⟨zero ▸ t.isLt, by simp [← zero]⟩
    exact Role.codeExact.1.mp db
  apart s t zero one same := by
    obtain ⟨k, rfl⟩ : ∃ k, tasks = k + 2 := ⟨tasks - 2, by omega⟩
    have first : s = 0 := Fin.ext zero
    have second : t = 1 := Fin.ext one
    have apart := rules.apart (x.host 0) (x.host 1) (List.ofFn fun i => x.host i.succ.succ)
    rw [List.ofFn_succ, List.ofFn_succ] at apart
    exact apart rfl (by rw [← first, ← second, same])
  within h := by
    rw [← loadExact]
    exact rules.within h (List.mem_range.mpr h.isLt)
  web := by
    obtain ⟨h, same⟩ := List.mem_ofFn.mp rules.web
    exact ⟨h, Role.codeExact.2.mp same⟩

theorem validRules (valid : x.Valid capacity) : Rules hosts capacity
    (List.ofFn fun h => (x.role h).code.toInt) (List.ofFn fun t => ((x.host t).val : Int)) where
  first i below head := by
    rw [List.head?_eq_getElem?, ofFnAt] at head
    obtain ⟨some, same⟩ := head
    have db := valid.first ⟨0, some⟩ rfl
    refine ofFnAt.mpr ⟨below, Role.codeExact.1.mpr ?_⟩
    rw [← db]
    congr 1
    exact Fin.ext (by exact_mod_cast same.symm)
  apart s t rest split same := by
    have first : (List.ofFn fun t => ((x.host t).val : Int))[0]? = some s := by rw [split]; rfl
    have second : (List.ofFn fun t => ((x.host t).val : Int))[1]? = some t := by rw [split]; rfl
    obtain ⟨some, first⟩ := ofFnAt.mp first
    obtain ⟨more, second⟩ := ofFnAt.mp second
    refine valid.apart ⟨0, some⟩ ⟨1, more⟩ rfl rfl (Fin.ext ?_)
    exact_mod_cast first.trans (same.trans second.symm)
  within h below := by
    rw [loadExact ⟨h, List.mem_range.mp below⟩]
    exact valid.within _
  web := by
    obtain ⟨h, web⟩ := valid.web
    exact List.mem_ofFn.mpr ⟨h, Role.codeExact.2.mpr web⟩

theorem rulesExact : Rules hosts capacity (List.ofFn fun h => (x.role h).code.toInt)
    (List.ofFn fun t => ((x.host t).val : Int)) ↔ x.Valid capacity :=
  ⟨rulesValid, validRules⟩

end Arrangement

structure Listed (hs : List Handle) (place n : Nat) : Prop where
  places : hs.map Handle.index = List.range' place n
  signs : ∀ h ∈ hs, h.isNegated = false

theorem Listed.length {hs : List Handle} {place n : Nat} (listed : Listed hs place n) :
    hs.length = n := by
  simpa using congrArg List.length listed.places

theorem segmentAt {α : Type} (before : List α) {xs : List α} (after : List α) {i : Nat}
    (inside : i < xs.length) : (before ++ xs ++ after)[before.length + i]? = xs[i]? := by
  rw [List.append_assoc, List.getElem?_append_right (by omega), Nat.add_sub_cancel_left,
    List.getElem?_append_left inside]

theorem Listed.values {hs : List Handle} {place n : Nat} (listed : Listed hs place n) (a : Assignment)
    (before xs after : List Int64) (values : a.values = before ++ xs ++ after)
    (start : before.length = place) (size : xs.length = n) :
    List.Forall₂ (fun h x => a.value h = .ok x) hs xs := by
  refine List.forall₂_iff_get.mpr ⟨listed.length.trans size.symm, fun i left right => ?_⟩
  have index : hs[i].index = place + i := by
    have := congrArg (·[i]?) listed.places
    simpa [left, ← listed.length] using this
  refine valueOk.mpr ⟨xs[i], ?_, by simp [listed.signs]⟩
  change a.values[hs[i].index]? = _
  rw [index, values, ← start, segmentAt before after right, List.getElem?_eq_getElem right]

theorem numbersOfValues {a : Assignment} {hs : List Handle} {xs : List Int64}
    (values : List.Forall₂ (fun h x => a.value h = .ok x) hs xs) :
    hs.map a.number = xs.map Int64.toInt := by
  induction values with
  | nil => rfl
  | cons value _ ih =>
    rw [List.map_cons, List.map_cons, ih, Assignment.number, readingReads _ _ _ _ _ value]

theorem variablesAchieve {α : Type} {d : Domain} {name : α → String} (inhabited : d.intervals ≠ [])
    (canonical : d.Canonical) (xs : List α) (w : Workspace Dictionary) :
    Achieves (xs.mapM fun x => (liftM (Model.newVariable d (name x)) : Planning Handle)) w
      fun hs v => Listed hs w.model.vars.length xs.length ∧
        v = ⟨⟨w.model.vars ++ xs.map fun x => ⟨d, name x⟩, w.model.constraints⟩, w.encoder⟩ := by
  induction xs generalizing w with
  | nil => exact fun _ => ⟨[], w, rfl, ⟨rfl, by simp⟩, by simp⟩
  | cons x xs ih =>
    have keeps : Keeps Later (xs.mapM fun x =>
        (liftM (Model.newVariable d (name x)) : Planning Handle)) :=
      keepsMapM (fun _ => keepsOnModel (keepsNewVariable canonical)) xs
    rw [List.mapM_cons]
    refine achievesBind (fun _ => keepsBind keeps fun _ => keepsPure _)
      ((succeedsOnModel (newVariableSucceeds inhabited)).achieves fun h v ok small => ?_)
      fun h v (made : w.model.Next h ∧ v = ⟨w.model.extended ⟨d, name x⟩ [], w.encoder⟩) => ?_
    · obtain ⟨ran, encoder⟩ := runOnModel.mp ok
      obtain ⟨_, same, next⟩ := newVariableOk ran
      exact ⟨next small, by rw [← same, encoder]⟩
    obtain ⟨next, rfl⟩ := made
    refine achievesBind (fun _ => keepsPure _) (ih _) fun hs u after => ?_
    obtain ⟨listed, rfl⟩ := after
    refine fun _ => ⟨h :: hs, _, rfl, ⟨?_, List.forall_mem_cons.mpr ⟨next.sign, listed.signs⟩⟩, ?_⟩
    · rw [List.map_cons, listed.places, next.place, List.length_cons, List.range'_succ]
      simp [extended]
    · simp [extended]

def Request.hostCount (r : Request) : Nat := r.hosts.toInt.toNat

def Request.roleVars (r : Request) : List Variable :=
  (List.range r.hostCount).map fun h => ⟨⟨[⟨0, 1⟩]⟩, s!"role{h}"⟩

def Request.taskVars (r : Request) : List Variable :=
  (List.range r.tasks).map fun t => ⟨⟨[⟨0, r.hosts - 1⟩]⟩, s!"task{t}"⟩

def constants : Model := ⟨[⟨.constant 1, ""⟩, ⟨.constant 0, ""⟩], []⟩

def Request.base (r : Request) : Model := ⟨constants.vars ++ r.roleVars ++ r.taskVars, []⟩

theorem lastHost {r : Request} (hosts : 1 ≤ r.hosts) :
    (r.hosts - 1).toInt = r.hostCount - 1 ∧ 1 ≤ r.hostCount := by
  have one : 1 ≤ r.hosts.toInt := Int64.le_iff_toInt_le.mp hosts
  rw [predToInt (by rw [Int64.toInt_minValue]; omega), Request.hostCount]
  omega

theorem placesProper {r : Request} (hosts : 1 ≤ r.hosts) : 0 ≤ r.hosts - 1 := by
  obtain ⟨last, some⟩ := lastHost hosts
  rw [Int64.le_iff_toInt_le, last, Int64.toInt_zero]
  omega

theorem declareAchieves {r : Request} (hosts : 1 ≤ r.hosts) (m : Model) :
    Achieves (declare r) ⟨m, .empty⟩ fun p w => Listed p.roles m.vars.length r.hostCount ∧
      Listed p.tasks (m.vars.length + r.hostCount) r.tasks ∧
      w = ⟨⟨m.vars ++ r.roleVars ++ r.taskVars, m.constraints⟩, ⟨["web", "db"]⟩⟩ := by
  have bits : Domain.ofValues [0, 1] = ⟨[⟨0, 1⟩]⟩ := by decide
  have le := placesProper hosts
  have canonical : (Domain.mk [⟨0, r.hosts - 1⟩]).Canonical := .single le
  have places : ∀ name, Model.newInt 0 (r.hosts - 1) name =
      Model.newVariable ⟨[⟨0, r.hosts - 1⟩]⟩ name := fun name => by
    rw [Model.newInt, Domain.interval, if_pos le]
    rfl
  have keeps : Keeps Later ((List.range r.tasks).mapM fun t =>
      (liftM (Model.newInt 0 (r.hosts - 1) s!"task{t}") : Planning Handle)) :=
    keepsMapM (fun _ => keepsOnModel (keepsNewInt _ _ _)) _
  -- The codes of the two strings come first, then the variables of the roles and of the tasks.
  refine achievesAfter (a := 0) (t := ⟨m, ⟨["web"]⟩⟩) rfl ?_
  refine achievesAfter (a := 1) (t := ⟨m, ⟨["web", "db"]⟩⟩) rfl ?_
  rw [bits]
  refine achievesBind (fun _ => keepsBind keeps fun _ => keepsPure _)
    (variablesAchieve (by simp) (.single (by decide)) (List.range r.hostCount) _) ?_
  intro roles w declared
  obtain ⟨listedRoles, same⟩ := declared
  subst same
  simp only [places]
  refine achievesBind (fun _ => keepsPure _)
    (variablesAchieve (d := ⟨[⟨0, r.hosts - 1⟩]⟩) (by simp) canonical (List.range r.tasks) _) ?_
  intro tasks w declared
  obtain ⟨listedTasks, same⟩ := declared
  subst same
  simp only [List.length_range, List.length_append, List.length_map] at listedRoles listedTasks
  refine fun _ => ⟨⟨roles, tasks⟩, _, rfl, listedRoles, listedTasks, ?_⟩
  rw [Request.roleVars, Request.taskVars]

theorem baseProper {r : Request} (hosts : 1 ≤ r.hosts) : r.base.Proper where
  canonical := by
    simp only [Request.base, Request.roleVars, Request.taskVars, List.forall_mem_append,
      List.forall_mem_map]
    refine ⟨⟨?_, fun _ _ => .single (by decide)⟩, fun _ _ => .single (placesProper hosts)⟩
    simpa [constants] using ⟨.single (by decide), .single (by decide)⟩
  inhabited := by
    simp only [Request.base, Request.roleVars, Request.taskVars, List.forall_mem_append,
      List.forall_mem_map]
    simp [constants, Domain.constant]
  owned := by simp [Request.base]

theorem baseAdmits {r : Request} (hosts : 1 ≤ r.hosts) {a : Assignment} :
    r.base.Admits a ↔ ∃ roles tasks : List Int64, a.values = [1, 0] ++ roles ++ tasks ∧
      (roles.length = r.hostCount ∧ ∀ x ∈ roles, x = 0 ∨ x = 1) ∧
      tasks.length = r.tasks ∧ ∀ x ∈ tasks, 0 ≤ x.toInt ∧ x.toInt < (r.hostCount : Int) := by
  have fixed : ∀ us : List Int64, List.Forall₂ (fun (v : Variable) x => x ∈ v.domain)
      constants.vars us ↔ us = [1, 0] := by
    intro us
    simp [constants, List.forall₂_cons_left_iff, Domain.constantExact]
  have roleVars : ∀ us : List Int64, List.Forall₂ (fun (v : Variable) x => x ∈ v.domain)
      r.roleVars us ↔ us.length = r.hostCount ∧ ∀ x ∈ us, x = 0 ∨ x = 1 := by
    intro us
    have bit : ∀ v ∈ r.roleVars, ∀ x, x ∈ v.domain ↔ x = 0 ∨ x = 1 := by
      refine List.forall_mem_map.mpr fun _ _ x => ⟨bitCases, fun bit => ?_⟩
      exact Domain.containsExact.mp (by rcases bit with rfl | rfl <;> rfl)
    rw [relatedUniform bit, Request.roleVars, List.length_map, List.length_range]
  have taskVars : ∀ us : List Int64, List.Forall₂ (fun (v : Variable) x => x ∈ v.domain)
      r.taskVars us ↔ us.length = r.tasks ∧ ∀ x ∈ us, 0 ≤ x.toInt ∧ x.toInt < (r.hostCount : Int) := by
    intro us
    have place : ∀ v ∈ r.taskVars, ∀ x, x ∈ v.domain ↔
        0 ≤ x.toInt ∧ x.toInt < (r.hostCount : Int) := by
      refine List.forall_mem_map.mpr fun _ _ x => ?_
      simp only [Domain.memExact, List.mem_singleton, exists_eq_left, Interval.memExact,
        (lastHost hosts).1, Int64.toInt_zero]
      omega
    rw [relatedUniform place, Request.taskVars, List.length_map, List.length_range]
  rw [Admits, Request.base, relatedAppend]
  simp only [relatedAppend, fixed, roleVars, taskVars]
  constructor
  · rintro ⟨_, tasks, values, ⟨_, roles, rfl, rfl, left⟩, right⟩
    exact ⟨roles, tasks, values, left, right⟩
  · rintro ⟨roles, tasks, values, left, right⟩
    exact ⟨_, tasks, values, ⟨_, roles, rfl, rfl, left⟩, right⟩

def Arrangement.assignment {tasks hosts : Nat} (x : Arrangement tasks hosts) : Assignment :=
  ⟨[1, 0] ++ x.roles ++ x.places⟩

section Arranged

variable {r : Request} {p : Plan} {x : Arrangement r.tasks r.hostCount}

theorem placeExact (small : r.hostCount < 2 ^ 31) (t : Fin r.tasks) :
    (Int64.ofNat (x.host t).val).toInt = (x.host t).val :=
  Int64.toInt_ofNat_of_lt (by have := (x.host t).isLt; omega)

theorem assignmentAdmitted (hosts : 1 ≤ r.hosts) (small : r.hostCount < 2 ^ 31) :
    r.base.Admits x.assignment := by
  refine (baseAdmits hosts).mpr ⟨x.roles, x.places, rfl, ⟨by simp [Arrangement.roles], ?_⟩,
    by simp [Arrangement.places], ?_⟩
  · simp only [Arrangement.roles, List.forall_mem_ofFn_iff]
    intro h
    cases x.role h
    · exact .inl rfl
    · exact .inr rfl
  · simp only [Arrangement.places, List.forall_mem_ofFn_iff, placeExact small]
    intro t
    have := (x.host t).isLt
    omega

theorem admittedArranged (hosts : 1 ≤ r.hosts) {a : Assignment} (admits : r.base.Admits a) :
    ∃ x : Arrangement r.tasks r.hostCount, x.assignment = a := by
  obtain ⟨roles, tasks, values, ⟨manyRoles, bits⟩, manyTasks, places⟩ := (baseAdmits hosts).mp admits
  have place : ∀ t : Fin r.tasks, (tasks.getD t 0).toInt.toNat < r.hostCount := fun t => by
    have inside : t.val < tasks.length := t.isLt.trans_eq manyTasks.symm
    have := places tasks[t.val] (List.getElem_mem inside)
    rw [List.getD_eq_getElem _ _ inside]
    omega
  let role : Fin r.hostCount → Role := fun h => if roles.getD h 0 = 0 then .web else .db
  let host : Fin r.tasks → Fin r.hostCount := fun t => ⟨_, place t⟩
  have left : (List.ofFn fun h => (role h).code) = roles := by
    refine List.ext_getElem (by simp [manyRoles]) fun i _ inside => ?_
    simp only [List.getElem_ofFn, role, List.getD_eq_getElem _ _ inside]
    rcases bits roles[i] (List.getElem_mem inside) with zero | one
    · rw [if_pos zero, zero]
      rfl
    · rw [if_neg (by rw [one]; decide), one]
      rfl
  have right : (List.ofFn fun t => Int64.ofNat (host t).val) = tasks := by
    refine List.ext_getElem (by simp [manyTasks]) fun i _ inside => ?_
    simp only [List.getElem_ofFn, host, List.getD_eq_getElem _ _ inside]
    have least := (places tasks[i] (List.getElem_mem inside)).1
    have most := tasks[i].toInt_lt
    exact Int64.toInt_inj.mp ((Int64.toInt_ofNat_of_lt (by omega)).trans (by omega))
  refine ⟨⟨role, host⟩, ?_⟩
  rw [Arrangement.assignment, Arrangement.roles, Arrangement.places, left, right, ← values]

theorem Role.codeInjective : Function.Injective Role.code := by
  intro x y same
  cases x <;> cases y <;> first | rfl | exact absurd same (by decide)

theorem assignmentInjective (small : r.hostCount < 2 ^ 31) :
    Function.Injective (Arrangement.assignment : Arrangement r.tasks r.hostCount → Assignment) := by
  intro x y same
  have lists : x.roles ++ x.places = y.roles ++ y.places := by
    simpa [Arrangement.assignment] using same
  obtain ⟨left, right⟩ := List.append_inj lists (by simp [Arrangement.roles])
  have role : x.role = y.role := funext fun h => Role.codeInjective (congrFun (List.ofFn_injective left) h)
  have host : x.host = y.host := funext fun t => by
    have values := congrArg Int64.toInt (congrFun (List.ofFn_injective right) t)
    rw [placeExact small, placeExact small] at values
    exact Fin.ext (by exact_mod_cast values)
  cases x
  cases y
  cases role
  cases host
  rfl

theorem arrangedValues (roles : Listed p.roles 2 r.hostCount)
    (tasks : Listed p.tasks (2 + r.hostCount) r.tasks) :
    List.Forall₂ (fun h n => x.assignment.value h = .ok n) p.roles x.roles ∧
      List.Forall₂ (fun h n => x.assignment.value h = .ok n) p.tasks x.places :=
  ⟨roles.values x.assignment [1, 0] x.roles x.places rfl rfl (by simp [Arrangement.roles]),
    tasks.values x.assignment ([1, 0] ++ x.roles) x.places [] (by simp [Arrangement.assignment])
      (by simp [Arrangement.roles]; omega) (by simp [Arrangement.places])⟩

theorem arrangedNumbers (roles : Listed p.roles 2 r.hostCount)
    (tasks : Listed p.tasks (2 + r.hostCount) r.tasks) (small : r.hostCount < 2 ^ 31) :
    p.roles.map x.assignment.number = (List.ofFn fun h => (x.role h).code.toInt) ∧
      p.tasks.map x.assignment.number = List.ofFn fun t => ((x.host t).val : Int) := by
  obtain ⟨first, rest⟩ := arrangedValues (x := x) roles tasks
  rw [numbersOfValues first, numbersOfValues rest, Arrangement.roles, Arrangement.places,
    List.map_ofFn, List.map_ofFn]
  exact ⟨rfl, congrArg List.ofFn (funext fun t => placeExact small t)⟩

theorem arrangedExact (hosts : 1 ≤ r.hosts) (roles : Listed p.roles 2 r.hostCount)
    (tasks : Listed p.tasks (2 + r.hostCount) r.tasks) (small : r.hostCount < 2 ^ 31)
    (capacity : Int) : {a | r.base.Solution a ∧
        Rules r.hostCount capacity (p.roles.map a.number) (p.tasks.map a.number)} =
      Arrangement.assignment '' {x : Arrangement r.tasks r.hostCount | x.Valid capacity} := by
  ext a
  constructor
  · rintro ⟨solution, rules⟩
    obtain ⟨x, rfl⟩ := admittedArranged hosts (solutionExact.mp solution).1
    obtain ⟨left, right⟩ := arrangedNumbers (x := x) roles tasks small
    rw [left, right] at rules
    exact ⟨x, Arrangement.rulesExact.mp rules, rfl⟩
  · rintro ⟨x, valid, rfl⟩
    obtain ⟨left, right⟩ := arrangedNumbers (x := x) roles tasks small
    refine ⟨solutionExact.mpr ⟨assignmentAdmitted hosts small, by simp [Request.base]⟩, ?_⟩
    rw [left, right]
    exact Arrangement.rulesExact.mpr valid

theorem arrangedCount (hosts : 1 ≤ r.hosts) (roles : Listed p.roles 2 r.hostCount)
    (tasks : Listed p.tasks (2 + r.hostCount) r.tasks) (small : r.hostCount < 2 ^ 31)
    (capacity : Int) : {a | r.base.Solution a ∧
        Rules r.hostCount capacity (p.roles.map a.number) (p.tasks.map a.number)}.encard =
      {x : Arrangement r.tasks r.hostCount | x.Valid capacity}.encard := by
  rw [arrangedExact hosts roles tasks small, (assignmentInjective small).encard_image]

end Arranged

def layer : Layer := ⟨⟨1, by decide⟩, ⟨2, by decide⟩, .standard⟩

theorem layerCreated : Layer.create .standard .empty = .ok layer constants := rfl

theorem Listed.found {hs : List Handle} {place n : Nat} (listed : Listed hs place n) {h : Handle}
    (mem : h ∈ hs) : ∃ i < n, h.index = place + i ∧ h.isNegated = false := by
  have index := List.mem_map_of_mem (f := Handle.index) mem
  rw [listed.places, List.mem_range'_1] at index
  exact ⟨h.index - place, by omega, by omega, listed.signs h mem⟩

theorem rolesEnd (r : Request) : (constants.vars ++ r.roleVars).length = 2 + r.hostCount := by
  rw [List.length_append, Request.roleVars, List.length_map, List.length_range]
  rfl

theorem baseReady {r : Request} {p : Plan} (hosts : 1 ≤ r.hosts)
    (roles : Listed p.roles 2 r.hostCount) (tasks : Listed p.tasks (2 + r.hostCount) r.tasks) :
    Ready layer p ⟨r.base, ⟨["web", "db"]⟩⟩ where
  proper := baseProper hosts
  inside := by
    have le : constants ≤ r.base :=
      ⟨⟨r.roleVars ++ r.taskVars, (List.append_assoc _ _ _).symm⟩, List.prefix_rfl⟩
    exact (Layer.createOk (by decide) layerCreated).later le
  ranged := by
    refine List.forall_mem_append.mpr ⟨fun h mem => ?_, fun h mem => ?_⟩
    · obtain ⟨i, inside, index, sign⟩ := roles.found mem
      refine ⟨_, boundsFound (v := ⟨⟨[⟨0, 1⟩]⟩, s!"role{i}"⟩) sign ?_ rfl⟩
      rw [index]
      refine (segmentAt constants.vars r.taskVars ?_).trans ?_
      · simpa [Request.roleVars] using inside
      · simp [Request.roleVars, inside]
    · obtain ⟨i, inside, index, sign⟩ := tasks.found mem
      refine ⟨_, boundsFound (v := ⟨⟨[⟨0, r.hosts - 1⟩]⟩, s!"task{i}"⟩) sign ?_ rfl⟩
      rw [index, ← rolesEnd r, Request.base, ← List.append_nil (_ ++ r.taskVars)]
      refine (segmentAt _ [] ?_).trans ?_
      · simpa [Request.taskVars] using inside
      · simp [Request.taskVars, inside]
  named := ⟨[], rfl⟩

theorem baseSize (r : Request) : r.base.vars.length = 2 + r.hostCount + r.tasks := by
  rw [Request.base, List.length_append, rolesEnd, Request.taskVars, List.length_map, List.length_range]

theorem planReady {r : Request} (hosts : 1 ≤ r.hosts) :
    Achieves (plan r) ⟨.empty, .empty⟩ fun p w => Ready layer p w ∧ Listed p.roles 2 r.hostCount ∧
      Listed p.tasks (2 + r.hostCount) r.tasks ∧ r.base.Small ∧
      Imposed p r.base w.model (Rules r.hostCount r.capacity.toInt) := by
  refine achievesAfter (a := layer) (t := ⟨constants, .empty⟩)
    (runOnModel.mpr ⟨layerCreated, rfl⟩) ?_
  refine achievesBind (fun p => keepsBind (keepsConstrain layer r p) fun _ => keepsPure _)
    (declareAchieves hosts constants).small ?_
  rintro p w ⟨⟨roles, tasks, rfl⟩, small⟩
  have few : r.base.vars.length < 2 ^ 31 := small
  rw [baseSize] at few
  have ready := baseReady hosts roles tasks
  refine achievesBind (fun _ => keepsPure _) (constrainImposes ready
    roles.length.symm (by rw [roles.length]; omega) (by rw [tasks.length]; omega)) ?_
  intro _ v ⟨later, imposed⟩
  rw [roles.length] at imposed
  exact fun _ => ⟨p, v, rfl, ready.later later, roles, tasks, small, imposed⟩

theorem planAchieves {r : Request} (hosts : 1 ≤ r.hosts) :
    Achieves (plan r) ⟨.empty, .empty⟩ fun p w => Listed p.roles 2 r.hostCount ∧
      Listed p.tasks (2 + r.hostCount) r.tasks ∧ r.base.Small ∧
      Imposed p r.base w.model (Rules r.hostCount r.capacity.toInt) :=
  (planReady hosts).imp fun _ _ => And.right

theorem placementsCounted (r : Request) (hosts : 1 ≤ r.hosts) (count : r.count = true)
    (small : (remains (plan r ⟨.empty, .empty⟩)).model.Small) :
    ∃ lines, report r = .ok lines ∧ lines.getLast? = some s!"placements: {Set.ncard
      {x : Arrangement r.tasks r.hosts.toInt.toNat | x.Valid r.capacity.toInt}}" := by
  obtain ⟨p, w, planned, roles, tasks, smallBase, imposed⟩ := planAchieves hosts small
  rw [planned] at small
  have evaluates : w.model.Evaluates := imposed.evaluates (by simp [Evaluates, Request.base])
  obtain ⟨n, counted, exact⟩ := solutionCountExact evaluates imposed.proper small
  have few : r.base.vars.length < 2 ^ 31 := smallBase
  rw [baseSize] at few
  rw [imposed.refined.count (baseProper hosts),
    arrangedCount hosts roles tasks (by omega)] at exact
  have same : Set.ncard {x : Arrangement r.tasks r.hosts.toInt.toNat | x.Valid r.capacity.toInt} = n :=
    congrArg ENat.toNat exact.symm
  have answered : answer r p w = .ok [s!"placements: {n}"] := by
    rw [answer, if_pos count, counted]
    rfl
  rw [same]
  simp only [report, planned, answered]
  exact ⟨_, rfl, by simp⟩

theorem placementsCountedOnce :
    let r : Request := ⟨2, 2, 1, true⟩
    1 ≤ r.hosts ∧ ∃ lines, report r = .ok lines ∧ lines.getLast? = some "placements: 2" ∧
      lines.getLast? = some s!"placements: {Set.ncard
        {x : Arrangement r.tasks r.hosts.toInt.toNat | x.Valid r.capacity.toInt}}" := by
  intro r
  have hosts : 1 ≤ r.hosts := by decide
  have small : (remains (plan r ⟨.empty, .empty⟩)).model.Small := by decide +kernel
  obtain ⟨lines, reported, last⟩ := placementsCounted r hosts rfl small
  have found : (report r).toOption.bind List.getLast? = some "placements: 2" := by decide +kernel
  rw [reported] at found
  exact ⟨hosts, lines, reported, found, last⟩

end ConstraintAlgebra.Placement
