import ConstraintAlgebra.Proofs.Meaning

/-! Runs of calls, those that fail included. Every step only adds to the model, so what a reply stands
for when it is given it still stands for at the end of the run. -/
namespace ConstraintAlgebra

/-- Domains come from their constructions; all other arguments are free. -/
def Call.Built {E : Type} : Call E → Prop
  | .model (.withDomain d _) => d.Built
  | _ => True

theorem ModelCall.keepsPerform {E : Type} (call : ModelCall)
    (built : (Call.model call : Call E).Built) : Keeps Model.Grown call.perform := by
  cases call with
  | int lo hi name => exact keepsBind (Model.keepsNewInt _ _ _) fun _ => keepsPure _
  | withDomain d name =>
    exact keepsBind (Model.keepsNewVariable (Domain.builtCanonical built)) fun _ => keepsPure _
  | bool name => exact keepsBind (Model.keepsNewInt _ _ _) fun _ => keepsPure _
  | constant x => exact keepsBind (Model.keepsNewInt _ _ _) fun _ => keepsPure _
  | post c g => exact keepsBind (Model.keepsPost _ _) fun _ => keepsPure _

theorem Model.constantOk {m n : Model} {x : Int64} {h : Handle} (small : n.Small)
    (ok : newConstant x m = .ok h n) : m ≤ n ∧ n.Constant h x := by
  obtain ⟨_, rfl, next⟩ := newIntOk ok
  have next := next small
  refine ⟨leExtended m _ _, next.sign, "", ?_⟩
  rw [next.place]
  exact List.getElem?_concat_length

theorem Layer.createOk {settings : Settings} {ops : Layer} {m n : Model} (small : n.Small)
    (ok : create settings m = .ok ops n) : ops.In n := by
  simp only [create, runBind, runPure] at ok
  obtain ⟨t, k, first, f, _, second, rfl, rfl⟩ := ok
  obtain ⟨le, isFalse⟩ := Model.constantOk small second
  obtain ⟨_, isTrue⟩ := Model.constantOk (Model.smallOfLe le small) first
  exact ⟨isTrue.later le, isFalse⟩

namespace Session

variable {E : Type} {s t u : Session E} {place : Nat} {call : Call E} {calls : List (Call E)}
  {ops : Layer} {e : E}

structure Sound (s : Session E) : Prop where
  proper : s.model.Proper
  layers : s.model.Small → ∀ l ∈ s.layers, l.1.In s.model

theorem startSound : (start : Session E).Sound where
  proper := ⟨by simp [start, Model.empty], by simp [start, Model.empty], by simp [start, Model.empty]⟩
  layers _ := by simp [start]

theorem buildLeaves {α : Type} (s : Session E) (action : Build α) :
    (s.build action).2 = ⟨remains (action s.model), s.layers⟩ := by
  rw [build]
  cases action s.model <;> rfl

theorem openLayerCases (s : Session E) (settings : Settings) (encoder : E) :
    (∃ ops m, Layer.create settings s.model = .ok ops m ∧
      (s.openLayer settings encoder).2 = ⟨m, s.layers ++ [(ops, encoder)]⟩) ∨
    (s.openLayer settings encoder).2 = ⟨remains (Layer.create settings s.model), s.layers⟩ := by
  simp only [openLayer, build]
  cases Layer.create settings s.model with
  | ok ops m => exact .inl ⟨ops, m, rfl, rfl⟩
  | error e m => exact .inr rfl

variable [Encoding E]

structure Follows (s t : Session E) : Prop where
  grown : Model.Grown s.model t.model
  layers : ∀ {place : Nat} {ops : Layer} {e : E}, s.layers[place]? = some (ops, e) →
    ∃ ss, t.layers[place]? = some (ops, Encoding.after e ss)

instance : IsPreorder (Session E) Follows where
  refl s := ⟨Std.Refl.refl _, fun found => ⟨[], found⟩⟩
  trans _ _ _ first second := by
    refine ⟨IsTrans.trans _ _ _ first.grown second.grown, fun {place ops e} found => ?_⟩
    obtain ⟨ss, middle⟩ := first.layers found
    obtain ⟨ts, last⟩ := second.layers middle
    exact ⟨ss ++ ts, by rw [last, Encoding.afterAppend]⟩

theorem operateFollows {w : Workspace E} (found : s.layers[place]? = some (ops, e))
    (later : Later ⟨s.model, e⟩ w) : s.Follows ⟨w.model, s.layers.set place (ops, w.encoder)⟩ where
  grown := later.grown
  layers {other _ _} at' := by
    simp only [List.getElem?_set]
    split
    · rename_i same
      subst same
      rw [found] at at'
      cases at'
      obtain ⟨ss, asked⟩ := later.asked
      rw [if_pos (List.getElem?_eq_some_iff.mp found).1]
      exact ⟨ss, congrArg (fun x => some (ops, x)) asked⟩
    · exact ⟨[], at'⟩

theorem operateLeaves {call : OperatorCall} (found : s.layers[place]? = some (ops, e)) :
    (s.operate place call).2 =
      let w := remains (call.perform ops ⟨s.model, e⟩)
      ⟨w.model, s.layers.set place (ops, w.encoder)⟩ := by
  simp only [operate, found]
  cases call.perform ops ⟨s.model, e⟩ <;> rfl

theorem operateOk {call : OperatorCall} {reply : Reply} (found : s.layers[place]? = some (ops, e))
    (ok : s.operate place call = (.ok reply, t)) : ∃ w, call.perform ops ⟨s.model, e⟩ = .ok reply w ∧
      t = ⟨w.model, s.layers.set place (ops, w.encoder)⟩ := by
  simp only [operate, found] at ok
  cases ran : call.perform ops ⟨s.model, e⟩ with
  | ok reply w => rw [ran] at ok; cases ok; exact ⟨w, rfl, rfl⟩
  | error e w => rw [ran] at ok; cases ok

theorem stepFollows (built : call.Built) : s.Follows (s.step call).2 := by
  cases call with
  | model call =>
    rw [step, buildLeaves]
    exact ⟨call.keepsPerform built s.model, fun found => ⟨[], found⟩⟩
  | layer settings encoder =>
    have keeps := Layer.keepsCreate settings s.model
    rw [step]
    rcases openLayerCases s settings encoder with ⟨ops, m, made, same⟩ | same
    · rw [made] at keeps
      rw [same]
      refine ⟨keeps, fun found => ⟨[], ?_⟩⟩
      exact (List.getElem?_append_left (List.getElem?_eq_some_iff.mp found).1).trans found
    · rw [same]
      exact ⟨keeps, fun found => ⟨[], found⟩⟩
  | operator place call =>
    cases found : s.layers[place]? with
    | none =>
      simp only [step, operate, found]
      exact Std.Refl.refl s
    | some layer =>
      rw [step, operateLeaves found]
      exact operateFollows found (keepsPerform layer.1 call _)

theorem runFollows (built : ∀ call ∈ calls, call.Built) : s.Follows (s.run calls) := by
  induction calls generalizing s with
  | nil => exact Std.Refl.refl s
  | cons call calls ih =>
    obtain ⟨first, rest⟩ := List.forall_mem_cons.mp built
    exact IsTrans.trans _ _ _ (stepFollows first) (ih rest)

theorem stepSound (built : call.Built) (sound : s.Sound) : (s.step call).2.Sound := by
  have follows := stepFollows built (s := s)
  refine ⟨follows.grown.proper sound.proper, fun small => ?_⟩
  have old : ∀ l ∈ s.layers, l.1.In (s.step call).2.model := fun l mem =>
    (sound.layers (Model.smallOfLe follows.grown.le small) l mem).later follows.grown.le
  cases call with
  | model call =>
    rw [step, buildLeaves] at *
    exact old
  | layer settings encoder =>
    rw [step] at *
    rcases openLayerCases s settings encoder with ⟨ops, m, made, same⟩ | same
    · rw [same] at small old ⊢
      exact List.forall_mem_append.mpr ⟨old,
        List.forall_mem_singleton.mpr (Layer.createOk small made)⟩
    · rw [same] at old ⊢
      exact old
  | operator place call =>
    cases found : s.layers[place]? with
    | none =>
      simp only [step, operate, found] at *
      exact old
    | some layer =>
      rw [step, operateLeaves found] at *
      intro l mem
      rcases List.mem_or_eq_of_mem_set mem with before | rfl
      · exact old l before
      · exact old layer (List.mem_of_getElem? found)

theorem runSound (built : ∀ call ∈ calls, call.Built) (sound : s.Sound) : (s.run calls).Sound := by
  induction calls generalizing s with
  | nil => exact sound
  | cons call calls ih =>
    obtain ⟨first, rest⟩ := List.forall_mem_cons.mp built
    exact ih rest (stepSound first sound)

theorem runAppend (before after : List (Call E)) : s.run (before ++ after) = (s.run before).run after :=
  List.foldl_append

/-- Results stay exact: what a successful call replied stands for the value of its expression in every
solution of the model at the end of the run. -/
theorem repliesExact [StableEncoding E] (before after : List (Call E)) (place : Nat)
    (call : OperatorCall) {reply : Reply}
    (built : ∀ c ∈ before ++ .operator place call :: after, c.Built)
    (opened : place < (start.run before).layers.length)
    (replied : ((start.run before).step (.operator place call)).1 = .ok reply)
    (small : (start.run (before ++ .operator place call :: after)).model.Small)
    (last : (start.run (before ++ .operator place call :: after)).layers[place]? = some (ops, e))
    {a : Assignment}
    (solution : (start.run (before ++ .operator place call :: after)).model.check a = .ok true)
    {ρ : Reading} (reads : ρ.Reads a) (codes : ∀ s, ρ.code s = (Encoding.encode e s).1.toInt) :
    call.Means ρ reply := by
  rw [runAppend] at small last solution
  obtain ⟨first, others⟩ := List.forall_mem_append.mp built
  obtain ⟨_, rest⟩ := List.forall_mem_cons.mp others
  have sound := runSound first startSound
  generalize start.run before = s at *
  obtain ⟨⟨ops₀, e₀⟩, found⟩ : ∃ l, s.layers[place]? = some l := ⟨_, List.getElem?_eq_getElem opened⟩
  obtain ⟨w, ran, left⟩ := operateOk found (Prod.ext replied rfl)
  have follows : Follows ⟨w.model, s.layers.set place (ops₀, w.encoder)⟩
      (s.run (.operator place call :: after)) := left ▸ runFollows rest
  -- The call is exact for the solution, cut back to the variables there were then.
  have grown := (keepsOk (keepsPerform ops₀ call) ran).grown
  have smallThen := Model.smallOfLe follows.grown.le small
  have inside := sound.layers (Model.smallOfLe grown.le smallThen) _ (List.mem_of_getElem? found)
  have earlier := Model.Solution.restrict (grown.proper sound.proper) follows.grown.le solution
  obtain ⟨ss, same⟩ := follows.layers (List.getElem?_set_self opened)
  rw [last] at same
  cases same
  exact OperatorCall.performExact sound.proper inside smallThen ran earlier (reads.restrict _)
    (knowsOfStable codes).before

theorem repliesExactOnce :
    let h : Handle := ⟨3, by decide⟩
    let before : List (Call Dictionary) :=
      [.layer .standard .empty, .model (.int 0 2 "x"), .operator 0 (.encode "b")]
    let call : OperatorCall := .inStrings h ["a", "b"]
    let after : List (Call Dictionary) :=
      [.operator 0 (.div (.var h) (.scalar (.long 0))), .model (.post (.compare h .ge (.const 1)) none)]
    let final := start.run (before ++ .operator 0 call :: after)
    let a : Assignment := ⟨[1, 0, 1, 1]⟩
    let ρ := a.reading (fun s => ((Dictionary.mk ["b", "a"]).encode s).1.toInt) (fun _ => 0)
    final.model.check a = .ok true ∧ call.Means ρ (.var ⟨4, by decide⟩) := by
  intro h before call after final a ρ
  have solution : final.model.check a = .ok true := rfl
  exact ⟨solution, repliesExact before after 0 call (by simp [before, after, call, Call.Built])
    (by decide) rfl (by decide) rfl solution (readingReads a _ _) fun s => rfl⟩

theorem operateConservative {call : OperatorCall} {reply : Reply} (sound : s.Sound)
    (definitional : call.Definitional) (replied : s.operate place call = (.ok reply, t))
    (small : t.model.Small) : s.model.Conservative t.model := by
  cases found : s.layers[place]? with
  | none =>
    simp only [operate, found] at replied
    cases replied
    exact Model.conservativeRefl s.model
  | some layer =>
    obtain ⟨w, ran, rfl⟩ := operateOk found replied
    have grown := (keepsOk (keepsPerform layer.1 call) ran).grown
    have inside := sound.layers (Model.smallOfLe grown.le small) _ (List.mem_of_getElem? found)
    exact (OperatorCall.performSettled definitional sound.proper inside small ran).conservative

/-- A call that only defines its result neither loses, adds nor duplicates a solution. -/
theorem callConservative (calls : List (Call E)) (place : Nat) (call : OperatorCall) {reply : Reply}
    (built : ∀ c ∈ calls, c.Built) (definitional : call.Definitional)
    (replied : (start.run calls).step (.operator place call) = (.ok reply, t))
    (small : t.model.Small) :
    let m := (start.run calls).model
    m ≤ t.model ∧
    (∀ a, m.check a = .ok true →
      ∃! b, t.model.check b = .ok true ∧ b.restrict m.vars.length = a) ∧
    (∀ b, t.model.check b = .ok true → m.check (b.restrict m.vars.length) = .ok true) ∧
    {b | t.model.check b = .ok true}.encard = {a | m.check a = .ok true}.encard := by
  intro m
  have sound := runSound built startSound
  have conservative := operateConservative sound definitional replied small
  refine ⟨conservative.le, fun a => conservative.extends,
    fun b => Model.Solution.restrict sound.proper conservative.le, ?_⟩
  have count := conservative.count sound.proper
  simp only [and_true] at count
  exact count

theorem callConservativeOnce :
    let calls : List (Call Dictionary) := [.layer .standard .empty, .model (.int 0 2 "x")]
    let call : OperatorCall := .inIntegers ⟨3, by decide⟩ [0, 2]
    let s : Session Dictionary := start.run calls
    let t := (s.step (.operator 0 call)).2
    t.model.Small ∧ s.model.check ⟨[1, 0, 1]⟩ = .ok true ∧
      {b | t.model.check b = .ok true}.encard = {a | s.model.check a = .ok true}.encard := by
  intro calls call s t
  have small : t.model.Small := by decide
  exact ⟨small, rfl,
    (callConservative calls 0 call (by simp [calls, Call.Built]) trivial rfl small).2.2.2⟩

end Session

end ConstraintAlgebra
