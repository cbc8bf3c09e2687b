import ConstraintAlgebra.Proofs.Codes
import ConstraintAlgebra.Proofs.Runs

/-! Reading strings back. A literal that compares a variable with strings is true exactly when the
dictionary at the end of the run gives back such a string for the value of the variable, whenever the
strings were first seen. -/
namespace ConstraintAlgebra

open Encoding

section Asking

variable {E : Type} [Encoding E] {w v : Workspace E} {ops : Layer} {s : String} {c : Int64}
  {b h : Handle} {rel : Relation}

theorem comparandAsked (plain : rel.isOrdering = false)
    (ok : Layer.comparand rel (.str s) w = .ok c v) : Asked v.encoder s := by
  obtain ⟨_, _, found, _, _, stands⟩ := comparandStands (s := .str s) (fun _ => plain) w
  rw [found] at ok
  cases ok
  exact stands.asked s rfl

theorem compareAsked {x y z : Operand} (plain : rel.isOrdering = false)
    (sides : x = .var h ∧ y = .scalar (.str s) ∨ x = .scalar (.str s) ∧ y = .var h)
    (ok : ops.compare rel x y w = .ok z v) : (∃ b, z = .var b) ∧ Asked v.encoder s := by
  rcases sides with ⟨rfl, rfl⟩ | ⟨rfl, rfl⟩
  · cases Layer.compareCases ok with
    | handleFirst coded encoder _ => exact ⟨⟨_, rfl⟩, encoder ▸ comparandAsked plain coded⟩
  · cases Layer.compareCases ok with
    | scalarFirst coded encoder _ => exact ⟨⟨_, rfl⟩, encoder ▸ comparandAsked plain coded⟩

theorem memberAsked (S : List String)
    (ok : ops.memberLiteral (.var h) (S.map fun s => .scalar (.str s)) w = .ok b v) :
    ∀ s ∈ S, Asked v.encoder s := by
  intro s mem
  have listed : .scalar (.str s) ∈ S.map fun s => Operand.scalar (.str s) := List.mem_map_of_mem mem
  cases Layer.memberCases ok with
  | none empty =>
    rw [empty] at listed
    cases listed
  | one single ran =>
    rw [single] at listed
    cases List.mem_singleton.mp listed
    obtain ⟨z, compared, _⟩ := Layer.equalLiteralOk ran
    exact (compareAsked rfl (.inl ⟨rfl, rfl⟩) compared).2
  | @codes _ ss _ _ _ scalars coded encoder _ =>
    obtain ⟨_, _, found, _, stands⟩ := Scalar.codesStand ss w
    rw [coded] at found
    cases found
    rw [scalars] at listed
    obtain ⟨_, known, same⟩ := List.mem_map.mp listed
    cases same
    obtain ⟨c, _, stands⟩ := relatedTo stands known
    exact encoder ▸ stands.asked s rfl
  | each _ mixed => exact absurd (List.map_map ..).symm (mixed h (S.map .str) rfl)

theorem isTrueOfMarks {a : Assignment} {code : String → Int} {p : Prop}
    (marks : Marks ((a.reading code fun _ => 2).value b) p) :
    ∃ t, a.isTrue b = .ok t ∧ (t = true ↔ p) := by
  cases found : a.value b with
  | ok x =>
    rw [readingReads a code _ b x found] at marks
    refine ⟨x == 1, isTrueOk found, ?_⟩
    rw [beq_iff_eq, ← Int64.toInt_inj, Int64.toInt_one]
    exact marksOne marks
  | error e =>
    have other : (a.reading code fun _ => 2).value b = 2 := by simp only [Assignment.reading, found]
    rw [other] at marks
    exact absurd marks (by simp [Marks])

end Asking

namespace OperatorCall

/-- The call tests a variable against strings. Its literal has to be true exactly when what the
variable is decoded to has the property. -/
inductive Tests : OperatorCall → Handle → (Option String → Prop) → Prop
  | equal (h : Handle) (s : String) : Tests (.compare .eq (.var h) (.scalar (.str s))) h (· = some s)
  | equalTo (h : Handle) (s : String) : Tests (.compare .eq (.scalar (.str s)) (.var h)) h (· = some s)
  | differs (h : Handle) (s : String) : Tests (.compare .ne (.var h) (.scalar (.str s))) h (· ≠ some s)
  | differsFrom (h : Handle) (s : String) :
      Tests (.compare .ne (.scalar (.str s)) (.var h)) h (· ≠ some s)
  | inStrings (h : Handle) (S : List String) : Tests (.inStrings h S) h (∃ s ∈ S, · = some s)
  | isIn (h : Handle) (S : List String) :
      Tests (.isIn (.var h) (S.map fun s => .scalar (.str s))) h (∃ s ∈ S, · = some s)

variable {E : Type} [Encoding E] {w v : Workspace E} {ops : Layer} {call : OperatorCall}
  {reply : Reply} {ρ : Reading} {h : Handle} {P : Option String → Prop} {read : Option String}

theorem Tests.exact (tests : call.Tests h P) (ok : call.perform ops w = .ok reply v)
    (means : call.Means ρ reply)
    (decoded : ∀ s, Asked v.encoder s → (ρ.value h = ρ.code s ↔ read = some s)) :
    ∃ b, reply = .var b ∧ Marks (ρ.value b) (P read) := by
  cases tests with (simp only [perform, runMap] at ok; obtain ⟨z, ok, rfl⟩ := ok)
  | equal _ s =>
    obtain ⟨⟨b, rfl⟩, asked⟩ := compareAsked rfl (.inl ⟨rfl, rfl⟩) ok
    exact ⟨b, rfl, (marksCongr (decoded s asked)).mp means⟩
  | equalTo _ s =>
    obtain ⟨⟨b, rfl⟩, asked⟩ := compareAsked rfl (.inr ⟨rfl, rfl⟩) ok
    exact ⟨b, rfl, (marksCongr (eq_comm.trans (decoded s asked))).mp means⟩
  | differs _ s =>
    obtain ⟨⟨b, rfl⟩, asked⟩ := compareAsked rfl (.inl ⟨rfl, rfl⟩) ok
    exact ⟨b, rfl, (marksCongr (not_congr (decoded s asked))).mp means⟩
  | differsFrom _ s =>
    obtain ⟨⟨b, rfl⟩, asked⟩ := compareAsked rfl (.inr ⟨rfl, rfl⟩) ok
    exact ⟨b, rfl, (marksCongr (not_congr (eq_comm.trans (decoded s asked)))).mp means⟩
  | inStrings _ S =>
    have asked := memberAsked S ok
    refine ⟨z, rfl, (marksCongr ?_).mp means⟩
    exact exists_congr fun s => and_congr_right fun mem => decoded s (asked s mem)
  | isIn _ S =>
    simp only [Layer.isIn, runMap] at ok
    obtain ⟨b, ok, rfl⟩ := ok
    have asked := memberAsked S ok
    refine ⟨b, rfl, (marksCongr ?_).mp means⟩
    rw [someMapped]
    exact exists_congr fun s => and_congr_right fun mem => decoded s (asked s mem)

end OperatorCall

def Call.Fresh : Call Dictionary → Prop
  | .layer _ d => d.strings.Nodup
  | _ => True

namespace Session

variable {s : Session Dictionary} {call : Call Dictionary} {calls : List (Call Dictionary)}

def Distinct (s : Session Dictionary) : Prop := ∀ l ∈ s.layers, l.2.strings.Nodup

theorem stepDistinct (fresh : call.Fresh) (distinct : s.Distinct) : (s.step call).2.Distinct := by
  cases call with
  | model call =>
    rw [step, buildLeaves]
    exact distinct
  | layer settings d =>
    rw [step]
    rcases openLayerCases s settings d with ⟨ops, m, _, same⟩ | same
    · rw [same]
      exact List.forall_mem_append.mpr ⟨distinct, List.forall_mem_singleton.mpr fresh⟩
    · rw [same]
      exact distinct
  | operator place call =>
    cases found : s.layers[place]? with
    | none =>
      simp only [step, operate, found]
      exact distinct
    | some layer =>
      obtain ⟨ss, asked⟩ := (keepsPerform layer.1 call ⟨s.model, layer.2⟩).asked
      rw [step, operateLeaves found]
      intro l mem
      rcases List.mem_or_eq_of_mem_set mem with before | rfl
      · exact distinct l before
      · rw [asked]
        exact Dictionary.afterNodup (distinct layer (List.mem_of_getElem? found)) ss

theorem runDistinct (fresh : ∀ call ∈ calls, call.Fresh) (distinct : s.Distinct) :
    (s.run calls).Distinct := by
  induction calls generalizing s with
  | nil => exact distinct
  | cons call calls ih =>
    obtain ⟨first, rest⟩ := List.forall_mem_cons.mp fresh
    exact ih rest (stepDistinct first distinct)

/-- Literals read strings back: the literal of a call that tests a variable against strings is true in
a solution of the model at the end of the run exactly when the dictionary at the end of the run decodes
the value of the variable as the call asks for. There are no more strings than codes from 0 on. -/
theorem stringsReadBack (before after : List (Call Dictionary)) (place : Nat) (call : OperatorCall)
    {reply : Reply} {h : Handle} {P : Option String → Prop} {ops : Layer} {d : Dictionary}
    (built : ∀ c ∈ before ++ .operator place call :: after, c.Built)
    (fresh : ∀ c ∈ before ++ .operator place call :: after, c.Fresh)
    (opened : place < (start.run before).layers.length) (tests : call.Tests h P)
    (replied : ((start.run before).step (.operator place call)).1 = .ok reply)
    (small : (start.run (before ++ .operator place call :: after)).model.Small)
    (last : (start.run (before ++ .operator place call :: after)).layers[place]? = some (ops, d))
    (few : d.size ≤ 2 ^ 63) {a : Assignment}
    (solution : (start.run (before ++ .operator place call :: after)).model.check a = .ok true)
    {x : Int64} (value : a.value h = .ok x) :
    ∃ b t, reply = .var b ∧ a.isTrue b = .ok t ∧ (t = true ↔ P (d.string? x)) := by
  have distinct : d.strings.Nodup :=
    runDistinct fresh (by simp [Distinct, start]) (ops, d) (List.mem_of_getElem? last)
  rw [runAppend] at small last solution
  obtain ⟨first, others⟩ := List.forall_mem_append.mp built
  obtain ⟨_, rest⟩ := List.forall_mem_cons.mp others
  have sound := runSound first startSound
  generalize start.run before = s at *
  obtain ⟨⟨ops₀, e⟩, found⟩ : ∃ l, s.layers[place]? = some l := ⟨_, List.getElem?_eq_getElem opened⟩
  obtain ⟨w, ran, left⟩ := operateOk found (Prod.ext replied rfl)
  have follows : Follows ⟨w.model, s.layers.set place (ops₀, w.encoder)⟩
      (s.run (.operator place call :: after)) := left ▸ runFollows rest
  have grown := (keepsOk (keepsPerform ops₀ call) ran).grown
  have smallThen := Model.smallOfLe follows.grown.le small
  have inside := sound.layers (Model.smallOfLe grown.le smallThen) _ (List.mem_of_getElem? found)
  have earlier := Model.Solution.restrict (grown.proper sound.proper) follows.grown.le solution
  obtain ⟨ss, same⟩ := follows.layers (List.getElem?_set_self opened)
  rw [last] at same
  cases same
  -- A handle without a value is read as 2, which no literal is.
  let ρ := a.reading (fun s => ((Encoding.after w.encoder ss).encode s).1.toInt) (fun _ => 2)
  have reads : ρ.Reads a := readingReads a _ _
  have means := OperatorCall.performExact sound.proper inside smallThen ran earlier
    (reads.restrict _) (knowsOfStable fun _ => rfl).before
  have decoded : ∀ t, Asked w.encoder t →
      (ρ.value h = ρ.code t ↔ (Encoding.after w.encoder ss).string? x = some t) := by
    intro t asked
    have listed := Dictionary.askedListed (asked.later ss)
    rw [reads h x value, Dictionary.stringExact distinct few listed]
    exact Int64.toInt_inj
  obtain ⟨b, same, marks⟩ := tests.exact ran means decoded
  obtain ⟨t, known, exact⟩ := isTrueOfMarks marks
  exact ⟨b, t, same, known, exact⟩

theorem stringsReadBackOnce :
    let h : Handle := ⟨3, by decide⟩
    let before : List (Call Dictionary) :=
      [.layer .standard .empty, .model (.int 0 2 "x"), .operator 0 (.encode "b")]
    let call : OperatorCall := .inStrings h ["a", "b"]
    let after : List (Call Dictionary) := [.operator 0 (.encode "c")]
    let final := start.run (before ++ .operator 0 call :: after)
    let d : Dictionary := ⟨["b", "a", "c"]⟩
    let a : Assignment := ⟨[1, 0, 2, 0]⟩
    final.layers = [(⟨⟨1, by decide⟩, ⟨2, by decide⟩, .standard⟩, d)] ∧
      final.model.check a = .ok true ∧ a.value h = .ok 2 ∧ d.string? 2 = some "c" ∧
      ∃ b t, ((start.run before).step (.operator 0 call)).1 = .ok (.var b) ∧
        a.isTrue b = .ok t ∧ t = false := by
  intro h before call after final d a
  have layers : final.layers = [(⟨⟨1, by decide⟩, ⟨2, by decide⟩, .standard⟩, d)] := rfl
  have last : final.layers[0]? = some (⟨⟨1, by decide⟩, ⟨2, by decide⟩, .standard⟩, d) :=
    congrArg (·[0]?) layers
  have solution : final.model.check a = .ok true := rfl
  have value : a.value h = .ok 2 := rfl
  have tests : call.Tests h (∃ s ∈ ["a", "b"], · = some s) := .inStrings h ["a", "b"]
  have read : d.string? 2 = some "c" := rfl
  have replied : ((start.run before).step (.operator 0 call)).1 = .ok (.var ⟨4, by decide⟩) := rfl
  obtain ⟨b, t, same, found, exact⟩ := stringsReadBack before after 0 call
    (by simp [before, after, call, Call.Built]) (by simp [before, after, Call.Fresh, Dictionary.empty])
    (by decide) tests replied (by decide) last (by decide) solution value
  refine ⟨layers, solution, value, read, b, t, same ▸ replied, found, ?_⟩
  rw [read] at exact
  simpa using exact

end Session

end ConstraintAlgebra
