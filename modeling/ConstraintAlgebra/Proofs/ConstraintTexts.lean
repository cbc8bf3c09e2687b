import ConstraintAlgebra.Proofs.Evaluation
import ConstraintAlgebra.Proofs.Tokens

/-! The text of a posted constraint tells its guard and what it says. Only an equality has two forms, a
comparison and a sum of at most one plain term, and they agree on all assignments. -/
namespace ConstraintAlgebra

open Token

def handleTokens (h : Handle) : List Token := [.term (.var h)]

def summandTokens (s : Summand) : List Token :=
  if s.1 = 1 then [.term (.var s.2)]
  else [.term (.const s.1), .mark .factor, .term (.var s.2)]

def sumParts (terms : List Summand) (offset : Int64) : List (List Token) :=
  terms.map summandTokens ++
    if terms.isEmpty || offset != 0 then [[.term (.const offset)]] else []

def intervalTokens (i : Interval) : List Token :=
  if i.isPoint then [.term (.const i.lo)]
  else [.term (.const i.lo), .mark .range, .term (.const i.hi)]

def listing (m : Mark) (hs : List Handle) : List Token :=
  .mark m :: (joined .comma (hs.map handleTokens) ++ [.mark .close])

def equation (t : Handle) (ts : List Token) : List Token :=
  .term (.var t) :: .mark (.relation .eq) :: ts

@[simp]
theorem variableText (h : Handle) : toString (Term.var h) = toString h := rfl

theorem handleText (h : Handle) : written (handleTokens h) = (toString h).toList :=
  List.append_nil _

theorem summandTokensText (s : Summand) : written (summandTokens s) = (summandText s).toList := by
  obtain ⟨c, h⟩ := s
  rw [summandText, summandTokens]
  split
  · exact handleText h
  · rw [writtenTerm, writtenMark, String.toList_append, String.toList_append, List.append_assoc]
    exact congrArg _ (congrArg _ (handleText h))

theorem intervalTokensText (i : Interval) :
    written (intervalTokens i) = (Domain.intervalText i).toList := by
  rw [Domain.intervalText, intervalTokens]
  split
  · exact List.append_nil _
  · rw [writtenTerm, writtenMark, String.toList_append, String.toList_append, List.append_assoc]
    exact congrArg _ (congrArg _ (List.append_nil _))

@[simp]
theorem listingText (m : Mark) (hs : List Handle) :
    written (listing m hs) = m.text ++ (handleListText hs).toList ++ [')'] := by
  have list : written (joined .comma (hs.map handleTokens)) = (handleListText hs).toList := by
    rw [handleListText, String.toList_intercalate, writtenJoined]
    simp only [List.map_map, Function.comp_def, handleText]
    rfl
  rw [listing, writtenMark, writtenAppend, list, List.append_assoc]
  rfl

@[simp]
theorem equationText (t : Handle) (ts : List Token) :
    written (equation t ts) = (toString t).toList ++ [' ', '=', '=', ' '] ++ written ts := by
  rw [equation, writtenTerm, writtenMark, variableText, List.append_assoc]
  rfl

theorem intervalListTokens (d : Domain) :
    written (joined .comma (d.intervals.map intervalTokens)) =
      (", ".intercalate (d.intervals.map Domain.intervalText)).toList := by
  rw [String.toList_intercalate, writtenJoined]
  simp only [List.map_map, Function.comp_def, intervalTokensText]
  rfl

theorem sumTokensText (terms : List Summand) (offset : Int64) :
    written (joined .plus (sumParts terms offset)) = (sumText terms offset).toList := by
  rw [sumText, String.toList_intercalate, writtenJoined, sumParts]
  have shown : (terms.map summandTokens).map written = (terms.map summandText).map String.toList := by
    simp only [List.map_map, Function.comp_def, summandTokensText]
  have last : written [.term (.const offset)] = (toString offset).toList := List.append_nil _
  rw [List.map_append, shown]
  split
  · rw [List.map_append, List.map_singleton, List.map_singleton, last]
    rfl
  · rw [List.map_nil, List.append_nil]
    rfl

theorem handleParts (m : Mark) (hs : List Handle) : ∀ p ∈ hs.map handleTokens, Part m p := by
  intro p mem
  obtain ⟨h, -, rfl⟩ := List.mem_map.mp mem
  exact .inl ⟨_, rfl⟩

theorem sumPart {terms : List Summand} {offset : Int64} :
    ∀ p ∈ sumParts terms offset, Part .factor p := by
  intro p mem
  rcases List.mem_append.mp mem with shown | last
  · obtain ⟨s, -, rfl⟩ := List.mem_map.mp shown
    exact partIf
  · split at last
    · exact .inl ⟨_, List.mem_singleton.mp last⟩
    · cases last

theorem intervalParts (d : Domain) : ∀ p ∈ d.intervals.map intervalTokens, Part .range p := by
  intro p mem
  obtain ⟨i, -, rfl⟩ := List.mem_map.mp mem
  exact partIf

theorem listingSpaced (m : Mark) (hs : List Handle) : Spaced (listing m hs) := by
  have list : Spaced (joined .comma (hs.map handleTokens)) := partsSpaced (handleParts .factor hs)
  exact spacedAround .nil (spacedAround list .nil)

theorem equationSpaced {t : Handle} {ts : List Token} (spaced : Spaced ts) : Spaced (equation t ts) :=
  spacedAround (spacedSingle (.term (.var t))) spaced

theorem listingUnique {m : Mark} {hs ks : List Handle} (same : listing m hs = listing m ks) :
    hs = ks := by
  have lists := List.append_cancel_right (List.cons.inj same).2
  have parts := partsUnique (by decide) (handleParts .factor hs) (handleParts .factor ks) lists
  exact List.map_injective_iff.mpr (fun h k tokens => by cases tokens; rfl) parts

theorem equationUnique {t u : Handle} {ts us : List Token} (same : equation t ts = equation u us) :
    t = u ∧ ts = us := by
  cases same
  exact ⟨rfl, rfl⟩

theorem intervalUnique {i j : Interval} (same : intervalTokens i = intervalTokens j) : i = j := by
  obtain ⟨lo, hi⟩ := i
  obtain ⟨start, stop⟩ := j
  obtain ⟨point, other, first⟩ | ⟨-, -, first, last⟩ := partIfUnique same
  · simp only [Interval.isPoint, decide_eq_true_eq] at point other
    cases first
    rw [← point, ← other]
  · cases first
    cases last
    rfl

theorem domainUnique {d e : Domain} (same :
    joined .comma (d.intervals.map intervalTokens) =
      joined .comma (e.intervals.map intervalTokens)) : d = e := by
  have parts := partsUnique (by decide) (intervalParts d) (intervalParts e) same
  have intervals : d.intervals = e.intervals :=
    List.map_injective_iff.mpr (fun i j => intervalUnique) parts
  cases d
  cases intervals
  rfl

theorem summandUnique {s t : Summand} (same : summandTokens s = summandTokens t) : s = t := by
  obtain ⟨c, h⟩ := s
  obtain ⟨d, k⟩ := t
  obtain ⟨one, other, first⟩ | ⟨-, -, first, last⟩ := partIfUnique same
  · cases first
    exact Prod.ext (one.trans other.symm) rfl
  · cases first
    cases last
    rfl

def hasHandle (p : List Token) : Bool :=
  p.any fun
    | .term (.var _) => true
    | _ => false

theorem summandHandle (terms : List Summand) : ∀ p ∈ terms.map summandTokens, hasHandle p = true := by
  intro p mem
  obtain ⟨⟨c, h⟩, -, rfl⟩ := List.mem_map.mp mem
  rw [summandTokens]
  split <;> rfl

theorem offsetPlain {shown : Bool} {o : Int64} :
    ∀ p ∈ (if shown then [[Token.term (.const o)]] else []).head?, hasHandle p = false := by
  intro p mem
  cases shown <;> cases mem
  rfl

theorem sumUnique {terms others : List Summand} {o u : Int64}
    (same : joined .plus (sumParts terms o) = joined .plus (sumParts others u)) :
    terms = others ∧ o = u := by
  have parts := partsUnique (by decide) sumPart sumPart same
  obtain ⟨shown, offsets⟩ :=
    cancelRun (summandHandle terms) (summandHandle others) offsetPlain offsetPlain parts
  have same : terms = others := List.map_injective_iff.mpr (fun s t => summandUnique) shown
  subst same
  refine ⟨rfl, ?_⟩
  split at offsets
  · split at offsets
    · cases offsets
      rfl
    · cases offsets
  · split at offsets
    · cases offsets
    · simp_all

theorem sumSingle {terms : List Summand} {o : Int64} {t : Term}
    (same : [.term t] = joined .plus (sumParts terms o)) :
    terms = [] ∧ t = .const o ∨ ∃ h, terms = [(1, h)] ∧ o = 0 ∧ t = .var h := by
  have single : [.term t] = joined .plus [[.term t]] := List.intercalate_singleton.symm
  have part : ∀ p ∈ [[Token.term t]], Part .factor p :=
    fun p mem => .inl ⟨t, List.mem_singleton.mp mem⟩
  have parts := partsUnique (by decide) part sumPart (single.symm.trans same)
  cases terms with
  | nil =>
    cases parts
    exact .inl ⟨rfl, rfl⟩
  | cons s rest =>
    obtain ⟨c, h⟩ := s
    simp only [sumParts, List.map_cons, List.cons_append, List.cons.injEq] at parts
    obtain ⟨first, none⟩ := parts
    obtain ⟨alone, plain⟩ := List.append_eq_nil_iff.mp none.symm
    rw [summandTokens] at first
    split at first
    · rename_i one
      change c = 1 at one
      cases first
      exact .inr ⟨h, by rw [one, List.map_eq_nil_iff.mp alone], by simpa using plain, rfl⟩
    · cases first

namespace Constraint

def tokens : Constraint → List Token
  | compare left rel right => [.term (.var left), .mark (.relation rel), .term right]
  | linear target terms offset => equation target (joined .plus (sumParts terms offset))
  | greatest target vars => equation target (listing .greatest vars)
  | least target vars => equation target (listing .least vars)
  | product target left right =>
    equation target [.term (.var left), .mark .times, .term (.var right)]
  | quotient target numerator denominator =>
    equation target [.term (.var numerator), .mark .divided, .term denominator]
  | anyTrue lits => listing .anyTrue lits
  | allTrue lits => listing .allTrue lits
  | inside var domain =>
    .term (.var var) :: .mark .inside ::
      (joined .comma (domain.intervals.map intervalTokens) ++ [.mark .brace])

theorem relationText (r : Relation) :
    (" " ++ toString r ++ " ").toList = (Mark.relation r).text := by
  cases r <;> rfl

theorem text (c : Constraint) : (toString c).toList = written c.tokens := by
  cases c with
  | compare left rel right =>
    change (toString left ++ " " ++ toString rel ++ " " ++ toString right).toList = _
    simp [tokens, ← relationText]
  | linear target terms offset =>
    change (toString target ++ " == " ++ sumText terms offset).toList = _
    simp [tokens, sumTokensText]
  | greatest target vars =>
    change (toString target ++ " == max(" ++ handleListText vars ++ ")").toList = _
    simp [tokens, Mark.text]
  | least target vars =>
    change (toString target ++ " == min(" ++ handleListText vars ++ ")").toList = _
    simp [tokens, Mark.text]
  | product target left right =>
    change (toString target ++ " == " ++ toString left ++ " * " ++ toString right).toList = _
    simp [tokens, Mark.text]
  | quotient target numerator denominator =>
    change (toString target ++ " == " ++ toString numerator ++ " / " ++ toString denominator).toList = _
    simp [tokens, Mark.text]
  | anyTrue lits =>
    change ("or(" ++ handleListText lits ++ ")").toList = _
    simp [tokens, Mark.text]
  | allTrue lits =>
    change ("and(" ++ handleListText lits ++ ")").toList = _
    simp [tokens, Mark.text]
  | inside var domain =>
    change (toString var ++ " in " ++ ("\x7b" ++
      ", ".intercalate (domain.intervals.map Domain.intervalText) ++ "\x7d")).toList = _
    simp [tokens, intervalListTokens, Mark.text]

theorem spaced (c : Constraint) : Spaced c.tokens := by
  have pair : ∀ (t u : Term) (m : Mark), Spaced [.term t, .mark m, .term u] :=
    fun t u m => spacedAround (spacedSingle (.term t)) (spacedSingle (.term u))
  cases c with
  | compare left rel right => exact pair (.var left) right _
  | linear target terms offset => exact equationSpaced (partsSpaced sumPart)
  | greatest target vars => exact equationSpaced (listingSpaced .greatest vars)
  | least target vars => exact equationSpaced (listingSpaced .least vars)
  | product target left right => exact equationSpaced (pair (.var left) (.var right) _)
  | quotient target numerator denominator =>
    exact equationSpaced (pair (.var numerator) denominator _)
  | anyTrue lits => exact listingSpaced .anyTrue lits
  | allTrue lits => exact listingSpaced .allTrue lits
  | inside var domain =>
    have intervals : Spaced (joined .comma (domain.intervals.map intervalTokens)) :=
      partsSpaced (intervalParts domain)
    exact spacedAround (spacedSingle (.term (.var var))) (spacedAround intervals .nil)

/-- An equality written once as a comparison and once as a sum. -/
inductive Restates : Constraint → Constraint → Prop where
  | handle (l h : Handle) : Restates (compare l .eq (.var h)) (linear l [(1, h)] 0)
  | number (l : Handle) (c : Int64) : Restates (compare l .eq (.const c)) (linear l [] c)

variable {c d : Constraint} {t u : Handle} {terms : List Summand} {o : Int64}

theorem sumMarks {m : Mark} {ts : List Token} (mem : .mark m ∈ ts)
    (same : equation t ts = (linear u terms o).tokens) : m = .plus ∨ m = .factor := by
  obtain ⟨-, sum⟩ := equationUnique same
  exact partsMarks sumPart (sum ▸ mem)

theorem linearUnique (same : c.tokens = (linear t terms o).tokens) :
    c = linear t terms o ∨ c.Restates (linear t terms o) := by
  cases c with
  | compare left rel right =>
    obtain ⟨first, rest⟩ := List.cons.inj same
    obtain ⟨equal, side⟩ := List.cons.inj rest
    cases first
    cases equal
    obtain ⟨rfl, rfl⟩ | ⟨h, rfl, rfl, rfl⟩ := sumSingle side
    · exact .inr (.number t o)
    · exact .inr (.handle t h)
  | linear target others v =>
    obtain ⟨rfl, sums⟩ := equationUnique same
    obtain ⟨rfl, rfl⟩ := sumUnique sums
    exact .inl rfl
  | greatest target vars => simpa using sumMarks (m := .greatest) (by simp [listing]) same
  | least target vars => simpa using sumMarks (m := .least) (by simp [listing]) same
  | product target left right => simpa using sumMarks (m := .times) (by simp) same
  | quotient target numerator denominator => simpa using sumMarks (m := .divided) (by simp) same
  | _ => cases same

theorem tokensUnique (same : c.tokens = d.tokens) : c = d ∨ c.Restates d ∨ d.Restates c := by
  -- Sums apart, two forms differ in their first marks, so only constraints of one form are compared.
  cases c with
  | linear => exact (linearUnique same.symm).imp Eq.symm .inr
  | compare l r x =>
    cases d with
    | linear => exact (linearUnique same).imp_right .inl
    | compare l r x =>
      cases same
      exact .inl rfl
    | _ => cases same
  | greatest t vars =>
    cases d with
    | linear => exact (linearUnique same).imp_right .inl
    | greatest u others =>
      obtain ⟨rfl, lists⟩ := equationUnique same
      exact .inl (congrArg (greatest t) (listingUnique lists))
    | _ => cases same
  | least t vars =>
    cases d with
    | linear => exact (linearUnique same).imp_right .inl
    | least u others =>
      obtain ⟨rfl, lists⟩ := equationUnique same
      exact .inl (congrArg (least t) (listingUnique lists))
    | _ => cases same
  | product t l r =>
    cases d with
    | linear => exact (linearUnique same).imp_right .inl
    | product t l r =>
      cases same
      exact .inl rfl
    | _ => cases same
  | quotient t n m =>
    cases d with
    | linear => exact (linearUnique same).imp_right .inl
    | quotient t n m =>
      cases same
      exact .inl rfl
    | _ => cases same
  | anyTrue lits =>
    cases d with
    | linear => exact (linearUnique same).imp_right .inl
    | anyTrue others => exact .inl (congrArg anyTrue (listingUnique same))
    | _ => cases same
  | allTrue lits =>
    cases d with
    | linear => exact (linearUnique same).imp_right .inl
    | allTrue others => exact .inl (congrArg allTrue (listingUnique same))
    | _ => cases same
  | inside v domain =>
    cases d with
    | linear => exact (linearUnique same).imp_right .inl
    | inside w other =>
      obtain ⟨first, rest⟩ := List.cons.inj same
      cases first
      exact .inl (congrArg (inside v) (domainUnique (List.append_cancel_right (List.cons.inj rest).2)))
    | _ => cases same

theorem wordWide (x : Int64) : wide x.toInt = .ok x.toInt := by
  have least := x.le_toInt
  have most := x.toInt_lt
  exact wideExact.mpr ⟨rfl, by omega, by omega⟩

theorem equalWords (x y : Int64) : Relation.eq.holds x y = (x.toInt == y.toInt) := by
  rw [Bool.eq_iff_iff, Relation.holdsWords, beq_iff_eq]
  exact Iff.rfl

theorem plainTotal (a : Assignment) (h : Handle) :
    a.total [(1, h)] 0 = do return (← a.value h).toInt := by
  rw [Assignment.total]
  cases a.value h with
  | error e => rfl
  | ok y =>
    change (do a.total [] (← wide (0 + (1 : Int64).toInt * y.toInt))) = Except.ok y.toInt
    rw [Int64.toInt_one, one_mul, zero_add, wordWide]
    rfl

theorem plainHolds (a : Assignment) (l h : Handle) : (linear l [(1, h)] 0).holds a = do
    let y ← a.value h
    let x ← a.value l
    return x.toInt == y.toInt := by
  rw [holds, plainTotal]
  cases a.value h with
  | error e => rfl
  | ok y =>
    change (do
      let sum ← wide (y.toInt + (0 : Int64).toInt)
      return (← a.value l).toInt == sum) = _
    rw [Int64.toInt_zero, add_zero, wordWide]
    rfl

theorem restatesHolds {a : Assignment} {b : Bool} (restates : c.Restates d) :
    c.holds a = .ok b ↔ d.holds a = .ok b := by
  cases restates with
  | handle l h =>
    rw [plainHolds]
    simp only [holds, Assignment.term, equalWords, bindOk, pureOk]
    constructor
    · intro held
      obtain ⟨x, left, y, right, same⟩ := held
      exact ⟨y, right, x, left, same⟩
    · intro held
      obtain ⟨y, right, x, left, same⟩ := held
      exact ⟨x, left, y, right, same⟩
  | number l n =>
    have offset : wide (0 + n.toInt) = .ok n.toInt := by rw [zero_add, wordWide]
    change (do return Relation.eq.holds (← a.value l) n) = Except.ok b ↔ (do
      let sum ← wide (0 + n.toInt)
      return (← a.value l).toInt == sum) = Except.ok b
    rw [offset]
    simp only [equalWords]
    rfl

theorem restatesTokens (restates : c.Restates d) : c.tokens = d.tokens := by
  cases restates <;> rfl

end Constraint

namespace Posted

variable {p q : Posted}

def tokens (p : Posted) : List Token :=
  match p.guard with
  | some g => .term (.var g) :: .mark .guard :: p.constraint.tokens
  | none => p.constraint.tokens

theorem text (p : Posted) : (toString p).toList = written p.tokens := by
  obtain ⟨c, _ | g⟩ := p
  · exact c.text
  · change (toString g ++ " => " ++ toString c).toList = _
    simp [tokens, c.text, Mark.text]

theorem spaced (p : Posted) : Spaced p.tokens := by
  obtain ⟨c, _ | g⟩ := p
  · exact c.spaced
  · exact spacedAround (spacedSingle (.term (.var g))) c.spaced

theorem guardRead {c : Constraint} {g : Handle} {ts : List Token} :
    c.tokens ≠ .term (.var g) :: .mark .guard :: ts := by
  intro same
  cases c <;> cases same

theorem guardUnique (same : p.tokens = q.tokens) :
    p.guard = q.guard ∧ p.constraint.tokens = q.constraint.tokens := by
  obtain ⟨c, _ | g⟩ := p
  · obtain ⟨d, _ | k⟩ := q
    · exact ⟨rfl, same⟩
    · exact absurd same guardRead
  · obtain ⟨d, _ | k⟩ := q
    · exact absurd same.symm guardRead
    · obtain ⟨first, rest⟩ := List.cons.inj same
      cases first
      exact ⟨rfl, (List.cons.inj rest).2⟩

/-- Posted constraints with one text have the same guard and are the same, but for an equality that one
of them writes as a comparison and the other as a sum. Those hold under the same assignments and cannot
be told apart by their texts. -/
theorem textDetermines (p q : Posted) : toString p = toString q ↔ p.guard = q.guard ∧
    (p.constraint = q.constraint ∨
      (p.constraint.Restates q.constraint ∨ q.constraint.Restates p.constraint) ∧
        ∀ a b, p.constraint.holds a = .ok b ↔ q.constraint.holds a = .ok b) := by
  rw [← String.toList_inj, p.text, q.text]
  constructor
  · intro same
    obtain ⟨guards, tokens⟩ := guardUnique (writtenUnique p.spaced q.spaced same)
    refine ⟨guards, (Constraint.tokensUnique tokens).imp_right fun restates => ⟨restates, ?_⟩⟩
    intro a b
    rcases restates with forth | back
    · exact Constraint.restatesHolds forth
    · exact (Constraint.restatesHolds back).symm
  · intro alike
    obtain ⟨guards, constraints⟩ := alike
    have same : p.constraint.tokens = q.constraint.tokens := by
      obtain same | ⟨forth | back, -⟩ := constraints
      · rw [same]
      · exact Constraint.restatesTokens forth
      · exact (Constraint.restatesTokens back).symm
    rw [tokens, tokens, guards, same]

theorem textDeterminesOnce :
    let x : Handle := ⟨1, by decide⟩
    let y : Handle := ⟨-2, by decide⟩
    let p : Posted := ⟨.compare x .eq (.var y), some y⟩
    let q : Posted := ⟨.linear x [(1, y)] 0, some y⟩
    p.constraint ≠ q.constraint ∧ toString p = toString q ∧
      ∀ a b, p.constraint.holds a = .ok b ↔ q.constraint.holds a = .ok b := by
  intro x y p q
  have restates : p.constraint.Restates q.constraint := .handle x y
  have differ : p.constraint ≠ q.constraint := by decide
  have same : toString p = toString q := (textDetermines p q).mpr
    ⟨rfl, .inr ⟨.inl restates, fun a b => Constraint.restatesHolds restates⟩⟩
  obtain ⟨-, equal | ⟨-, holds⟩⟩ := (textDetermines p q).mp same
  · exact absurd equal differ
  · exact ⟨differ, same, holds⟩

end Posted

end ConstraintAlgebra
