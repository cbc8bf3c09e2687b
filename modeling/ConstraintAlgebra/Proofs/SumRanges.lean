import ConstraintAlgebra.Proofs.Runs
import ConstraintAlgebra.Proofs.Success

/-! Ranges of sums. Both ends are summed in 128 bits, term by term, so a sum fails in one of two ways:
a running total leaves 128 bits, which depends on the order of the terms, or an end leaves 64 bits,
which does not. -/
namespace ConstraintAlgebra

def Fits (n : Int) : Prop := -0x8000000000000000 ≤ n ∧ n < 0x8000000000000000

instance (n : Int) : Decidable (Fits n) := inferInstanceAs (Decidable (_ ∧ _))

def Wide (n : Int) : Prop :=
  -0x80000000000000000000000000000000 ≤ n ∧ n < 0x80000000000000000000000000000000

instance (n : Int) : Decidable (Wide n) := inferInstanceAs (Decidable (_ ∧ _))

def Held : Int → List Int → Prop
  | _, [] => True
  | start, x :: xs => Wide (start + x) ∧ Held (start + x) xs

instance heldDecidable : (start : Int) → (xs : List Int) → Decidable (Held start xs)
  | _, [] => inferInstanceAs (Decidable True)
  | start, x :: xs =>
    have := heldDecidable (start + x) xs
    inferInstanceAs (Decidable (_ ∧ _))

theorem wideIn {n : Int} (fits : Wide n) : wide n = .ok n := wideExact.mpr ⟨rfl, fits⟩

theorem wideOut {n : Int} (exceeds : ¬Wide n) : wide n = .error .overflow := if_neg exceeds

theorem narrowIn (op : Operation) {n : Int} (fits : Fits n) :
    ∃ x : Int64, x.toInt = n ∧ narrow op n = .ok x := by
  obtain ⟨x, found⟩ := toWordFits fits.1 fits.2
  exact ⟨x, toWordExact.mp found, narrowExact.mpr (toWordExact.mp found)⟩

theorem fitsWord (x : Int64) : Fits x.toInt := ⟨x.le_toInt, x.toInt_lt⟩

theorem narrowOut {op : Operation} {n : Int} (exceeds : ¬Fits n) :
    narrow op n = .error (.tooWide op n) := by
  cases found : toWord? n with
  | none => rw [narrow, found]
  | some x => exact absurd (toWordExact.mp found ▸ fitsWord x) exceeds

section Orders

variable {start : Int} {xs ys : List Int}

theorem heldAppend : Held start (xs ++ ys) ↔ Held start xs ∧ Held (start + xs.sum) ys := by
  induction xs generalizing start with
  | nil => simp [Held]
  | cons x xs ih =>
    rw [List.cons_append, Held, Held, ih, List.sum_cons, add_assoc, and_assoc]

theorem heldSum (held : Held start xs) (begin : Wide start) : Wide (start + xs.sum) := by
  induction xs generalizing start with
  | nil => simpa using begin
  | cons x xs ih =>
    rw [List.sum_cons, ← add_assoc]
    exact ih held.2 held.1

def Enveloped (xs : List Int) : Prop := Wide (xs.map (min · 0)).sum ∧ Wide (xs.map (max · 0)).sum

instance (xs : List Int) : Decidable (Enveloped xs) := inferInstanceAs (Decidable (_ ∧ _))

theorem envelopedPerm (order : ys.Perm xs) : Enveloped ys ↔ Enveloped xs := by
  rw [Enveloped, Enveloped, (order.map _).sum_eq, (order.map _).sum_eq]

theorem negativesNonpos (xs : List Int) : (xs.map (min · 0)).sum ≤ 0 := by
  induction xs with
  | nil => simp
  | cons x xs ih =>
    rw [List.map_cons, List.sum_cons]
    omega

theorem positivesNonneg (xs : List Int) : 0 ≤ (xs.map (max · 0)).sum :=
  List.sum_nonneg (List.forall_mem_map.mpr fun x _ => le_max_right x 0)

theorem heldWithin (below : Wide (start + (xs.map (min · 0)).sum))
    (above : Wide (start + (xs.map (max · 0)).sum)) : Held start xs := by
  induction xs generalizing start with
  | nil => trivial
  | cons x xs ih =>
    have nonpos := negativesNonpos xs
    have nonneg := positivesNonneg xs
    simp only [Wide, List.map_cons, List.sum_cons] at below above
    rw [Held, Wide]
    refine ⟨by omega, ih ?_ ?_⟩ <;> rw [Wide] <;> omega

theorem Enveloped.held (enveloped : Enveloped xs) : Held 0 xs :=
  heldWithin (by simpa using enveloped.1) (by simpa using enveloped.2)

variable {α : Type} {f : α → Int} {es : List α}

/- In the order that puts some of the numbers first, the sum of these is a running total. -/
theorem chosenWide (held : ∀ fs : List α, fs.Perm es → Held 0 (fs.map f)) (p : α → Bool) :
    Wide ((es.filter p).map f).sum := by
  have first := held _ (List.filter_append_perm p es)
  rw [List.map_append, heldAppend] at first
  simpa using heldSum first.1 (by decide)

theorem chosenSum {g : Int → Int} {p : α → Bool} (same : ∀ e, g (f e) = if p e then f e else 0) :
    ((es.map f).map g).sum = ((es.filter p).map f).sum := by
  induction es with
  | nil => rfl
  | cons e es ih =>
    rw [List.map_cons, List.map_cons, List.sum_cons, ih, same]
    cases chosen : p e <;> simp [chosen]

theorem envelopedExact :
    Enveloped (es.map f) ↔ ∀ fs : List α, fs.Perm es → Held 0 (fs.map f) := by
  constructor
  · intro enveloped fs order
    exact ((envelopedPerm (order.map f)).mpr enveloped).held
  · intro held
    have negatives := chosenWide held (f · < 0)
    have positives := chosenWide held (0 < f ·)
    rw [Enveloped, chosenSum (p := (f · < 0)), chosenSum (p := (0 < f ·))]
    · exact ⟨negatives, positives⟩
    · intro e
      simp only [decide_eq_true_eq]
      split <;> omega
    · intro e
      simp only [decide_eq_true_eq]
      split <;> omega

end Orders

namespace Model

variable {m n : Model} {h : Handle} {op : Operation} {terms : List Summand} {ends : List (Int × Int)}
  {lo hi offset : Int}

def Spans (m : Model) (s : Summand) (ends : Int × Int) : Prop :=
  ∃ v lo hi, m.vars[s.2.index]? = some v ∧ s.2.isNegated = false ∧ v.domain.min = .ok lo ∧
    v.domain.max = .ok hi ∧ ends.1 = min (s.1.toInt * lo.toInt) (s.1.toInt * hi.toInt) ∧
    ends.2 = max (s.1.toInt * lo.toInt) (s.1.toInt * hi.toInt)

theorem spansExist (proper : m.Proper) {s : Summand} (owned : m.Owns s.2)
    (sign : s.2.isNegated = false) : ∃ ends, m.Spans s ends := by
  have found := List.getElem?_eq_getElem owned
  have inhabited := proper.inhabited _ (List.mem_of_getElem? found)
  obtain ⟨lo, least⟩ := Domain.minExists inhabited
  obtain ⟨hi, most⟩ := Domain.maxExists inhabited
  exact ⟨(_, _), _, lo, hi, found, sign, least, most, rfl, rfl⟩

theorem Spans.owned {s : Summand} {e : Int × Int} (spans : m.Spans s e) : m.Owns s.2 := by
  obtain ⟨v, _, _, found, _⟩ := spans
  exact ownsOfFound found

theorem Constant.spans {x c : Int64} (constant : m.Constant h x) :
    m.Spans (c, h) (c.toInt * x.toInt, c.toInt * x.toInt) := by
  obtain ⟨sign, name, found⟩ := constant
  exact ⟨_, x, x, found, sign, rfl, rfl, (min_self _).symm, (max_self _).symm⟩

theorem sumBoundsHeld (spans : List.Forall₂ m.Spans terms ends) :
    m.sumBounds terms (lo, hi) =
      if Held lo (ends.map (·.1)) ∧ Held hi (ends.map (·.2)) then
        .ok (lo + (ends.map (·.1)).sum, hi + (ends.map (·.2)).sum)
      else .error .overflow := by
  induction spans generalizing lo hi with
  | nil => simp [sumBounds, Held]
  | @cons s e terms ends first rest ih =>
    obtain ⟨c, h⟩ := s
    obtain ⟨v, least, greatest, found, sign, atLeast, atMost, low, high⟩ := first
    have range : m.bounds h = .ok ⟨least, greatest⟩ :=
      boundsOk.mpr ⟨v, least, greatest, found, atLeast, atMost, by rw [sign]; rfl⟩
    rw [sumBounds, range]
    change (wide _ >>= fun lo => wide _ >>= fun hi => m.sumBounds terms (lo, hi)) = _
    rw [← low, ← high, List.map_cons, List.map_cons, List.sum_cons, List.sum_cons, ← add_assoc,
      ← add_assoc]
    by_cases below : Wide (lo + e.1)
    · by_cases above : Wide (hi + e.2)
      · rw [wideIn below, wideIn above]
        refine ih.trans ?_
        split
        · rename_i held
          exact (if_pos ⟨⟨below, held.1⟩, ⟨above, held.2⟩⟩).symm
        · rename_i lost
          exact (if_neg fun held => lost ⟨held.1.2, held.2.2⟩).symm
      · rw [wideIn below, wideOut above]
        exact (if_neg fun held => above held.2.1).symm
    · rw [wideOut below]
      exact (if_neg fun held => below held.1.1).symm

theorem newIntRoom {lo hi : Int64} (name : String) (le : lo ≤ hi)
    (room : m.vars.length + 1 < 2 ^ 31) :
    ∃ h, newInt lo hi name m = .ok h (m.extended ⟨⟨[⟨lo, hi⟩]⟩, name⟩ []) ∧ m.Next h := by
  obtain ⟨v, named, _⟩ := VarId.ofIndexPlace (i := m.vars.length) (by omega)
  have made : Domain.interval lo hi = .ok ⟨[⟨lo, hi⟩]⟩ := if_pos le
  let added := m.extended ⟨⟨[⟨lo, hi⟩]⟩, name⟩ []
  have latest : VarId.ofIndex (added.vars.length - 1) = .ok v := by
    simpa [added, extended] using named
  have ran : newInt lo hi name m = .ok (.ofId v) added := by
    have declared : (modify fun m : Model => ⟨m.vars ++ [⟨⟨[⟨lo, hi⟩]⟩, name⟩], m.constraints⟩ :
        Build PUnit) m = .ok ⟨⟩ added := runModify.mpr (by simp [added, extended])
    rw [newInt, made]
    refine runBind.mpr ⟨_, m, rfl, ?_⟩
    rw [newVariable, if_neg (by simp [Domain.isEmpty])]
    refine runBind.mpr ⟨_, added, declared, runBind.mpr ⟨added, added, rfl, ?_⟩⟩
    exact runBind.mpr ⟨v, added, runLift.mpr ⟨latest, rfl⟩, rfl⟩
  exact ⟨_, ran, (newIntOk ran).2.2 (by simpa [Small, added, extended] using room)⟩

theorem linearOverflows (failed : m.sumBounds terms (offset, offset) = .error .overflow) :
    linear op terms offset m = .error .overflow m := runFails (askFails failed)

theorem linearSummed (summed : m.sumBounds terms (offset, offset) = .ok (lo, hi)) :
    linear op terms offset m = (do
      let lo ← narrow op lo
      let hi ← narrow op hi
      let offset ← narrow op offset
      let target ← newInt lo hi ""
      add (.linear target terms offset)
      return target : Build Handle) m :=
  runAfter (a := (lo, hi)) (runAsk.mpr ⟨summed, rfl⟩)

theorem linearTooWide (summed : m.sumBounds terms (offset, offset) = .ok (lo, hi))
    (exceeds : ¬(Fits lo ∧ Fits hi ∧ Fits offset)) : linear op terms offset m =
      .error (.tooWide op (if Fits lo then if Fits hi then offset else hi else lo)) m := by
  rw [linearSummed summed]
  by_cases below : Fits lo
  · obtain ⟨x, _, least⟩ := narrowIn op below
    rw [if_pos below, runAfter (runLift.mpr ⟨least, rfl⟩)]
    by_cases above : Fits hi
    · obtain ⟨y, _, greatest⟩ := narrowIn op above
      have start : ¬Fits offset := fun fits => exceeds ⟨below, above, fits⟩
      rw [if_pos above, runAfter (runLift.mpr ⟨greatest, rfl⟩)]
      exact runFails (liftFails (narrowOut start))
    · rw [if_neg above]
      exact runFails (liftFails (narrowOut above))
  · rw [if_neg below]
    exact runFails (liftFails (narrowOut below))

theorem linearMakes (op : Operation)
    (summed : m.sumBounds terms (offset, offset) = .ok (lo, hi)) (le : lo ≤ hi)
    (fits : Fits lo ∧ Fits hi ∧ Fits offset) (owned : ∀ s ∈ terms, m.Owns s.2)
    (room : m.vars.length + 1 < 2 ^ 31) : ∃ (h : Handle) (x y c : Int64),
      x.toInt = lo ∧ y.toInt = hi ∧ c.toInt = offset ∧ m.Next h ∧
      linear op terms offset m =
        .ok h (m.extended ⟨⟨[⟨x, y⟩]⟩, ""⟩ [⟨.linear h terms c, none⟩]) := by
  obtain ⟨x, low, least⟩ := narrowIn op fits.1
  obtain ⟨y, high, greatest⟩ := narrowIn op fits.2.1
  obtain ⟨c, start, narrowed⟩ := narrowIn op fits.2.2
  have ordered : x ≤ y := Int64.le_iff_toInt_le.mpr (by omega)
  obtain ⟨h, made, next⟩ := newIntRoom "" ordered room
  refine ⟨h, x, y, c, low, high, start, next, ?_⟩
  rw [linearSummed summed, runAfter (runLift.mpr ⟨least, rfl⟩),
    runAfter (runLift.mpr ⟨greatest, rfl⟩), runAfter (runLift.mpr ⟨narrowed, rfl⟩), runAfter made]
  have known : ∀ g ∈ (Constraint.linear h terms c).handles,
      (m.extended ⟨⟨[⟨x, y⟩]⟩, ""⟩ []).Owns g := by
    refine List.forall_mem_cons.mpr ⟨?_, List.forall_mem_map.mpr fun s mem => ?_⟩
    · simp [Owns, extended, next.place]
    · exact (owned s mem).later (leExtended m _ _)
  rw [add, runAfter (postOwned known (by simp))]
  simp [extended, pure, EStateM.pure]

theorem endsOrdered (spans : List.Forall₂ m.Spans terms ends) :
    (ends.map (·.1)).sum ≤ (ends.map (·.2)).sum := by
  refine List.sum_le_sum fun e mem => ?_
  obtain ⟨s, _, v, lo, hi, _, _, _, _, low, high⟩ := relatedTo spans.flip mem
  rw [low, high]
  exact min_le_max

section ScaledSum

variable {vars : List Handle} {coeffs : List Int64}

theorem scaledSumOverflows (equal : vars.length = coeffs.length)
    (spans : List.Forall₂ m.Spans (coeffs.zip vars) ends)
    (lost : ¬(Held 0 (ends.map (·.1)) ∧ Held 0 (ends.map (·.2)))) :
    scaledSum vars coeffs m = .error .overflow m := by
  rw [scaledSum, if_pos equal]
  exact linearOverflows ((sumBoundsHeld spans).trans (if_neg lost))

theorem scaledSumNarrows (equal : vars.length = coeffs.length)
    (spans : List.Forall₂ m.Spans (coeffs.zip vars) ends) (room : m.vars.length + 1 < 2 ^ 31)
    (held : Held 0 (ends.map (·.1)) ∧ Held 0 (ends.map (·.2))) :
    let lo := (ends.map (·.1)).sum
    let hi := (ends.map (·.2)).sum
    (Fits lo ∧ Fits hi → ∃ h n, scaledSum vars coeffs m = .ok h n) ∧
      (¬(Fits lo ∧ Fits hi) → scaledSum vars coeffs m =
        .error (.tooWide .scaledSum (if Fits lo then hi else lo)) m) := by
  intro lo hi
  have summed : m.sumBounds (coeffs.zip vars) (0, 0) = .ok (lo, hi) := by
    rw [sumBoundsHeld spans, if_pos held, zero_add, zero_add]
  rw [scaledSum, if_pos equal]
  constructor
  · intro fits
    have owned : ∀ s ∈ coeffs.zip vars, m.Owns s.2 := fun s mem => by
      obtain ⟨e, _, spans⟩ := relatedTo spans mem
      exact spans.owned
    obtain ⟨h, _, _, _, _, _, _, _, ok⟩ := linearMakes .scaledSum summed
      (endsOrdered spans) ⟨fits.1, fits.2, by decide⟩ owned room
    exact ⟨h, _, ok⟩
  · intro exceeds
    rw [linearTooWide summed fun fits => exceeds ⟨fits.1, fits.2.1⟩]
    by_cases below : Fits lo
    · rw [if_pos below, if_pos below, if_neg fun above => exceeds ⟨below, above⟩]
    · rw [if_neg below, if_neg below]

theorem scaledSumHeld (equal : vars.length = coeffs.length)
    (spans : List.Forall₂ m.Spans (coeffs.zip vars) ends) (room : m.vars.length + 1 < 2 ^ 31) :
    scaledSum vars coeffs m ≠ .error .overflow m ↔
      Held 0 (ends.map (·.1)) ∧ Held 0 (ends.map (·.2)) := by
  constructor
  · intro ran
    by_contra lost
    exact ran (scaledSumOverflows equal spans lost)
  · intro held failed
    obtain ⟨succeeds, names⟩ := scaledSumNarrows equal spans room held
    by_cases fits : Fits (ends.map (·.1)).sum ∧ Fits (ends.map (·.2)).sum
    · obtain ⟨h, n, ok⟩ := succeeds fits
      rw [failed] at ok
      cases ok
    · rw [failed] at names
      cases names fits

end ScaledSum

end Model

namespace Session

variable {E : Type} [Encoding E]

/-- A sum of scaled variables overflows exactly when a running total of one of its ends leaves 128
bits, which no order of the terms can bring about if the negative ends alone and the positive ends
alone stay in 128 bits. Without that, it succeeds exactly when both ends fit 64 bits and otherwise
names the first that does not. Where it fails it leaves the model as it was. -/
theorem scaledSumOutcome (calls : List (Call E)) (vars : List Handle) (coeffs : List Int64)
    (built : ∀ c ∈ calls, c.Built) (equal : vars.length = coeffs.length)
    (owned : ∀ h ∈ vars, (start.run calls).model.Owns h ∧ h.isNegated = false)
    (room : (start.run calls).model.vars.length < 2 ^ 31 - 1) :
    let m := (start.run calls).model
    ∃ ends, List.Forall₂ m.Spans (coeffs.zip vars) ends ∧
      let lows := ends.map (·.1)
      let highs := ends.map (·.2)
      (Model.scaledSum vars coeffs m = .error .overflow m ↔ ¬(Held 0 lows ∧ Held 0 highs)) ∧
      (Enveloped lows ∧ Enveloped highs ↔ ∀ us cs, us.length = cs.length →
        (cs.zip us).Perm (coeffs.zip vars) → Model.scaledSum us cs m ≠ .error .overflow m) ∧
      ∀ us cs, us.length = cs.length → (cs.zip us).Perm (coeffs.zip vars) →
        Model.scaledSum us cs m ≠ .error .overflow m →
        ((∃ h n, Model.scaledSum us cs m = .ok h n) ↔ Fits lows.sum ∧ Fits highs.sum) ∧
        (¬(Fits lows.sum ∧ Fits highs.sum) → Model.scaledSum us cs m =
          .error (.tooWide .scaledSum (if Fits lows.sum then highs.sum else lows.sum)) m) := by
  intro m
  have proper := (runSound built startSound).proper
  have room : m.vars.length + 1 < 2 ^ 31 := Nat.add_lt_of_lt_sub room
  obtain ⟨ends, spans⟩ : ∃ ends, List.Forall₂ m.Spans (coeffs.zip vars) ends := by
    refine relate fun s mem => ?_
    obtain ⟨owns, sign⟩ := owned s.2 (List.of_mem_zip mem).2
    exact Model.spansExist proper owns sign
  -- In another order the terms have the same ends, in that order.
  have reordered : ∀ (us : List Handle) (cs : List Int64), (cs.zip us).Perm (coeffs.zip vars) →
      ∃ fs : List (Int × Int), fs.Perm ends ∧ List.Forall₂ m.Spans (cs.zip us) fs := by
    intro us cs order
    obtain ⟨fs, related, perm⟩ := List.perm_comp_forall₂ order spans
    exact ⟨fs, perm, related⟩
  refine ⟨ends, spans, ?_, ?_, ?_⟩
  · rw [← Model.scaledSumHeld equal spans room, not_not]
  · rw [envelopedExact, envelopedExact, ← forall₂_and]
    constructor
    · intro held us cs same order
      obtain ⟨fs, perm, related⟩ := reordered us cs order
      exact (Model.scaledSumHeld same related room).mpr (held fs perm)
    · intro ran fs perm
      obtain ⟨terms, flipped, order⟩ := List.perm_comp_forall₂ perm spans.flip
      have whole : (terms.map (·.1)).zip (terms.map (·.2)) = terms := by simp [List.zip_map']
      have related : List.Forall₂ m.Spans ((terms.map (·.1)).zip (terms.map (·.2))) fs :=
        whole.symm ▸ flipped.flip
      refine (Model.scaledSumHeld (by simp) related room).mp (ran _ _ (by simp) ?_)
      rwa [whole]
  · intro us cs same order ran
    obtain ⟨fs, perm, related⟩ := reordered us cs order
    have held := (Model.scaledSumHeld same related room).mp ran
    obtain ⟨succeeds, names⟩ := Model.scaledSumNarrows same related room held
    rw [(perm.map _).sum_eq, (perm.map _).sum_eq] at succeeds names
    refine ⟨⟨fun ok => ?_, succeeds⟩, names⟩
    by_contra exceeds
    obtain ⟨h, n, ok⟩ := ok
    rw [names exceeds] at ok
    cases ok

theorem scaledSumOutcomeOnce :
    let calls : List (Call Dictionary) := [.model (.constant Int64.minValue), .layer .standard .empty]
    let x : Handle := ⟨1, by decide⟩
    let vars := [x, x, x, x]
    let coeffs := [Int64.minValue, Int64.maxValue, Int64.minValue, Int64.maxValue]
    let m := (start.run calls).model
    (∀ h ∈ vars, m.Owns h ∧ h.isNegated = false) ∧ m.vars.length < 2 ^ 31 - 1 ∧
      Model.scaledSum vars coeffs m = .error (.tooWide .scaledSum (2 ^ 64)) m ∧
      ∃ ends : List (Int × Int), List.Forall₂ m.Spans (coeffs.zip vars) ends ∧
        (Held 0 (ends.map (·.1)) ∧ Held 0 (ends.map (·.2))) ∧
        ¬(Enveloped (ends.map (·.1)) ∧ Enveloped (ends.map (·.2))) := by
  intro calls x vars coeffs m
  have first : m.Owns x ∧ x.isNegated = false :=
    ⟨Model.ownsOfFound (v := ⟨.constant Int64.minValue, ""⟩) rfl, rfl⟩
  have owned : ∀ h ∈ vars, m.Owns h ∧ h.isNegated = false := by simpa [vars] using first
  have failed : Model.scaledSum vars coeffs m = .error (.tooWide .scaledSum (2 ^ 64)) m := rfl
  obtain ⟨ends, spans, overflows, everyOrder, _⟩ := scaledSumOutcome calls vars coeffs
    (by simp [calls, Call.Built]) rfl owned (by decide)
  refine ⟨owned, by decide, failed, ends, spans, ?_, fun enveloped => ?_⟩
  · by_contra lost
    have overflow := overflows.mpr lost
    rw [failed] at overflow
    cases overflow
  · exact everyOrder.mp enveloped vars
      [Int64.minValue, Int64.minValue, Int64.maxValue, Int64.maxValue] rfl (by decide) rfl

theorem scaledSumOrders :
    let calls : List (Call Dictionary) := [.model (.constant Int64.minValue), .layer .standard .empty]
    let x : Handle := ⟨1, by decide⟩
    let vars := [x, x, x, x, x]
    let first := [Int64.minValue, Int64.minValue, Int64.maxValue, Int64.maxValue, 2]
    let second := [Int64.minValue, Int64.maxValue, Int64.minValue, Int64.maxValue, 2]
    let m := (start.run calls).model
    let ends := first.map fun c => (c.toInt * Int64.minValue.toInt, c.toInt * Int64.minValue.toInt)
    first.Perm second ∧ List.Forall₂ m.Spans (first.zip vars) ends ∧
      (ends.map (·.1)).sum = 0 ∧ (ends.map (·.2)).sum = 0 ∧
      Model.scaledSum vars first m = .error .overflow m ∧
      ∃ h n, Model.scaledSum vars second m = .ok h n := by
  intro calls x vars first second m ends
  have constant : m.Constant x Int64.minValue := ⟨rfl, "", rfl⟩
  refine ⟨by decide, ?_, by decide, by decide, rfl, _, _, rfl⟩
  exact .cons constant.spans (.cons constant.spans (.cons constant.spans (.cons constant.spans
    (.cons constant.spans .nil))))

end Session

end ConstraintAlgebra
