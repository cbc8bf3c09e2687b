import ConstraintAlgebra.Proofs.Constants

/-! Arithmetic on constants. Numbers may be made into variables before they are added, subtracted or
multiplied. The exact result then becomes a variable fixed to it, unless it does not fit 64 bits or
the numbers left beside the variables do not. -/
namespace ConstraintAlgebra

open Encoding

def Scalar.amount (s : Scalar) : Int := (s.number?.getD 0).toInt

def Scalar.beside (s : Scalar) (symbolic : Bool) : Int := if symbolic then 0 else s.amount

theorem Scalar.numberAmount {s : Scalar} (number : s.number?.isSome = true) (op : Operation) :
    ∃ n : Int64, s.number op = .ok n ∧ n.toInt = s.amount := by
  obtain ⟨n, found⟩ := Option.isSome_iff_exists.mp number
  exact ⟨n, by rw [Scalar.number, found], by rw [amount, found, Option.getD_some]⟩

theorem heldFew {start : Int} {xs : List Int} (narrow : ∀ x ∈ xs, Fits x)
    (below : -2 ^ 127 + 2 ^ 63 * xs.length ≤ start) (above : start + 2 ^ 63 * xs.length < 2 ^ 127) :
    Held start xs := by
  induction xs generalizing start with
  | nil => trivial
  | cons x xs ih =>
    obtain ⟨⟨least, most⟩, rest⟩ := List.forall_mem_cons.mp narrow
    simp only [List.length_cons, Nat.cast_add, Nat.cast_one] at below above
    rw [Held, Wide]
    exact ⟨by omega, ih rest (by omega) (by omega)⟩

theorem productWide (x y : Int64) : Wide (0 + x.toInt * y.toInt) := by
  obtain ⟨least, most⟩ := fitsWord x
  have factor := fitsWord y
  obtain ⟨below, above⟩ := scaledBetween (c := x.toInt) factor.1 factor.2.le
  rw [Wide, zero_add]
  omega

def amounts (items : List (Scalar × Bool)) : Int := (items.map (·.1.amount)).sum

theorem amountsCons (item : Scalar × Bool) (items : List (Scalar × Bool)) :
    amounts (item :: items) = item.1.amount + amounts items := List.sum_cons

def chosen (items : List (Scalar × Bool)) : List (Scalar × Bool) := items.filter (·.2)

def unchosen (items : List (Scalar × Bool)) : List (Scalar × Bool) := items.filter (!·.2)

theorem amountsSplit (items : List (Scalar × Bool)) :
    amounts (unchosen items) + amounts (chosen items) = amounts items := by
  have order := (List.filter_append_perm (·.2) items).map (·.1.amount)
  rw [amounts, amounts, amounts, ← order.sum_eq, List.map_append, List.sum_append, add_comm]
  rfl

theorem amountsHeld {items : List (Scalar × Bool)} (few : items.length < 2 ^ 59) :
    Held 0 ((unchosen items).map (·.1.amount)) ∧
      Held (amounts (unchosen items)) ((chosen items).map (·.1.amount)) := by
  have count := (List.filter_append_perm (·.2) items).length_eq
  rw [List.length_append] at count
  have few : (items.length : Int) < 2 ^ 59 := by exact_mod_cast few
  have held : Held 0 ((unchosen items ++ chosen items).map (·.1.amount)) := by
    refine heldFew (List.forall_mem_map.mpr fun item _ => fitsWord _) ?_ ?_ <;>
    · rw [List.length_map, List.length_append, unchosen, chosen]
      omega
  rw [List.map_append, heldAppend, zero_add] at held
  exact held

theorem Workspace.Presents.amount {E : Type} [Encoding E] [StableEncoding E] {w : Workspace E}
    {s : Scalar} {h : Handle} (presents : w.Presents s (.var h)) (number : s.number?.isSome = true) :
    ∃ n : Int64, w.model.Constant h n ∧ n.toInt = s.amount := by
  obtain ⟨c, constant, stands⟩ := presents
  obtain ⟨n, found⟩ := Option.isSome_iff_exists.mp number
  exact ⟨c, constant, by rw [stands.number found, Scalar.amount, found, Option.getD_some]⟩

namespace Model

variable {m : Model} {op : Operation} {terms : List Summand} {values : List Int}
  {offset total : Int}

def Counts (op : Operation) (action : Build Operand) (m : Model) (total : Int) : Prop :=
  (∀ n : Int64, n.toInt = total → action m = .ok (long n) m) ∧
  (¬Fits total → action m = .error (.tooWide op total) m)

/-- Beside variables an action gives a variable that is fixed to the exact result, as far as that and
the offset both fit. -/
def Fixes (op : Operation) (action : Build Operand) (m : Model) (total offset : Int) : Prop :=
  (∀ n : Int64, n.toInt = total → Fits offset → m.vars.length + 1 < 2 ^ 31 →
    ∃ h k, action m = .ok (.var h) k ∧ m.Next h ∧ k.Constant h n) ∧
  (¬(Fits total ∧ Fits offset) →
    action m = .error (.tooWide op (if Fits total then offset else total)) m)

def Worth (m : Model) (terms : List Summand) (values : List Int) : Prop :=
  List.Forall₂ (fun s x => m.Spans s (x, x)) terms values

theorem worthBounds (worth : m.Worth terms values) (held : Held offset values) :
    m.sumBounds terms (offset, offset) = .ok (offset + values.sum, offset + values.sum) := by
  have spans : List.Forall₂ m.Spans terms (values.map fun x => (x, x)) :=
    List.forall₂_map_right_iff.mpr worth
  have left : (values.map fun x => (x, x)).map (·.1) = values := List.map_map.trans (List.map_id _)
  have right : (values.map fun x => (x, x)).map (·.2) = values := List.map_map.trans (List.map_id _)
  rw [sumBoundsHeld spans, left, right, if_pos ⟨held, held⟩]

theorem linearFixes (op : Operation) (worth : m.Worth terms values) (held : Held offset values)
    (whole : offset + values.sum = total) :
    Fixes op (do return .var (← linear op terms offset)) m total offset := by
  have summed := worthBounds worth held
  rw [whole] at summed
  constructor
  · intro n exact fits room
    have owned : ∀ s ∈ terms, m.Owns s.2 := fun s mem => by
      obtain ⟨x, _, spans⟩ := relatedTo worth mem
      exact spans.owned
    have whole : Fits total := exact ▸ fitsWord n
    obtain ⟨h, x, y, c, low, high, _, next, ok⟩ :=
      linearMakes op summed le_rfl ⟨whole, whole, fits⟩ owned room
    have least : x = n := Int64.toInt_inj.mp (low.trans exact.symm)
    have most : y = n := Int64.toInt_inj.mp (high.trans exact.symm)
    subst least most
    refine ⟨h, _, runMap.mpr ⟨h, ok, rfl⟩, next, next.sign, "", ?_⟩
    rw [next.place]
    exact List.getElem?_concat_length
  · intro exceeds
    have lost : ¬(Fits total ∧ Fits total ∧ Fits offset) := fun fits => exceeds fits.2
    refine runFails ((linearTooWide summed lost).trans ?_)
    by_cases fits : Fits total
    · rw [if_pos fits, if_pos fits]
    · rw [if_neg fits, if_neg fits]

theorem Fixes.of {action other : Build Operand} (fixes : Fixes op other m total offset)
    (same : action m = other m) : Fixes op action m total offset := by
  rw [Fixes, same]
  exact fixes

theorem Counts.of {action other : Build Operand} (counts : Counts op other m total)
    (same : action m = other m) : Counts op action m total := by
  rw [Counts, same]
  exact counts

theorem narrowCounts (op : Operation) :
    Counts op (do return long (← narrow op total)) m total := by
  constructor
  · intro n exact
    exact runMap.mpr ⟨n, runLift.mpr ⟨narrowExact.mpr exact, rfl⟩, rfl⟩
  · intro exceeds
    exact runFails (liftFails (narrowOut exceeds))

section Numbers

variable {E : Type} [Encoding E] [StableEncoding E] {u : Workspace E} {a b : Scalar} {p q : Operand}
  {h l r : Handle} {x y c : Int64}

theorem termFixes (op : Operation) (c : Int64) (constant : m.Constant h x)
    (held : Wide (offset + c.toInt * x.toInt)) (whole : offset + c.toInt * x.toInt = total) :
    Fixes op (do return .var (← linear op [(c, h)] offset)) m total offset := by
  have worth : m.Worth [(c, h)] [c.toInt * x.toInt] := .cons constant.spans .nil
  exact linearFixes op worth ⟨held, trivial⟩ (by rw [List.sum_singleton, whole])

theorem numberFixes (op : Operation) (unit : c = 1 ∨ c = -1) (constant : m.Constant h x)
    (start : -2 ^ 63 ≤ offset ∧ offset ≤ 2 ^ 63) (whole : offset + c.toInt * x.toInt = total) :
    Fixes op (do return .var (← linear op [(c, h)] offset)) m total offset := by
  have scaled := unitWithin (x := x) unit
  exact termFixes op c constant (by rw [Wide]; omega) whole

theorem numbersFix (op : Operation) (unit : c = 1 ∨ c = -1) (left : m.Constant l x)
    (right : m.Constant r y) (whole : x.toInt + c.toInt * y.toInt = total) :
    Fixes op (do return .var (← linear op [(1, l), (c, r)] 0)) m total 0 := by
  have first := unitWithin (x := x) (.inl rfl)
  have second := unitWithin (x := y) unit
  rw [Int64.toInt_one] at first
  have worth : m.Worth [(1, l), (c, r)] [1 * x.toInt, c.toInt * y.toInt] :=
    .cons left.spans (.cons right.spans .nil)
  refine linearFixes op worth ⟨by rw [Wide]; omega, by rw [Wide]; omega, trivial⟩ ?_
  rw [List.sum_pair, one_mul, zero_add, whole]

theorem numberPresented (presents : u.Presents a p) (number : a.number?.isSome = true)
    (op : Operation) :
    (∃ n : Int64, p = .scalar a ∧ a.number op = .ok n ∧ n.toInt = a.amount) ∨
      ∃ (h : Handle) (n : Int64), p = .var h ∧ u.model.Constant h n ∧ n.toInt = a.amount := by
  cases p with
  | scalar t =>
    subst presents
    obtain ⟨n, known, exact⟩ := Scalar.numberAmount number op
    exact .inl ⟨n, rfl, known, exact⟩
  | var h =>
    obtain ⟨n, constant, exact⟩ := presents.amount number
    exact .inr ⟨h, n, rfl, constant, exact⟩

theorem signedFixes (op : Operation) (unit : c = 1 ∨ c = -1) (left : u.Presents a p)
    (right : u.Presents b q) (first : a.number?.isSome = true) (second : b.number?.isSome = true)
    (symbolic : p.isSymbolic = true ∨ q.isSymbolic = true) :
    Fixes op (signed op c p q) u.model (a.amount + c.toInt * b.amount)
      (a.beside p.isSymbolic + c.toInt * b.beside q.isSymbolic) := by
  rcases numberPresented left first op with
    ⟨m, rfl, known, exactA⟩ | ⟨l, m, rfl, constantA, exactA⟩
  · have fits := fitsWord m
    rcases numberPresented right second op with ⟨_, rfl, _⟩ | ⟨r, n, rfl, constantB, exactB⟩
    · simp [Operand.isSymbolic] at symbolic
    change Fixes _ _ _ _ (a.amount + c.toInt * 0)
    rw [← exactA, ← exactB, mul_zero, add_zero]
    have fixes := numberFixes op unit constantB ⟨fits.1, fits.2.le⟩ rfl
    exact fixes.of (runAfter (runLift.mpr ⟨known, rfl⟩))
  · rcases numberPresented right second op with
      ⟨n, rfl, known, exactB⟩ | ⟨r, n, rfl, constantB, exactB⟩
    · have start := unitWithin (x := n) unit
      change Fixes _ _ _ _ (0 + c.toInt * b.amount)
      rw [← exactA, ← exactB, zero_add, add_comm]
      have fixes := numberFixes op (.inl rfl) constantA start rfl
      rw [Int64.toInt_one, one_mul] at fixes
      exact fixes.of (runAfter (runLift.mpr ⟨known, rfl⟩))
    · change Fixes _ _ _ _ (0 + c.toInt * 0)
      rw [← exactA, ← exactB, mul_zero, add_zero]
      exact numbersFix op unit constantA constantB rfl

theorem multFixes (ops : Layer) (left : u.Presents a p) (right : u.Presents b q)
    (first : a.number?.isSome = true) (second : b.number?.isSome = true)
    (symbolic : p.isSymbolic = !q.isSymbolic) :
    Fixes .mult (ops.mult p q) u.model (a.amount * b.amount) 0 := by
  rcases numberPresented left first .mult with
    ⟨m, rfl, known, exactA⟩ | ⟨l, m, rfl, constant, exactA⟩
  · rcases numberPresented right second .mult with ⟨_, rfl, _⟩ | ⟨r, n, rfl, constant, exactB⟩
    · simp [Operand.isSymbolic] at symbolic
    rw [← exactA, ← exactB]
    have fixes := termFixes .mult m constant (productWide m n) (zero_add _)
    exact fixes.of (runAfter (runLift.mpr ⟨known, rfl⟩))
  · rcases numberPresented right second .mult with ⟨n, rfl, known, exactB⟩ | ⟨_, _, rfl, _⟩
    · rw [← exactA, ← exactB, mul_comm]
      have fixes := termFixes .mult n constant (productWide n m) (zero_add _)
      exact fixes.of (runAfter (runLift.mpr ⟨known, rfl⟩))
    · simp [Operand.isSymbolic] at symbolic

theorem sumItemsNumber {s : Scalar} (number : s.number?.isSome = true)
    (held : Wide (offset + s.amount)) (items : List Operand) (terms : List Summand) :
    sumItems (.scalar s :: items) terms offset = sumItems items terms (offset + s.amount) := by
  obtain ⟨n, known, exact⟩ := Scalar.numberAmount number .sum
  rw [sumItems, known, ← exact]
  change (wide _ >>= _) = _
  rw [wideIn (exact ▸ held)]
  rfl

theorem sumItemsNumbers {items : List (Scalar × Bool)}
    (numbers : ∀ item ∈ items, item.1.number?.isSome = true)
    (held : Held offset (items.map (·.1.amount))) (terms : List Summand) :
    sumItems (items.map fun item => .scalar item.1) terms offset =
      .ok (terms, offset + amounts items) := by
  induction items generalizing offset with
  | nil => exact congrArg (fun total => Except.ok (terms, total)) (add_zero offset).symm
  | cons item items ih =>
    obtain ⟨number, others⟩ := List.forall_mem_cons.mp numbers
    rw [List.map_cons, sumItemsNumber number held.1, ih others held.2, amountsCons, add_assoc]

theorem sumItemsPresented {items : List (Scalar × Bool)} {xs : List Operand}
    (each : List.Forall₂ (fun item x => x.isSymbolic = item.2 ∧ u.Presents item.1 x) items xs)
    (numbers : ∀ item ∈ items, item.1.number?.isSome = true)
    (held : Held offset ((unchosen items).map (·.1.amount))) (terms : List Summand) :
    ∃ more : List Summand,
      sumItems xs terms offset = .ok (terms ++ more, offset + amounts (unchosen items)) ∧
      u.model.Worth more ((chosen items).map (·.1.amount)) := by
  induction each generalizing terms offset with
  | nil => exact ⟨[], by simp [sumItems, amounts, unchosen], .nil⟩
  | @cons item x items xs first _ ih =>
    obtain ⟨s, symbolic⟩ := item
    obtain ⟨number, others⟩ := List.forall_mem_cons.mp numbers
    rcases numberPresented first.2 number .sum with
      ⟨_, rfl, _⟩ | ⟨h, n, rfl, constant, exact⟩
    · have left : symbolic = false := first.1.symm
      subst left
      obtain ⟨more, ran, worth⟩ := ih others held.2 terms
      refine ⟨more, ?_, worth⟩
      rw [sumItemsNumber number held.1, ran, add_assoc]
      rfl
    · have made : symbolic = true := first.1.symm
      subst made
      obtain ⟨more, ran, worth⟩ := ih others held (terms ++ [(1, h)])
      refine ⟨(1, h) :: more, ?_, .cons ?_ worth⟩
      · rw [sumItems, ran, List.append_assoc]
        rfl
      · have spans := constant.spans (c := 1)
        rw [Int64.toInt_one, one_mul, exact] at spans
        exact spans

theorem sumFixes {items : List (Scalar × Bool)} {xs : List Operand}
    (each : List.Forall₂ (fun item x => x.isSymbolic = item.2 ∧ u.Presents item.1 x) items xs)
    (numbers : ∀ item ∈ items, item.1.number?.isSome = true) (few : items.length < 2 ^ 59)
    (symbolic : ∃ item ∈ items, item.2 = true) :
    Fixes .sum (sum xs) u.model (amounts items) (amounts (unchosen items)) := by
  obtain ⟨before, after⟩ := amountsHeld few
  obtain ⟨terms, split, worth⟩ := sumItemsPresented each numbers before []
  rw [zero_add, List.nil_append] at split
  have filled : ¬terms.isEmpty = true := by
    obtain ⟨item, mem, made⟩ := symbolic
    have listed : item ∈ chosen items := List.mem_filter.mpr ⟨mem, made⟩
    cases terms with
    | nil =>
      have missing : chosen items = [] := by simpa using worth.length_eq.symm
      rw [missing] at listed
      cases listed
    | cons _ _ => exact Bool.false_ne_true
  have ran : sum xs u.model =
      (do return .var (← linear .sum terms (amounts (unchosen items))) : Build Operand) u.model := by
    rw [sum, runAfter (runLift.mpr ⟨split, rfl⟩)]
    exact congrFun (if_neg filled) u.model
  exact (linearFixes .sum worth after (amountsSplit items)).of ran

theorem sumCounts {items : List (Scalar × Bool)}
    (numbers : ∀ item ∈ items, item.1.number?.isSome = true) (few : items.length < 2 ^ 59) :
    Counts .sum (sum (items.map fun item => .scalar item.1)) m (amounts items) := by
  have few : (items.length : Int) < 2 ^ 59 := by exact_mod_cast few
  have held : Held 0 (items.map (·.1.amount)) := by
    refine heldFew (List.forall_mem_map.mpr fun item _ => fitsWord _) ?_ ?_ <;>
    · rw [List.length_map]
      omega
  have split := sumItemsNumbers numbers held []
  rw [zero_add] at split
  exact (narrowCounts .sum).of (runAfter (runLift.mpr ⟨split, rfl⟩))

theorem numbersCount (op : Operation) (f : Int → Int → Int) (first : a.number?.isSome = true)
    (second : b.number?.isSome = true) :
    Counts op (do
      let x ← a.number op
      let y ← b.number op
      return long (← narrow op (f x.toInt y.toInt))) m (f a.amount b.amount) := by
  obtain ⟨x, left, exactA⟩ := Scalar.numberAmount first op
  obtain ⟨y, right, exactB⟩ := Scalar.numberAmount second op
  rw [← exactA, ← exactB]
  exact (narrowCounts op).of
    ((runAfter (runLift.mpr ⟨left, rfl⟩)).trans (runAfter (runLift.mpr ⟨right, rfl⟩)))

theorem signedCounts (op : Operation) (c : Int64) (first : a.number?.isSome = true)
    (second : b.number?.isSome = true) : Counts op (signed op c (.scalar a) (.scalar b)) m
      (a.amount + c.toInt * b.amount) :=
  numbersCount op (fun x y => x + c.toInt * y) first second

end Numbers

end Model

namespace Layer

variable {E : Type} [Encoding E] {ops : Layer} {w : Workspace E}

theorem presentTwoAchieves (inside : ops.In w.model) (a b : Scalar) (p q : Bool) :
    Achieves (ops.present [(a, p), (b, q)]) w fun xs v => ∃ x y, xs = [x, y] ∧
      (x.isSymbolic = p ∧ v.Presents a x) ∧ (y.isSymbolic = q ∧ v.Presents b y) ∧
      v.model.constraints = w.model.constraints := by
  intro small
  obtain ⟨xs, v, ok, each, kept⟩ := presentAchieves inside [(a, p), (b, q)] small
  obtain ⟨x, _, left, rest, same⟩ := List.forall₂_cons_left_iff.mp each
  obtain ⟨y, _, right, last, others⟩ := List.forall₂_cons_left_iff.mp rest
  rw [List.forall₂_nil_left_iff.mp last] at others
  exact ⟨xs, v, ok, x, y, same.trans (congrArg _ others), left, right, kept⟩

end Layer

namespace Session

variable {E : Type} [Encoding E] [StableEncoding E]

/-- Operators agree with their results on scalars however many of the scalars are made into
variables first. A relation or a membership is the constant for its truth value, and nothing is
posted. A sum, a difference or a product is a variable fixed to the exact result, where that and the
numbers left beside the variables fit; on numbers alone only the result has to. -/
theorem constantsAgree (calls : List (Call E)) (place : Nat) {ops : Layer} {e : E}
    (built : ∀ c ∈ calls, c.Built) (small : (start.run calls).model.Small)
    (opened : (start.run calls).layers[place]? = some (ops, e)) :
    let m := (start.run calls).model
    let w : Workspace E := ⟨m, e⟩
    (∀ (rel : Relation) (a b : Scalar), a.Alike b → (a.kind = .string → rel.isOrdering = false) →
      ∃ t, (ops.compare rel (.scalar a) (.scalar b) : Operate E Operand) w =
          .ok (.scalar (.bool t)) w ∧
        ∀ p q, p = true ∨ q = true → Achieves (ops.present [(a, p), (b, q)]) w fun xs v =>
          ∃ x y, xs = [x, y] ∧ v.model.constraints = m.constraints ∧
            ops.Decides (ops.compare rel x y) v t) ∧
    (∀ (s : Scalar) (items : List Scalar), (∀ item ∈ items, s.Alike item) →
      ∃ t, (ops.isIn (.scalar s) (items.map .scalar) : Operate E Operand) w =
          .ok (.scalar (.bool t)) w ∧
        Achieves (ops.toConst (.scalar s)) w fun h v =>
          v.model.constraints = m.constraints ∧
            ops.Decides (ops.isIn (.var h) (items.map .scalar)) v t) ∧
    (∀ items : List (Scalar × Bool), items.length < 2 ^ 59 →
      (∀ item ∈ items, item.1.number?.isSome = true) →
      Model.Counts .sum (Model.sum (items.map fun item => .scalar item.1)) m (amounts items) ∧
        ((∃ item ∈ items, item.2 = true) → Achieves (ops.present items) w fun xs v =>
          Model.Fixes .sum (Model.sum xs) v.model (amounts items) (amounts (unchosen items)))) ∧
    (∀ a b : Scalar, a.number?.isSome = true → b.number?.isSome = true →
      Model.Counts .plus (Model.plus (.scalar a) (.scalar b)) m (a.amount + b.amount) ∧
      Model.Counts .minus (Model.minus (.scalar a) (.scalar b)) m (a.amount - b.amount) ∧
      Model.Counts .mult (ops.mult (.scalar a) (.scalar b)) m (a.amount * b.amount) ∧
      ∀ p q, p = true ∨ q = true → Achieves (ops.present [(a, p), (b, q)]) w fun xs v =>
        ∃ x y, xs = [x, y] ∧
          Model.Fixes .plus (Model.plus x y) v.model (a.amount + b.amount)
            (a.beside p + b.beside q) ∧
          Model.Fixes .minus (Model.minus x y) v.model (a.amount - b.amount)
            (a.beside p - b.beside q) ∧
          (p = !q → Model.Fixes .mult (ops.mult x y) v.model (a.amount * b.amount) 0)) := by
  intro m w
  have sound := runSound built startSound
  have inside : ops.In m := sound.layers small _ (List.mem_of_getElem? opened)
  refine ⟨fun rel a b alike plain => ?_, fun s items alike => ?_, fun items few numbers => ?_,
    fun a b first second => ?_⟩
  · obtain ⟨t, host⟩ := Scalar.compareAlike rel alike plain
    refine ⟨t, runMap.mpr ⟨t, runLift.mpr ⟨host, rfl⟩, rfl⟩, fun p q symbolic room => ?_⟩
    obtain ⟨xs, v, ok, x, y, both, ⟨rfl, left⟩, ⟨rfl, right⟩, kept⟩ :=
      Layer.presentTwoAchieves inside a b p q room
    exact ⟨xs, v, ok, x, y, both, kept,
      Layer.compareDecides alike plain left right symbolic host⟩
  · obtain ⟨t, ran, host⟩ := ops.isInScalars w alike
    refine ⟨t, ran, fun room => ?_⟩
    obtain ⟨h, v, ok, presents, kept⟩ := Layer.toConstAchieves inside s room
    exact ⟨h, v, ok, kept, Layer.isInDecides presents alike host⟩
  · refine ⟨Model.sumCounts numbers few, fun symbolic room => ?_⟩
    obtain ⟨xs, v, ok, each, _⟩ := Layer.presentAchieves inside items room
    exact ⟨xs, v, ok, Model.sumFixes each numbers few symbolic⟩
  · have sum := Model.signedCounts (m := m) .plus 1 first second
    have difference := Model.signedCounts (m := m) .minus (-1) first second
    rw [addOne] at sum
    rw [addMinusOne] at difference
    refine ⟨sum, difference, Model.numbersCount .mult (· * ·) first second,
      fun p q symbolic room => ?_⟩
    obtain ⟨xs, v, ok, x, y, both, ⟨rfl, left⟩, ⟨rfl, right⟩, _⟩ :=
      Layer.presentTwoAchieves inside a b p q room
    have plus := Model.signedFixes .plus (.inl rfl) left right first second symbolic
    have minus := Model.signedFixes .minus (.inr rfl) left right first second symbolic
    rw [addOne, addOne] at plus
    rw [addMinusOne, addMinusOne] at minus
    exact ⟨xs, v, ok, x, y, both, plus, minus,
      fun one => Model.multFixes ops left right first second one⟩

theorem constantsAgreeOnce :
    let calls : List (Call Dictionary) := [.layer .standard .empty]
    let ops : Layer := ⟨⟨1, by decide⟩, ⟨2, by decide⟩, .standard⟩
    let m := (start.run calls).model
    let w : Workspace Dictionary := ⟨m, .empty⟩
    let items : List (Scalar × Bool) :=
      [(.long Int64.minValue, true), (.long Int64.maxValue, false), (.int 1, false)]
    m.Small ∧ (start.run calls).layers[0]? = some (ops, .empty) ∧
      Model.sum (items.map fun item => .scalar item.1) m = .ok (Model.long 0) m ∧
      (∃ xs v, ops.present items w = .ok xs v ∧
        Model.sum xs v.model = .error (.tooWide .sum (2 ^ 63)) v.model) ∧
      ∃ xs x y v u, ops.present [(.str "a", true), (.str "b", false)] w = .ok xs v ∧ xs = [x, y] ∧
        ops.compare .ne x y v = .ok (.var ops.trueVar) u := by
  intro calls ops m w items
  have small : m.Small := by decide
  have opened : (start.run calls).layers[0]? = some (ops, .empty) := rfl
  obtain ⟨compares, _, sums, _⟩ :=
    constantsAgree calls 0 (by simp [calls, Call.Built]) small opened
  have numbers : ∀ item ∈ items, item.1.number?.isSome = true := by decide
  obtain ⟨host, chosen⟩ := sums items (by decide) numbers
  have three : (3 : Nat) < 2 ^ 31 := by decide
  refine ⟨small, opened, host.1 0 (by decide), ?_, ?_⟩
  · obtain ⟨xs, v, ok, fixes⟩ := chosen (by decide) three
    exact ⟨xs, v, ok, fixes.2 (by decide)⟩
  · obtain ⟨t, host, symbolic⟩ := compares .ne (.str "a") (.str "b") trivial fun _ => rfl
    cases host
    obtain ⟨xs, v, ok, x, y, both, _, z, u, ran, _, decided⟩ :=
      symbolic true false (.inl rfl) three
    have few : u.encoder.size ≤ 2 ^ 63 := by
      cases ok
      cases both
      cases ran
      decide
    rw [decided (Dictionary.dictionaryInjective few)] at ran
    exact ⟨xs, x, y, v, u, ok, both, ran⟩

end Session

end ConstraintAlgebra
