import ConstraintAlgebra.Constraint
import Mathlib.Data.List.Chain

/-! The tokens of the texts of constraints. A handle or a number ends in digits, and what a text puts
between two of them starts with something else, so a text can be cut into tokens in one way only. -/
namespace ConstraintAlgebra

inductive Mark where
  | relation (r : Relation)
  | guard
  | inside
  | greatest
  | least
  | anyTrue
  | allTrue
  | close
  | brace
  | comma
  | plus
  | times
  | divided
  | factor
  | range
  deriving DecidableEq

namespace Mark

def text : Mark → List Char
  | relation .eq => [' ', '=', '=', ' ']
  | relation .ne => [' ', '!', '=', ' ']
  | relation .lt => [' ', '<', ' ']
  | relation .le => [' ', '<', '=', ' ']
  | relation .gt => [' ', '>', ' ']
  | relation .ge => [' ', '>', '=', ' ']
  | guard => [' ', '=', '>', ' ']
  | inside => [' ', 'i', 'n', ' ', '\x7b']
  | greatest => ['m', 'a', 'x', '(']
  | least => ['m', 'i', 'n', '(']
  | anyTrue => ['o', 'r', '(']
  | allTrue => ['a', 'n', 'd', '(']
  | close => [')']
  | brace => ['\x7d']
  | comma => [',', ' ']
  | plus => [' ', '+', ' ']
  | times => [' ', '*', ' ']
  | divided => [' ', '/', ' ']
  | factor => ['*']
  | range => ['.', '.']

def all : List Mark :=
  [.relation .eq, .relation .ne, .relation .lt, .relation .le, .relation .gt, .relation .ge, .guard,
    .inside, .greatest, .least, .anyTrue, .allTrue, .close, .brace, .comma, .plus, .times, .divided,
    .factor, .range]

theorem memAll (m : Mark) : m ∈ all := by
  cases m with
  | relation r => cases r <;> decide
  | _ => decide

theorem prefixFree {m n : Mark} (first : m.text <+: n.text) : m = n := by
  have code : ∀ m ∈ all, ∀ n ∈ all, m.text <+: n.text → m = n := by decide
  exact code m (memAll m) n (memAll n) first

theorem start (m : Mark) :
    ∃ c rest, m.text = c :: rest ∧ c.isDigit = false ∧ c ∉ ['x', '~', '-'] := by
  cases m with
  | relation r => cases r <;> exact ⟨' ', _, rfl, by decide⟩
  | _ => exact ⟨_, _, rfl, by decide⟩

end Mark

section Runs

variable {α : Type} {p : α → Bool} {left right rest after : List α}

theorem takeRun (run : ∀ c ∈ left, p c = true) (ends : ∀ c ∈ rest.head?, p c = false) :
    (left ++ rest).takeWhile p = left := by
  rw [List.takeWhile_append_of_pos run]
  cases rest with
  | nil => exact List.append_nil _
  | cons c rest => rw [List.takeWhile_cons, ends c rfl, if_neg Bool.false_ne_true, List.append_nil]

theorem cancelRun (first : ∀ c ∈ left, p c = true) (second : ∀ c ∈ right, p c = true)
    (ends : ∀ c ∈ rest.head?, p c = false) (stops : ∀ c ∈ after.head?, p c = false)
    (same : left ++ rest = right ++ after) : left = right ∧ rest = after := by
  have runs := congrArg (List.takeWhile p) same
  rw [takeRun first ends, takeRun second stops] at runs
  subst runs
  exact ⟨rfl, List.append_cancel_left same⟩

end Runs

section Digits

variable {left right rest after : List Char} {m n : Nat}

theorem digitsDigit : ∀ c ∈ Nat.toDigits 10 n, c.isDigit = true :=
  fun _ mem => Nat.isDigit_of_mem_toDigits (by decide) (by decide) mem

theorem digitsUnique (same : Nat.toDigits 10 m = Nat.toDigits 10 n) : m = n := by
  rw [← Nat.ofDigitChars_ten_toDigits (n := m), same, Nat.ofDigitChars_ten_toDigits]

theorem digitsStart : ∀ c ∈ (Nat.toDigits 10 n ++ rest).head?, c.isDigit = true := by
  intro c mem
  rw [List.head?_append_of_ne_nil _ Nat.toDigits_ne_nil] at mem
  exact digitsDigit c (List.mem_of_mem_head? mem)

theorem cancelSigned (sign : ∀ c ∈ left, c.isDigit = false) (other : ∀ c ∈ right, c.isDigit = false)
    (ends : ∀ c ∈ rest.head?, c.isDigit = false) (stops : ∀ c ∈ after.head?, c.isDigit = false)
    (same : left ++ (Nat.toDigits 10 m ++ rest) = right ++ (Nat.toDigits 10 n ++ after)) :
    left = right ∧ m = n ∧ rest = after := by
  have plain : ∀ {cs : List Char}, (∀ c ∈ cs, c.isDigit = false) → ∀ c ∈ cs, (!c.isDigit) = true :=
    fun none c mem => by rw [none c mem]; rfl
  have digits : ∀ {k cs}, ∀ c ∈ (Nat.toDigits 10 k ++ cs).head?, (!c.isDigit) = false :=
    fun c mem => by rw [digitsStart c mem]; rfl
  obtain ⟨signs, words⟩ := cancelRun (plain sign) (plain other) digits digits same
  obtain ⟨numbers, tails⟩ := cancelRun digitsDigit digitsDigit ends stops words
  exact ⟨signs, digitsUnique numbers, tails⟩

end Digits

theorem signedUnique {minus plus : List Char} (differ : minus ≠ plus) {m n : Int}
    (signs : (if m < 0 then minus else plus) = if n < 0 then minus else plus)
    (magnitudes : m.natAbs = n.natAbs) : m = n := by
  split at signs
  · split at signs
    · omega
    · exact absurd signs differ
  · split at signs
    · exact absurd signs.symm differ
    · omega

namespace Term

variable {t u : Term}

def number : Term → Int
  | var h => h.code.toInt
  | const c => c.toInt

def sign : Term → List Char
  | var h => if (var h).number < 0 then ['~', 'x'] else ['x']
  | const c => if (const c).number < 0 then ['-'] else []

theorem text (t : Term) : (toString t).toList = t.sign ++ Nat.toDigits 10 t.number.natAbs := by
  cases t with
  | var h =>
    change ((if h.isNegated then "~" else "") ++ ("x" ++ Nat.repr h.id.id.toNat)).toList = _
    rw [h.idMagnitude, sign, number]
    simp only [Handle.isNegated, decide_eq_true_eq, Int32.lt_iff_toInt_lt, Int32.toInt_zero]
    split <;> simp [Nat.toList_repr]
  | const c =>
    change (toString c.toInt).toList = _
    rw [Int.toString_eq_repr, Int.repr_eq_if, sign, number]
    by_cases negative : c.toInt < 0
    · have magnitude : (-c.toInt).toNat = c.toInt.natAbs := by omega
      rw [if_pos negative, if_neg (by omega), String.toList_append, Nat.toList_repr, magnitude]
      rfl
    · have magnitude : c.toInt.toNat = c.toInt.natAbs := by omega
      rw [if_neg negative, if_pos (by omega), Nat.toList_repr, magnitude]
      rfl

theorem signPlain (t : Term) : ∀ c ∈ t.sign, c.isDigit = false := by
  cases t <;> rw [sign] <;> split <;> simp

theorem signUnique (signs : t.sign = u.sign) (magnitudes : t.number.natAbs = u.number.natAbs) :
    t = u := by
  cases t with
  | var h =>
    cases u with
    | var k =>
      have codes : h.code = k.code :=
        Int32.toInt_inj.mp (signedUnique (by decide) signs magnitudes)
      cases h
      cases codes
      rfl
    | const d =>
      simp only [sign] at signs
      split at signs <;> split at signs <;> cases signs
  | const c =>
    cases u with
    | var k =>
      simp only [sign] at signs
      split at signs <;> split at signs <;> cases signs
    | const d => exact congrArg const (Int64.toInt_inj.mp (signedUnique (by decide) signs magnitudes))

theorem start (t : Term) (rest : List Char) :
    ∃ c cs, (toString t).toList ++ rest = c :: cs ∧ (c.isDigit = true ∨ c ∈ ['x', '~', '-']) := by
  rw [text]
  cases t with
  | var h =>
    rw [sign]
    split
    · exact ⟨'~', _, rfl, by decide⟩
    · exact ⟨'x', _, rfl, by decide⟩
  | const c =>
    rw [sign]
    split
    · exact ⟨'-', _, rfl, by decide⟩
    · obtain ⟨d, ds, digits⟩ := List.exists_cons_of_ne_nil Nat.toDigits_ne_nil
      rw [digits]
      exact ⟨d, _, rfl, .inl (digitsDigit d (digits ▸ List.mem_cons_self))⟩

end Term

inductive Token where
  | term (t : Term)
  | mark (m : Mark)
  deriving DecidableEq

namespace Token

variable {t u : Token} {ts us : List Token} {rest after : List Char}

def text : Token → List Char
  | term t => (toString t).toList
  | mark m => m.text

def isMark : Token → Bool
  | term _ => false
  | mark _ => true

def written (ts : List Token) : List Char := ts.flatMap text

@[simp]
theorem writtenNil : written [] = [] := rfl

@[simp]
theorem writtenTerm (t : Term) (ts : List Token) :
    written (term t :: ts) = (toString t).toList ++ written ts := rfl

@[simp]
theorem writtenMark (m : Mark) (ts : List Token) : written (mark m :: ts) = m.text ++ written ts := rfl

@[simp]
theorem writtenAppend (ts us : List Token) : written (ts ++ us) = written ts ++ written us :=
  List.flatMap_append

def Spaced (ts : List Token) : Prop := ts.IsChain fun t u => t.isMark = true ∨ u.isMark = true

theorem termNotMark (t : Term) (m : Mark) : (term t).text ++ rest ≠ (mark m).text ++ after := by
  intro same
  obtain ⟨c, cs, word, starts⟩ := t.start rest
  obtain ⟨d, ds, other, plain, foreign⟩ := m.start
  rw [text, text, word, other, List.cons_append, List.cons.injEq] at same
  obtain ⟨rfl, -⟩ := same
  rcases starts with digit | sign
  · exact Bool.false_ne_true (plain.symm.trans digit)
  · exact foreign sign

theorem cancelToken (ends : t.isMark = false → ∀ c ∈ rest.head?, c.isDigit = false)
    (stops : u.isMark = false → ∀ c ∈ after.head?, c.isDigit = false)
    (same : t.text ++ rest = u.text ++ after) : t = u ∧ rest = after := by
  cases t with
  | term t =>
    cases u with
    | term u =>
      simp only [text, Term.text, List.append_assoc] at same
      obtain ⟨signs, magnitudes, tails⟩ :=
        cancelSigned t.signPlain u.signPlain (ends rfl) (stops rfl) same
      exact ⟨congrArg term (Term.signUnique signs magnitudes), tails⟩
    | mark n => exact absurd same (termNotMark t n)
  | mark m =>
    cases u with
    | term u => exact absurd same.symm (termNotMark u m)
    | mark n =>
      have marks : m = n := by
        rcases List.prefix_or_prefix_of_prefix (List.prefix_append m.text rest)
          (same ▸ List.prefix_append n.text after) with first | second
        · exact Mark.prefixFree first
        · exact (Mark.prefixFree second).symm
      subst marks
      exact ⟨rfl, List.append_cancel_left same⟩

theorem textInhabited (t : Token) : t.text ≠ [] := by
  cases t with
  | term t =>
    obtain ⟨c, cs, starts, -⟩ := t.start []
    rw [text, ← List.append_nil (toString t).toList, starts]
    exact List.cons_ne_nil c cs
  | mark m =>
    obtain ⟨c, cs, starts, -⟩ := m.start
    rw [text, starts]
    exact List.cons_ne_nil c cs

theorem Spaced.tail (spaced : Spaced (t :: ts)) : Spaced ts := by
  cases ts with
  | nil => exact .nil
  | cons u ts => exact (List.isChain_cons_cons.mp spaced).2

theorem Spaced.ends (spaced : Spaced (t :: ts)) (word : t.isMark = false) :
    ∀ c ∈ (written ts).head?, c.isDigit = false := by
  cases ts with
  | nil => simp [written]
  | cons u ts =>
    have follows := (List.isChain_cons_cons.mp spaced).1
    rw [word, or_iff_right Bool.false_ne_true] at follows
    cases u with
    | term u => cases follows
    | mark m =>
      obtain ⟨d, ds, starts, plain, -⟩ := m.start
      intro c mem
      rw [written, List.flatMap_cons, text, starts] at mem
      cases mem
      exact plain

theorem writtenUnique (left : Spaced ts) (right : Spaced us) (same : written ts = written us) :
    ts = us := by
  induction ts generalizing us with
  | nil =>
    cases us with
    | nil => rfl
    | cons u us => exact absurd (List.append_eq_nil_iff.mp same.symm).1 (textInhabited u)
  | cons t ts ih =>
    cases us with
    | nil => exact absurd (List.append_eq_nil_iff.mp same).1 (textInhabited t)
    | cons u us =>
      -- The digits of a first handle or number end here in both lists, as each is spaced.
      obtain ⟨rfl, rest⟩ := cancelToken left.ends right.ends same
      rw [ih left.tail right.tail rest]

theorem spacedSingle (t : Token) : Spaced [t] := .singleton t

theorem spacedAround {m : Mark} (left : Spaced ts) (right : Spaced us) :
    Spaced (ts ++ mark m :: us) := by
  have starts : Spaced (mark m :: us) := by
    cases us with
    | nil => exact .singleton _
    | cons u us => exact .cons_cons (.inl rfl) right
  refine List.isChain_append.mpr ⟨left, starts, fun t _ u first => ?_⟩
  cases first
  exact .inr rfl

section Joined

variable {sep : Mark} {ps qs : List (List Token)}

def joined (sep : Mark) (ps : List (List Token)) : List Token := [mark sep].intercalate ps

theorem writtenJoined (sep : Mark) (ps : List (List Token)) :
    written (joined sep ps) = sep.text.intercalate (ps.map written) := by
  match ps with
  | [] => rfl
  | [p] => simp only [joined, List.intercalate_singleton, List.map_cons, List.map_nil]
  | p :: q :: ps =>
    have rest := writtenJoined sep (q :: ps)
    simp only [joined, List.map_cons, List.intercalate_cons_cons] at rest ⊢
    simp [← rest]

theorem memJoined (mem : t ∈ joined sep ps) : t = mark sep ∨ ∃ p ∈ ps, t ∈ p := by
  induction ps with
  | nil => cases mem
  | cons p ps ih =>
    cases ps with
    | nil => exact .inr ⟨p, by simp, by simpa [joined] using mem⟩
    | cons q ps =>
      rw [joined, List.intercalate_cons_cons, List.append_assoc, List.mem_append, List.mem_append,
        List.mem_singleton] at mem
      rcases mem with inside | between | rest
      · exact .inr ⟨p, by simp, inside⟩
      · exact .inl between
      · refine (ih rest).imp_right fun ⟨r, listed, inside⟩ => ?_
        exact ⟨r, List.mem_cons_of_mem p listed, inside⟩

theorem spacedJoined (spaced : ∀ p ∈ ps, Spaced p) : Spaced (joined sep ps) := by
  induction ps with
  | nil => exact .nil
  | cons p ps ih =>
    obtain ⟨first, rest⟩ := List.forall_mem_cons.mp spaced
    cases ps with
    | nil => rwa [joined, List.intercalate_singleton]
    | cons q ps =>
      rw [joined, List.intercalate_cons_cons, List.append_assoc]
      exact spacedAround first (ih rest)

theorem joinedInhabited {p : List Token} (filled : p ≠ []) : joined sep (p :: ps) ≠ [] := by
  cases ps with
  | nil => rwa [joined, List.intercalate_singleton]
  | cons q ps =>
    rw [joined, List.intercalate_cons_cons, List.append_assoc]
    exact fun none => filled (List.append_eq_nil_iff.mp none).1

theorem joinedUnique (first : ∀ p ∈ ps, p ≠ [] ∧ mark sep ∉ p)
    (second : ∀ q ∈ qs, q ≠ [] ∧ mark sep ∉ q) (same : joined sep ps = joined sep qs) : ps = qs := by
  cases ps with
  | nil =>
    cases qs with
    | nil => rfl
    | cons q qs => exact absurd same.symm (joinedInhabited (second q (by simp)).1)
  | cons p ps =>
    cases qs with
    | nil => exact absurd same (joinedInhabited (first p (by simp)).1)
    | cons q qs =>
      have left := List.splitOn_intercalate (mark sep) (fun p mem => (first p mem).2) (by simp)
      have right := List.splitOn_intercalate (mark sep) (fun q mem => (second q mem).2) (by simp)
      rw [← left, ← right]
      exact congrArg _ same

def Part (m : Mark) (p : List Token) : Prop :=
  (∃ t, p = [term t]) ∨ ∃ t u, p = [term t, mark m, term u]

variable {m : Mark} {p : List Token}

theorem partIf {c : Prop} [Decidable c] {t u v : Term} :
    Part m (if c then [term t] else [term u, mark m, term v]) := by
  split
  · exact .inl ⟨t, rfl⟩
  · exact .inr ⟨u, v, rfl⟩

theorem partIfUnique {c d : Prop} [Decidable c] [Decidable d] {t u v x y z : Term}
    (same : (if c then [term t] else [term u, mark m, term v]) =
      if d then [term x] else [term y, mark m, term z]) :
    c ∧ d ∧ t = x ∨ ¬c ∧ ¬d ∧ u = y ∧ v = z := by
  split at same
  · rename_i short
    split at same
    · rename_i other
      cases same
      exact .inl ⟨short, other, rfl⟩
    · cases same
  · rename_i long
    split at same
    · cases same
    · rename_i other
      cases same
      exact .inr ⟨long, other, rfl, rfl⟩

theorem Part.spaced (part : Part m p) : Spaced p := by
  obtain ⟨t, rfl⟩ | ⟨t, u, rfl⟩ := part
  · exact .singleton _
  · exact spacedAround (spacedSingle (term t)) (spacedSingle (term u))

theorem Part.filled (part : Part m p) : p ≠ [] := by
  obtain ⟨t, rfl⟩ | ⟨t, u, rfl⟩ := part
  · simp
  · simp

theorem Part.marks {k : Mark} (part : Part m p) (mem : mark k ∈ p) : k = m := by
  obtain ⟨t, rfl⟩ | ⟨t, u, rfl⟩ := part
  · simp at mem
  · simpa using mem

theorem partsSpaced (parts : ∀ p ∈ ps, Part m p) : Spaced (joined sep ps) :=
  spacedJoined fun p mem => (parts p mem).spaced

theorem partsMarks {k : Mark} (parts : ∀ p ∈ ps, Part m p) (mem : mark k ∈ joined sep ps) :
    k = sep ∨ k = m := by
  rcases memJoined mem with same | ⟨p, listed, inside⟩
  · exact .inl (by simpa using same)
  · exact .inr ((parts p listed).marks inside)

theorem partsUnique (other : sep ≠ m) (first : ∀ p ∈ ps, Part m p) (second : ∀ q ∈ qs, Part m q)
    (same : joined sep ps = joined sep qs) : ps = qs := by
  have apart : ∀ {rs : List (List Token)}, (∀ r ∈ rs, Part m r) →
      ∀ r ∈ rs, r ≠ [] ∧ mark sep ∉ r :=
    fun parts r mem => ⟨(parts r mem).filled, fun inside => other ((parts r mem).marks inside)⟩
  exact joinedUnique (apart first) (apart second) same

end Joined

end Token

end ConstraintAlgebra
