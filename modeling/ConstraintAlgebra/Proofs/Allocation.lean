import ConstraintAlgebra.Proofs.Representable
import ConstraintAlgebra.Proofs.Success

/-! Handles that calls return. A call may make several variables, but the only one of them that it can
return is the last; a call that makes none returns a handle it was given, the complement of one or a
constant of the layer. With what every step keeps, this makes each state of a run well formed. -/
namespace ConstraintAlgebra

namespace Model

variable {m n k : Model} {h b : Handle} {op : Operation} {terms : List Summand} {offset : Int}

structure Newest (n : Model) (h : Handle) : Prop where
  place : h.index + 1 = n.vars.length
  sign : h.isNegated = false

structure Makes (m n : Model) (h : Handle) : Prop where
  grown : m.vars.length < n.vars.length
  newest : n.Newest h

/-- One nameless bit was added, with one constraint that binds where it is true and one that binds
where it is false. -/
def Posts (m n : Model) (b : Handle) : Prop :=
  ∃ holds fails c, b.negate = .ok c ∧ m.Next b ∧ n =
    ⟨m.vars ++ [⟨⟨[⟨0, 1⟩]⟩, ""⟩], m.constraints ++ [⟨holds, some b⟩, ⟨fails, some c⟩]⟩

theorem Next.makes {v : Variable} {ps : List Posted} (next : m.Next h) : m.Makes (m.extended v ps) h := by
  have size : (m.extended v ps).vars.length = m.vars.length + 1 := by
    rw [extended, List.length_append, List.length_singleton]
  exact ⟨by omega, by rw [next.place, size], next.sign⟩

theorem Makes.later (makes : n.Makes k h) (le : m ≤ n) : m.Makes k h :=
  ⟨(leVars le).trans_lt makes.grown, makes.newest⟩

theorem Posts.makes (posts : m.Posts n b) : m.Makes n b := by
  obtain ⟨holds, fails, c, _, next, rfl⟩ := posts
  exact next.makes

theorem reifyPosts {holds fails : Constraint} (small : n.Small) (ok : reify holds fails m = .ok b n) :
    m.Posts n b := by
  obtain ⟨c, negated, extended, _, next⟩ := reifyOk ok
  exact ⟨holds, fails, c, negated, next small, extended⟩

theorem reifyConnectivePosts {c : Connective} {lits : List Handle} (small : n.Small)
    (ok : reifyConnective c lits m = .ok b n) : m.Posts n b := by
  simp only [reifyConnective, runBind, runMapMLift] at ok
  obtain ⟨_, _, ⟨_, rfl⟩, ok⟩ := ok
  exact reifyPosts small ok

end Model

namespace Layer

open Model

variable {E : Type} [Encoding E] {ops : Layer} {m n : Model} {w v : Workspace E} {x y z : Operand}
  {h l r b : Handle} {hs : List Handle} {rel : Relation} {c : Int64}

def Offers (ops : Layer) (hs : List Handle) (b : Handle) : Prop :=
  b = ops.trueVar ∨ b = ops.falseVar ∨ ∃ h ∈ hs, b = h ∨ h.negate = .ok b

theorem offersConstant (t : Bool) : ops.Offers hs (ops.constant t) := by
  cases t
  · exact .inr (.inl rfl)
  · exact .inl rfl

theorem offersHandle (mem : h ∈ hs) : ops.Offers hs h := .inr (.inr ⟨h, mem, .inl rfl⟩)

def Responds (ops : Layer) (m n : Model) (hs : List Handle) (b : Handle) : Prop :=
  (n = m ∧ ops.Offers hs b) ∨ m.Posts n b

theorem respondsConstant {t : Bool} (constant : b = ops.constant t) (same : m = n) :
    ops.Responds m n hs b := .inl ⟨same.symm, constant ▸ offersConstant t⟩

theorem respondsHandle (mem : b ∈ hs) (same : m = n) : ops.Responds m n hs b :=
  .inl ⟨same.symm, offersHandle mem⟩

def Indicates (ops : Layer) (m n : Model) (b : Handle) : Prop :=
  (∃ t, b = ops.constant t ∧ m = n) ∨ m.Posts n b

theorem Indicates.responds (indicates : ops.Indicates m n b) : ops.Responds m n hs b := by
  rcases indicates with ⟨t, constant, same⟩ | posts
  · exact respondsConstant constant same
  · exact .inr posts

theorem compareConstIndicates (small : n.Small) (ok : ops.compareConst rel h c m = .ok b n) :
    ops.Indicates m n b := by
  obtain ⟨_, _, ⟨t, _, constant, same⟩ | ⟨_, ok⟩⟩ := compareConstCases ok
  · exact .inl ⟨t, constant, same⟩
  · exact .inr (reifyPosts small ok)

theorem compareVarsIndicates (small : n.Small) (ok : ops.compareVars rel l r m = .ok b n) :
    ops.Indicates m n b := by
  obtain ⟨_, constant, same⟩ | ⟨_, _, _, _, _, ⟨t, _, constant, same⟩ | ⟨_, ok⟩⟩ :=
    compareVarsCases ok
  · exact .inl ⟨_, constant, same⟩
  · exact .inl ⟨t, constant, same⟩
  · exact .inr (reifyPosts small ok)

theorem compareIndicates (small : v.model.Small) (ok : ops.compare rel x y w = .ok z v) :
    (w.model = v.model ∧ ∃ t, z = .scalar (.bool t)) ∨
      ∃ b, z = .var b ∧ ops.Indicates w.model v.model b := by
  cases compareCases ok with
  | handles ran _ => exact .inr ⟨_, rfl, compareVarsIndicates small ran⟩
  | handleFirst _ _ ran => exact .inr ⟨_, rfl, compareConstIndicates small ran⟩
  | scalarFirst _ _ ran => exact .inr ⟨_, rfl, compareConstIndicates small ran⟩
  | scalars _ same => exact .inl ⟨congrArg Workspace.model same, _, rfl⟩

theorem connectVarsResponds {k : Connective} (small : n.Small)
    (ok : ops.connectVars k l r m = .ok b n) : ops.Responds m n [l, r] b := by
  obtain ⟨same, waived | ⟨_, _, constant⟩⟩ | ⟨_, _, ok⟩ := connectVarsCases ok
  · cases waived with
    | neutralLeft _ _ => exact respondsHandle (by simp) same
    | neutralRight _ _ => exact respondsHandle (by simp) same
    | same _ _ => exact respondsHandle (by simp) same
    | _ => exact respondsConstant rfl same
  · exact respondsConstant constant same
  · exact .inr (reifyConnectivePosts small ok)

theorem connectConstResponds {k : Connective} {t : Bool}
    (ok : ops.connectConst k h t m = .ok b n) : ops.Responds m n [h] b := by
  obtain ⟨same, _, ⟨constant, _⟩ | ⟨_, kept | ⟨constant, _⟩⟩⟩ := connectConstCases ok
  · exact respondsConstant constant same
  · exact respondsHandle (by simp [kept]) same
  · exact respondsConstant constant same

theorem connectResponds {k : Connective} (small : n.Small) (ok : ops.connect k x y m = .ok z n) :
    (∃ p q t, x = .scalar p ∧ y = .scalar q ∧ z = .scalar t) ∨
      ∃ b, z = .var b ∧ ops.Responds m n (x.handles ++ y.handles) b := by
  cases connectCases ok with
  | scalars => exact .inl ⟨_, _, _, rfl, rfl, rfl⟩
  | scalarFirst ran => exact .inr ⟨_, rfl, connectConstResponds ran⟩
  | handleFirst ran => exact .inr ⟨_, rfl, connectConstResponds ran⟩
  | handles ran => exact .inr ⟨_, rfl, connectVarsResponds small ran⟩

theorem notResponds (small : n.Small) (ok : ops.not x m = .ok z n) :
    (∃ p t, x = .scalar p ∧ z = .scalar t) ∨ ∃ b, z = .var b ∧ ops.Responds m n x.handles b := by
  obtain ⟨_, rfl, scalar, _⟩ | ⟨h, b, rfl, rfl, ran⟩ := notCases ok
  · exact .inl ⟨_, _, rfl, scalar⟩
  refine .inr ⟨b, rfl, ?_⟩
  obtain ⟨t, _, constant, same⟩ | ⟨_, negated, same⟩ | ran := notVarCases ran
  · exact respondsConstant constant same
  · exact .inl ⟨same.symm, .inr (.inr ⟨h, List.mem_singleton_self h, .inr negated⟩)⟩
  · exact (compareConstIndicates small ran).responds

theorem anyTrueResponds {lits : List Handle} (small : n.Small) (ok : ops.anyTrue lits m = .ok b n) :
    ops.Responds m n lits b := by
  obtain ⟨rest, found, ⟨same, ⟨_, constant⟩ | ⟨_, constant⟩ | single⟩ | ⟨hs, _, ok⟩⟩ :=
    anyTrueCases ok
  · exact respondsConstant constant same
  · exact respondsConstant constant same
  · subst single
    exact respondsHandle (undecidedSubset found (List.mem_singleton_self b)) same
  · exact .inr (reifyConnectivePosts small ok)

end Layer

section Calls

open Model

variable {E : Type} [Encoding E] {ops : Layer} {w v : Workspace E} {m n : Model} {h : Handle}

end Calls

namespace Session

variable {E : Type} [Encoding E] {s t : Session E}

-- A search that makes a bit for its first item and answers with the true constant for its second.
example :
    let x : Handle := ⟨3, by decide⟩
    let s : Session Dictionary := start.run [.layer .standard .empty,
      .model (.withDomain (.ofValues [4, 0, 2]) "x")]
    let t := s.step (.operator 0 (.isIn (.var x) [.scalar (.int 2), .var x]))
    t.1 = .ok (.var ⟨1, by decide⟩) ∧ s.model.vars.length < t.2.model.vars.length := by
  decide

end Session

end ConstraintAlgebra
