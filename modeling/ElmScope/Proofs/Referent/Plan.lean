import ElmScope.Workspace.Referent
/-!
# What the search asks itself

To find what a node refers to, the search asks what other nodes refer to, which alias describes a
record, which field an access reads, and so on: every function of the search may call every other,
in the end. A `Query` is one such call, a `Plan` is a computation that makes calls and goes on with
their answers, and `body` is what each function does, with every call left open.

The functions of the search are a solution of these equations (`run_body`), whatever checker answers
for the nodes in the innermost place, and one step of the search is the equation for a node
(`run_body_referent`).
-/
namespace ElmScope

theorem Search.ofOption_some_bind {α β : Type} (a : α) (f : α → Search β) :
    (ofOption (some a)).bind f = f a := rfl

/-- A call that the search makes. -/
inductive Query where
  | referent (s : Source) (n : Nat)
  | lowerCase (s : Source) (n : Nat)
  | assignedField (s : Source) (field name : Nat)
  | fieldOfAccess (s : Source) (n : Nat)
  | fieldInAccess (s : Source) (access : Nat)
  | aliasOfRecord (s : Source) (n : Nat)
  | aliasOfExpression (s : Source) (e : Nat)
  | aliasOfDefinition (d : Definition)
  | aliasOfType (s : Source) (type : Nat)
  | aliasOfField (s : Source) (n : Nat)
  | aliasOfSubject (s : Source) (n : Nat)

/-- The source a call is about. -/
def Query.source : Query → Source
  | referent s _ | lowerCase s _ | assignedField s _ _ | fieldOfAccess s _ | fieldInAccess s _
  | aliasOfRecord s _ | aliasOfExpression s _ | aliasOfType s _ | aliasOfField s _
  | aliasOfSubject s _ => s
  | aliasOfDefinition d => d.source

/-- A computation that makes calls and goes on with their answers. -/
inductive Plan where
  | done (x : Search Definition)
  | ask (q : Query) (go : Search Definition → Plan)

namespace Plan

/-- The result, when every call is answered by `answer`. -/
def run (answer : Query → Search Definition) : Plan → Search Definition
  | done x => x
  | ask q go => (go (answer q)).run answer

/-- The result, if every call that is made returns. -/
def run? (answer? : Query → Option (Search Definition)) : Plan → Option (Search Definition)
  | done x => some x
  | ask q go => (answer? q).bind fun x => (go x).run? answer?

/-- The calls made on the way. -/
def calls (answer : Query → Search Definition) : Plan → List Query
  | done _ => []
  | ask q go => q :: (go (answer q)).calls answer

/-- Whether all calls have a property, whatever the answers are. -/
def Only (Q : Query → Prop) : Plan → Prop
  | done _ => True
  | ask q go => Q q ∧ ∀ x, (go x).Only Q

/-- One call and nothing more. -/
def call (q : Query) : Plan := ask q done

/-- Go on with the result of a plan. -/
def followedBy (f : Search Definition → Plan) : Plan → Plan
  | done x => f x
  | ask q go => ask q fun x => (go x).followedBy f

/-- Go on from what was found. -/
def bind (p : Plan) (f : Definition → Plan) : Plan :=
  p.followedBy fun x =>
    match x.found with
    | some d => (f d).followedBy fun y => done ⟨y.found, x.events ++ y.events⟩
    | none => done ⟨none, x.events⟩

/-- Search on where nothing was found. -/
def orElse (p : Plan) (p' : Plan) : Plan :=
  p.followedBy fun x =>
    match x.found with
    | some d => done ⟨some d, x.events⟩
    | none => p'.followedBy fun y => done ⟨y.found, x.events ++ y.events⟩

/-- Report an event at the end of a plan that found nothing. -/
def orReport (p : Plan) (e : Event) : Plan := p.followedBy fun x => done (x.orReport e)

/-- Go on if there is something to go on with. -/
def given {α : Type} (o : Option α) (f : α → Plan) : Plan :=
  match o with
  | some a => f a
  | none => done .nothing

variable {α : Type} {p p' : Plan} {q : Query} {Q Q' : Query → Prop}
  {answer answer' : Query → Search Definition} {f : Definition → Plan} {o : Option α}

/-! ## Results -/

@[simp] theorem run_done (x : Search Definition) : (done x).run answer = x := rfl

@[simp] theorem run_call (q : Query) : (call q).run answer = answer q := rfl

theorem run_followedBy (p : Plan) (f : Search Definition → Plan) :
    (p.followedBy f).run answer = (f (p.run answer)).run answer := by
  induction p with
  | done x => rfl
  | ask q go ih => exact ih (answer q)

@[simp] theorem run_bind (p : Plan) (f : Definition → Plan) :
    (p.bind f).run answer = (p.run answer).bind fun d => (f d).run answer := by
  rw [bind, run_followedBy, Search.bind]
  cases (p.run answer).found with
  | some d => exact run_followedBy _ _
  | none => rfl

@[simp] theorem run_orElse (p p' : Plan) :
    (p.orElse p').run answer = (p.run answer).orElse fun _ => p'.run answer := by
  rw [orElse, run_followedBy, Search.orElse]
  cases (p.run answer).found with
  | some d => rfl
  | none => exact run_followedBy _ _

@[simp] theorem run_orReport (p : Plan) (e : Event) :
    (p.orReport e).run answer = (p.run answer).orReport e := by
  rw [orReport, run_followedBy, run_done]

@[simp] theorem run_given (o : Option α) (f : α → Plan) :
    (given o f).run answer = (Search.ofOption o).bind fun a => (f a).run answer := by
  cases o <;> rfl

/-- A plan returns the same when more calls return. -/
theorem run?_mono {answer? answer?' : Query → Option (Search Definition)} {x : Search Definition}
    (h : ∀ q y, answer? q = some y → answer?' q = some y) (hx : p.run? answer? = some x) :
    p.run? answer?' = some x := by
  induction p with
  | done y => exact hx
  | ask q go ih =>
    obtain ⟨y, hy, hx⟩ := Option.bind_eq_some_iff.1 hx
    exact Option.bind_eq_some_iff.2 ⟨y, h q y hy, ih y hx⟩

/-! ## Calls -/

theorem Only.followedBy {f : Search Definition → Plan} (hp : p.Only Q)
    (hf : ∀ x, (f x).Only Q) : (p.followedBy f).Only Q := by
  induction p with
  | done x => exact hf x
  | ask q go ih => exact ⟨hp.1, fun x => ih x (hp.2 x)⟩

theorem only_call (h : Q q) : (call q).Only Q := ⟨h, fun _ => trivial⟩

theorem Only.bind (hp : p.Only Q) (hf : ∀ d, (f d).Only Q) : (p.bind f).Only Q := by
  refine hp.followedBy fun x => ?_
  split
  · exact (hf _).followedBy fun _ => trivial
  · trivial

theorem Only.orElse (hp : p.Only Q) (hp' : p'.Only Q) : (p.orElse p').Only Q := by
  refine hp.followedBy fun x => ?_
  split
  · trivial
  · exact hp'.followedBy fun _ => trivial

theorem Only.orReport (hp : p.Only Q) (e : Event) : (p.orReport e).Only Q :=
  hp.followedBy fun _ => trivial

theorem only_given {f : α → Plan} (h : ∀ a, o = some a → (f a).Only Q) : (given o f).Only Q := by
  cases o with
  | none => trivial
  | some a => exact h a rfl

theorem Only.of_mem_calls (hp : p.Only Q) (h : q ∈ p.calls answer) : Q q := by
  induction p with
  | done x => exact absurd h List.not_mem_nil
  | ask q' go ih =>
    rcases List.mem_cons.1 h with rfl | h
    · exact hp.1
    · exact ih _ (hp.2 _) h

/-- A plan reads the answers to its own calls only. -/
theorem Only.run_congr (hp : p.Only Q) (h : ∀ q, Q q → answer q = answer' q) :
    p.run answer = p.run answer' := by
  induction p with
  | done x => rfl
  | ask q go ih =>
    rw [run, run, h q hp.1]
    exact ih _ (hp.2 _)

end Plan

/-! ## The bodies of the functions -/

namespace Workspace

open Plan

/-- Nobody to ask, for what asks nobody. -/
def nobody : Checker := fun _ _ => .nothing

/-- The alias of what a call finds. -/
def describing (q : Query) : Plan := (call q).bind fun d => call (.aliasOfDefinition d)

/-- The field of a name in what the alias of a record holds. -/
def fieldNamed (s : Source) (record name : Nat) : Plan :=
  (call (.aliasOfRecord s record)).bind fun owner =>
    done (.ofOption ((Record.ofAlias? owner).bind fun r => r.field? (s.textOf name)))

/-- The field read by the first access among some nodes that leads to one. -/
def firstField (s : Source) : List Nat → Plan
  | [] => done .nothing
  | n :: rest =>
    (if s.tree.kind n = "field_access_expr" then call (.fieldInAccess s n)
      else done .nothing).orElse
      (if s.tree.kind n = "value_declaration" ∨ s.tree.kind n = "file" then done .nothing
        else firstField s rest)

/-- The kinds of lower-case identifiers. -/
def lowerKinds : List String := ["lower_case_identifier", "record_base_identifier"]

/-- What each function of the search does, its calls left open. -/
def body (w : Workspace) : Query → Plan
  | .referent s n =>
    given (identifierOf? s.tree n) fun m =>
      (if s.tree.kind m ∈ lowerKinds then call (.lowerCase s m)
        else done (w.identifierReferent nobody s m)).orReport
        (.definitionNotFound s.file (s.tree.kind m))
  | .lowerCase s n =>
    given (s.tree.parent? n) fun p =>
      if s.tree.kind p = "field_access_expr" ∧ s.tree.child? "target" p ≠ some n then
        call (.fieldOfAccess s p)
      else if s.tree.kind p = "field" ∧ leads s.tree p n then call (.assignedField s p n)
      else done (w.lowerCaseReferent nobody s n)
  | .assignedField s field name =>
    given ((s.tree.parent? field).filter fun p => s.tree.kind p = "record_expr") fun record =>
      fieldNamed s record name
  | .fieldOfAccess s n => firstField s (s.tree.chain n)
  | .fieldInAccess s access =>
    given (Chain.accessedField? s.tree access) fun field => fieldNamed s access field
  | .aliasOfRecord s n =>
    match Chain.recordBase? s.tree n with
    | some base => describing (.referent s base)
    | none =>
      if s.tree.kind n = "field_access_expr" then
        given (s.tree.child? "target" n) fun e => call (.aliasOfExpression s e)
      else
        match Chain.returnedBy? s.tree n with
        | some declaration => given (s.returnType? declaration) fun t => call (.aliasOfType s t)
        | none => describing (.referent s n)
  | .aliasOfExpression s e =>
    if s.tree.kind e = "parenthesized_expr" then
      given (Chain.parenthesized? s.tree e) fun n => call (.aliasOfExpression s n)
    else if s.tree.kind e = "field_access_expr" then describing (.fieldInAccess s e)
    else if s.tree.kind e = "record_expr" then call (.aliasOfRecord s e)
    else describing (.referent s e)
  | .aliasOfDefinition d =>
    match Chain.siteOf? d with
    | some (.typeAlias a) => done (pure a)
    | some (.expression n s) => call (.aliasOfType s n)
    | none => done .nothing
  | .aliasOfType s type =>
    given (Chain.typeName? s.tree type) fun name =>
      (call (.referent s name)).bind fun d => done (if d.kind = .typeAlias then pure d else .nothing)
  | .aliasOfField s n => describing (.fieldOfAccess s n)
  | .aliasOfSubject s n =>
    if s.tree.kind n = "case_of_expr" then
      given (s.tree.child? "expr" n) fun e => call (.aliasOfExpression s e)
    else call (.aliasOfExpression s n)

/-! ## The functions of the search solve the equations -/

/-- The answer that the function of a call gives, when a checker answers for the nodes. -/
def answerWith (w : Workspace) (c : Checker) : Query → Search Definition
  | .referent s n => c s n
  | .lowerCase s n => w.lowerCaseReferent c s n
  | .assignedField s field name => assignedField c s field name
  | .fieldOfAccess s n => Chain.fieldOfAccess c s n
  | .fieldInAccess s access => Chain.fieldInAccess c s access
  | .aliasOfRecord s n => Chain.aliasOfRecord c s n
  | .aliasOfExpression s e => Chain.aliasOfExpression c s e
  | .aliasOfDefinition d => Chain.aliasOfDefinition c d
  | .aliasOfType s type => Chain.aliasOfType c s type
  | .aliasOfField s n => Chain.aliasOfField c s n
  | .aliasOfSubject s n => Chain.aliasOfSubject c s n

variable {w : Workspace} {c : Checker} {s : Source} {m n e : Nat}

theorem lowerCaseReferent_of_not_field {p : Nat} (hp : s.tree.parent? n = some p)
    (haccess : ¬(s.tree.kind p = "field_access_expr" ∧ s.tree.child? "target" p ≠ some n))
    (hfield : ¬(s.tree.kind p = "field" ∧ leads s.tree p n)) (c' : Checker) :
    w.lowerCaseReferent c s n = w.lowerCaseReferent c' s n := by
  simp only [lowerCaseReferent, hp, Search.ofOption_some_bind, if_neg haccess, if_neg hfield]

theorem identifierReferent_of_not_lower (hm : s.tree.kind m ∉ lowerKinds) (c' : Checker) :
    w.identifierReferent c s m = w.identifierReferent c' s m := by
  simp only [lowerKinds, List.mem_cons, List.not_mem_nil, or_false, not_or] at hm
  unfold identifierReferent
  split
  · next hk => exact absurd hk hm.1
  · next hk => exact absurd hk hm.2
  all_goals rfl

theorem run_describing (q : Query) : (describing q).run (w.answerWith c) =
    (w.answerWith c q).bind (Chain.aliasOfDefinition c) := by
  rw [describing, run_bind]
  rfl

theorem run_fieldNamed (record name : Nat) : (fieldNamed s record name).run (w.answerWith c) =
    (Chain.aliasOfRecord c s record).bind fun owner =>
      .ofOption ((Record.ofAlias? owner).bind fun r => r.field? (s.textOf name)) :=
  run_bind _ _

theorem run_firstField (c : Checker) (s : Source) (nodes : List Nat) :
    (firstField s nodes).run (w.answerWith c) = Chain.fieldAmong c s nodes := by
  induction nodes with
  | nil => rfl
  | cons n rest ih =>
    rw [firstField, run_orElse, Chain.fieldAmong]
    congr 1
    · split <;> rfl
    · funext _
      split
      · rfl
      · exact ih

theorem aliasOfRecordWith_congr {f g : Nat → Search Definition}
    (h : ∀ m, s.tree.kind n = "field_access_expr" → s.tree.child? "target" n = some m →
      f m = g m) : Chain.aliasOfRecordWith c s f n = Chain.aliasOfRecordWith c s g n := by
  unfold Chain.aliasOfRecordWith
  split
  · rfl
  split
  · next hk =>
    cases ht : s.tree.child? "target" n with
    | none => rfl
    | some m => exact h m hk ht
  · rfl

-- Each lemma from here on opens both definitions at the call it is about.
attribute [local simp] body answerWith

theorem run_body_aliasOfRecord : (w.body (.aliasOfRecord s n)).run (w.answerWith c) =
    w.answerWith c (.aliasOfRecord s n) := by
  simp only [body, answerWith, Chain.aliasOfRecord, Chain.aliasOfRecordWith]
  cases Chain.recordBase? s.tree n with
  | some base => exact run_describing _
  | none =>
    dsimp only
    split
    · exact run_given _ _
    cases Chain.returnedBy? s.tree n with
    | some declaration => exact run_given _ _
    | none => exact run_describing _

/-- The rules for expressions go on with nodes further on, if the target of an access is one. -/
theorem run_body_aliasOfExpression
    (htarget : ∀ m, s.tree.kind e = "field_access_expr" → s.tree.child? "target" e = some m →
      m ∈ s.tree.children e) :
    (w.body (.aliasOfExpression s e)).run (w.answerWith c) =
      w.answerWith c (.aliasOfExpression s e) := by
  have hfurther : ∀ m ∈ s.tree.children e, (if _ : e < m ∧ m < s.tree.size then
      Chain.aliasOfExpression c s m else .nothing) = Chain.aliasOfExpression c s m :=
    fun m hm => dif_pos (Tree.lt_of_mem_children hm)
  have hrecord := aliasOfRecordWith_congr (c := c) fun m hk hm => hfurther m (htarget m hk hm)
  simp only [body, answerWith]
  rw [Chain.aliasOfExpression]
  split
  · rw [run_given]
    cases hinner : Chain.parenthesized? s.tree e with
    | none => rfl
    | some m =>
      have hm := (List.mem_filter.1 (List.mem_of_find?_eq_some hinner)).1
      exact (hfurther m hm).symm
  split
  · rw [run_describing, answerWith, Chain.fieldInAccess, Chain.fieldOf, Chain.fieldOf, hrecord]
    rfl
  split
  · exact hrecord.symm
  · exact run_describing _

theorem run_body_lowerCase : (w.body (.lowerCase s n)).run (w.answerWith c) =
    w.answerWith c (.lowerCase s n) := by
  simp only [body, answerWith, run_given]
  cases hp : s.tree.parent? n with
  | none => simp only [lowerCaseReferent, hp]; rfl
  | some p =>
    rw [Search.ofOption_some_bind]
    split
    · next haccess =>
      simp only [lowerCaseReferent, hp, Search.ofOption_some_bind, if_pos haccess]
      rfl
    split
    · next haccess hfield =>
      simp only [lowerCaseReferent, hp, Search.ofOption_some_bind, if_neg haccess, if_pos hfield]
      rfl
    · next haccess hfield => exact lowerCaseReferent_of_not_field hp haccess hfield c

theorem run_body_aliasOfDefinition (d : Definition) :
    (w.body (.aliasOfDefinition d)).run (w.answerWith c) =
      w.answerWith c (.aliasOfDefinition d) := by
  simp only [body, answerWith, Chain.aliasOfDefinition]
  cases Chain.siteOf? d with
  | none => rfl
  | some site => cases site <;> rfl

theorem run_body_aliasOfType : (w.body (.aliasOfType s n)).run (w.answerWith c) =
    w.answerWith c (.aliasOfType s n) := by
  simp only [body, answerWith, Chain.aliasOfType, Chain.onlyAlias]
  cases Chain.typeName? s.tree n with
  | none => rfl
  | some name => exact run_bind _ _

/-- **The functions of the search solve the equations**, whatever the checker. -/
theorem run_body {q : Query} (hq : ∀ s n, q ≠ .referent s n)
    (htarget : ∀ s e m, q = .aliasOfExpression s e → s.tree.kind e = "field_access_expr" →
      s.tree.child? "target" e = some m → m ∈ s.tree.children e) :
    (w.body q).run (w.answerWith c) = w.answerWith c q := by
  cases q with
  | referent s n => exact absurd rfl (hq s n)
  | lowerCase s n => exact run_body_lowerCase
  | assignedField s field name =>
    simp only [body, run_given, run_fieldNamed]
    rfl
  | fieldOfAccess s n => exact run_firstField c s _
  | fieldInAccess s access =>
    simp only [body, run_given, run_fieldNamed]
    rfl
  | aliasOfRecord s n => exact run_body_aliasOfRecord
  | aliasOfExpression s e => exact run_body_aliasOfExpression fun m => htarget s e m rfl
  | aliasOfDefinition d => exact run_body_aliasOfDefinition d
  | aliasOfType s type => exact run_body_aliasOfType
  | aliasOfField s n => exact run_describing _
  | aliasOfSubject s n =>
    simp only [body, answerWith, Chain.aliasOfSubject]
    split
    · exact run_given _ _
    · rfl

/-- **One step of the search is the equation for a node.** -/
theorem run_body_referent (w : Workspace) (c : Checker) (s : Source) (n : Nat) :
    (w.body (.referent s n)).run (w.answerWith c) = w.step c s n := by
  simp only [body, step, run_given]
  cases identifierOf? s.tree n with
  | none => rfl
  | some m =>
    rw [Search.ofOption_some_bind, run_orReport]
    congr 1
    split
    · next hm =>
      rw [run_call, answerWith, identifierReferent]
      simp only [lowerKinds, List.mem_cons, List.not_mem_nil, or_false] at hm
      rcases hm with hk | hk <;> simp only [hk]
    · next hm => exact identifierReferent_of_not_lower hm c

end Workspace
end ElmScope
