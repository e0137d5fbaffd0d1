import ElmScope.Proofs.Lookup.Imports
import ElmScope.Workspace.Referent
/-!
# Where definitions come from

A definition is yielded by its own source, in one of a few ways (`Source.Yields`). The search for
what a node refers to goes through several sources and asks itself further questions; whatever it
finds was yielded by the source it was asked in or by one of the workspace. This holds for any
property of sources in the place of "of the workspace": if the checker that answers the further
questions is sound for it, so is one step of the search, and so are all steps.

* `Search.Ensures` — what a search finds has a property
* `Workspace.step_sound`, `Workspace.referent_sound` — one step, and the whole search
-/
namespace ElmScope
namespace Search

variable {α β : Type} {x : Search α} {Q : α → Prop} {R : β → Prop}

/-- Whether all that a search may find has a property. -/
def Ensures (x : Search α) (Q : α → Prop) : Prop := ∀ a, x.found = some a → Q a

@[simp] theorem found_bind_some (a : α) (f : α → Search β) :
    ((ofOption (some a)).bind f).found = (f a).found := rfl

theorem ensures_ofOption {o : Option α} (h : ∀ a, o = some a → Q a) : (ofOption o).Ensures Q := h

theorem ensures_nothing : (nothing : Search α).Ensures Q := nofun

theorem ensures_pure {a : α} (h : Q a) : (pure a : Search α).Ensures Q := by
  rintro _ ⟨rfl⟩
  exact h

theorem Ensures.bind {f : α → Search β} (hx : x.Ensures Q) (hf : ∀ a, Q a → (f a).Ensures R) :
    (x.bind f).Ensures R := by
  intro b hb
  change (x >>= f).found = some b at hb
  rw [found_bind, Option.bind_eq_some_iff] at hb
  obtain ⟨a, ha, hb⟩ := hb
  exact hf a (hx a ha) b hb

theorem ensures_bind {f : α → Search β} (hf : ∀ a, (f a).Ensures R) : (x.bind f).Ensures R :=
  Ensures.bind (Q := fun _ => True) (fun _ _ => trivial) fun a _ => hf a

theorem Ensures.orElse {y : Unit → Search α} (hx : x.Ensures Q) (hy : (y ()).Ensures Q) :
    (x.orElse y).Ensures Q := by
  intro a ha
  rw [found_orElse, Option.or_eq_some_iff] at ha
  exact ha.elim (hx a) fun ha => hy a ha.2

theorem Ensures.orReport (hx : x.Ensures Q) (e : Event) : (x.orReport e).Ensures Q := by
  intro a ha
  rw [found_orReport] at ha
  exact hx a ha

end Search

namespace Source

/-- The ways in which a source yields a definition. -/
inductive Yields (s : Source) : Definition → Prop
  | bound {name : String} {scope : Nat} {d : Definition} (h : s.boundBy? name scope = some d) :
    Yields s d
  | declared {name : String} {namesp : Namespace} {d : Definition}
    (h : s.declared? name namesp = some d) : Yields s d
  | offered {name : String} {namesp : Namespace} {d : Definition}
    (h : s.offered? name namesp = some d) : Yields s d
  | named {n : Nat} {d : Definition} (h : Workspace.namedDeclaration? s n = some d) : Yields s d
  | function {l n : Nat} (hl : s.tree.kind l = "function_declaration_left")
    (hn : s.tree.parent? l = some n) : Yields s ⟨n, s, .function⟩
  | typeVariable {n : Nat} {d : Definition} (h : s.variableDeclaration? n = some d) : Yields s d
  | field {n : Nat} (h : s.tree.kind n = "field_type") : Yields s ⟨n, s, .fieldType⟩
  | module {n : Nat} (h : s.tree.kind n = "module_declaration" ∨ s.tree.kind n = "import_clause") :
    Yields s ⟨n, s, .module⟩

/-- The kinds of the declarations that an upper-case identifier names, with what they define. -/
def namedKinds : List (String × DefinitionKind) :=
  [("type_alias_declaration", .typeAlias), ("type_declaration", .type),
    ("union_variant", .unionConstructor)]

variable {s : Source} {name : String} {namesp : Namespace} {d : Definition} {n : Nat}

theorem source_eq_of_declared? (h : s.declared? name namesp = some d) : d.source = s := by
  cases namesp <;> simp only [declared?, Option.or_eq_some_iff, Option.map_eq_some_iff] at h
  case value => rcases h with ⟨_, -, rfl⟩ | ⟨-, ⟨_, -, rfl⟩ | ⟨-, _, -, rfl⟩⟩ <;> rfl
  case type | constructor => rcases h with ⟨_, -, rfl⟩ | ⟨-, _, -, rfl⟩ <;> rfl
  case module => contradiction

theorem namedDeclaration?_cases (h : Workspace.namedDeclaration? s n = some d) :
    d.source = s ∧ (s.tree.kind d.node, d.kind) ∈ namedKinds := by
  obtain ⟨p, -, h⟩ := Option.bind_eq_some_iff.1 h
  split at h
  case h_4 => exact nomatch h
  all_goals
    obtain rfl := Option.some.inj h
    simp_all [namedKinds]

theorem Yields.source_eq (h : s.Yields d) : d.source = s := by
  cases h with
  | bound h =>
    unfold boundBy? at h
    split at h
    case h_5 => exact nomatch h
    all_goals
      obtain ⟨_, -, rfl⟩ := Option.map_eq_some_iff.1 h
      rfl
  | declared h => exact source_eq_of_declared? h
  | offered h => exact source_eq_of_mem_declarations (offered?_admitted h).1
  | named h => exact (namedDeclaration?_cases h).1
  | typeVariable h =>
    obtain ⟨_, -, h⟩ := Option.bind_eq_some_iff.1 h
    obtain ⟨_, -, rfl⟩ := Option.map_eq_some_iff.1 h
    rfl
  | function | field | module => rfl

theorem yields_moduleDeclaration (h : s.moduleDeclaration? = some n) :
    s.Yields ⟨n, s, .module⟩ := .module (.inl (by simpa using List.find?_some h))

end Source

/-! ## The fields of a record -/

namespace Record

variable {s : Source} {name : String} {d owner : Definition} {r : Record}

/-- Whether a map from names holds fields of a source only. -/
def Lists (s : Source) (fields : NameMap (List Definition)) : Prop :=
  fields.Ascending ∧ ∀ name ds, fields.get? name = some ds → ∀ d ∈ ds, s.Yields d

/-- Under each name, the fields of a record that have it, in document order. -/
theorem fields_ofNode (s : Source) (record : Nat) : (ofNode s record).fields.Ascending ∧
    ∀ name, ((ofNode s record).fields.get? name).getD [] =
      ((s.tree.childrenOf ["field_type"] record).filter fun f => s.declaredName? f = some name).map
        fun f => ⟨f, s, .fieldType⟩ := by
  unfold ofNode
  generalize s.tree.childrenOf ["field_type"] record = fs
  -- The fold goes from the left, so the induction is on the fields read so far.
  induction fs using List.reverseRecOn with
  | nil => exact ⟨NameMap.ascending_empty, fun _ => rfl⟩
  | append_singleton fs f ih =>
    obtain ⟨hasc, hget⟩ := ih
    simp only [List.foldl_append, List.foldl_cons, List.foldl_nil, List.filter_append,
      List.map_append]
    cases hname : s.declaredName? f with
    | none => exact ⟨hasc, fun name => by simpa [hname] using hget name⟩
    | some key =>
      refine ⟨hasc.alter _, fun name => ?_⟩
      rw [NameMap.get?_alter hasc]
      by_cases hkey : name = key
      · subst hkey
        simpa [hname] using hget name
      · simpa [hname, hkey, Ne.symm hkey] using hget name

theorem lists_ofNode (s : Source) (record : Nat) : Lists s (ofNode s record).fields := by
  obtain ⟨hasc, hget⟩ := fields_ofNode s record
  refine ⟨hasc, fun name ds hds d hd => ?_⟩
  have hfields := hget name
  rw [hds, Option.getD_some] at hfields
  obtain ⟨f, hf, rfl⟩ := List.mem_map.1 (hfields ▸ hd)
  exact .field (by simpa using (List.mem_filter.1 (List.mem_of_mem_filter hf)).2)

theorem field?_ofNode {record : Nat} (h : (ofNode s record).field? name = some d) :
    s.Yields d := by
  obtain ⟨ds, hds, hhead⟩ := Option.bind_eq_some_iff.1 h
  exact (lists_ofNode s record).2 name ds hds d (List.mem_of_mem_head? hhead)

theorem field?_ofAlias (hr : ofAlias? owner = some r) (h : r.field? name = some d) :
    owner.source.Yields d := by
  obtain ⟨record, -, rfl⟩ := Option.map_eq_some_iff.1 hr
  exact field?_ofNode h

end Record

/-! ## Answers of a workspace -/

/-- Whether a definition is yielded by a source with a property. -/
def Definition.Stems (P : Source → Prop) (d : Definition) : Prop := ∃ s, P s ∧ s.Yields d

/-- Whether all that a checker answers about sources with a property is yielded by such ones. -/
def Checker.Sound (P : Source → Prop) (c : Checker) : Prop :=
  ∀ s, P s → ∀ n, (c s n).Ensures (·.Stems P)

variable {P : Source → Prop} {w : Workspace} {c : Checker} {s : Source} {d : Definition}
  {name : String} {n : Nat}

theorem Definition.Stems.source (h : d.Stems P) : P d.source := by
  obtain ⟨s, hs, hd⟩ := h
  rwa [hd.source_eq]

namespace Workspace

section
variable (hw : ∀ f t, w.source? f = some t → P t)
include hw

theorem property_of_module? (h : w.module? name = some s) : P s := by
  obtain ⟨f, -, h⟩ := Option.bind_eq_some_iff.1 h
  exact hw f s h

theorem declarationOf?_stems (h : w.declarationOf? name = some d) : d.Stems P := by
  obtain ⟨t, ht, h⟩ := Option.bind_eq_some_iff.1 h
  obtain ⟨n, hn, rfl⟩ := Option.map_eq_some_iff.1 h
  exact ⟨t, property_of_module? hw ht, Source.yields_moduleDeclaration hn⟩

theorem lookupModule?_stems (hs : P s) (h : w.lookupModule? s name = some d) : d.Stems P := by
  unfold lookupModule? at h
  split at h
  · obtain ⟨n, hn, rfl⟩ := Option.map_eq_some_iff.1 h
    exact ⟨s, hs, Source.yields_moduleDeclaration hn⟩
  · obtain ⟨i, -, h⟩ := List.exists_of_findSome?_eq_some h
    split at h
    · exact nomatch h
    · rcases Option.or_eq_some_iff.1 h with h | ⟨-, h⟩
      · exact declarationOf?_stems hw h
      · obtain ⟨clause, hclause, rfl⟩ := Option.map_eq_some_iff.1 h
        have hmem := (List.mem_filter.1 (List.mem_of_find?_eq_some hclause)).2
        exact ⟨s, hs, .module (.inr (by simpa using hmem))⟩

theorem lookup?_stems {r : Reference} (hs : P s) (h : w.lookup? s r = some d) : d.Stems P := by
  by_cases hns : r.namesp = .module
  · rw [lookup?, hns] at h
    exact lookupModule?_stems hw hs h
  · rw [lookup?_of_ne_module hns] at h
    split at h
    · obtain ⟨i, -, h⟩ := List.exists_of_findSome?_eq_some h
      obtain ⟨ht, hd⟩ := module_offers_iff.1 h
      exact ⟨d.source, property_of_module? hw ht, .offered hd⟩
    · rcases Option.or_eq_some_iff.1 h with h | ⟨-, h⟩
      · exact ⟨s, hs, .declared h⟩
      · obtain ⟨i, -, h⟩ := List.exists_of_findSome?_eq_some h
        obtain ⟨ht, hd, -⟩ := imported?_eq_some_iff.1 h
        exact ⟨d.source, property_of_module? hw ht, .offered hd⟩

theorem lookup_sound (hs : P s) (r : Reference) : (w.lookup s r).Ensures (·.Stems P) :=
  (Search.ensures_ofOption fun _ h => lookup?_stems hw hs h).orReport _

theorem lookupAt_sound (hs : P s) (n : Nat) : (w.lookupAt s n).Ensures (·.Stems P) := by
  unfold lookupAt
  split
  · next clause hclause =>
    have hkind : s.tree.kind clause = "import_clause" := by
      simpa using (Option.filter_eq_some_iff.1 hclause).2
    refine Search.ensures_ofOption fun d h => ?_
    obtain ⟨m, -, rfl⟩ := Option.map_eq_some_iff.1 h
    cases hdecl : w.declarationOf? (s.textOf m) with
    | none => exact ⟨s, hs, .module (.inr hkind)⟩
    | some d => exact declarationOf?_stems hw hdecl
  · exact Search.ensures_bind fun r => lookup_sound hw hs r

end
end Workspace

/-! ## Answers along the chain -/

namespace Chain

section
variable {Q : Definition → Prop} (hreferent : ∀ n, (aliasOfReferent c s n).Ensures Q)
  (htype : ∀ n, (aliasOfType c s n).Ensures Q)
include hreferent htype

theorem aliasOfRecordWith_ensures {ofTarget : Nat → Search Definition}
    (htarget : ∀ n, (ofTarget n).Ensures Q) (n : Nat) :
    (aliasOfRecordWith c s ofTarget n).Ensures Q := by
  unfold aliasOfRecordWith
  split
  · exact hreferent _
  split
  · exact Search.ensures_bind htarget
  split
  · exact Search.ensures_bind htype
  · exact hreferent n

/-- What holds of the aliases of referents and of types holds of those of expressions, if accesses
keep it. -/
theorem aliasOfExpression_ensures
    (haccess : ∀ record : Nat → Search Definition, (∀ n, (record n).Ensures Q) →
      ∀ a, ((fieldOf s a record).bind (aliasOfDefinition c)).Ensures Q) (e : Nat) :
    (aliasOfExpression c s e).Ensures Q := by
  -- Every rule goes on with a node further on in the tree.
  induction hk : s.tree.size - e using Nat.strongRecOn generalizing e with
  | ind k ih =>
    have hfurther : ∀ n, (if _ : e < n ∧ n < s.tree.size then aliasOfExpression c s n
        else .nothing).Ensures Q := by
      intro n
      split
      · next hn => exact ih (s.tree.size - n) (by omega) n rfl
      · exact Search.ensures_nothing
    have hrecord := aliasOfRecordWith_ensures hreferent htype hfurther
    unfold aliasOfExpression
    split
    · exact Search.ensures_bind hfurther
    split
    · exact haccess _ hrecord e
    split
    · exact hrecord e
    · exact hreferent e

end

variable (hc : Checker.Sound P c)
include hc

theorem aliasOfType_sound (hs : P s) (n : Nat) : (aliasOfType c s n).Ensures (·.Stems P) := by
  unfold aliasOfType
  split
  · next name _ =>
    refine (hc s hs name).bind fun d hd => ?_
    split
    · exact Search.ensures_pure hd
    · exact Search.ensures_nothing
  · exact Search.ensures_nothing

theorem aliasOfDefinition_sound (hd : d.Stems P) : (aliasOfDefinition c d).Ensures (·.Stems P) := by
  have hsite : ∀ n, (aliasOfType c d.source n).Ensures (·.Stems P) :=
    aliasOfType_sound hc hd.source
  unfold aliasOfDefinition
  split
  · next a ha =>
    obtain rfl : d = a := by
      unfold siteOf? at ha
      split at ha <;> simp_all
    exact Search.ensures_pure hd
  · next n t ht =>
    obtain rfl : d.source = t := by
      unfold siteOf? at ht
      split at ht <;> simp_all
    exact hsite n
  · exact Search.ensures_nothing

theorem aliasOfReferent_sound (hs : P s) (n : Nat) :
    (aliasOfReferent c s n).Ensures (·.Stems P) :=
  (hc s hs n).bind fun _ hd => aliasOfDefinition_sound hc hd

theorem aliasOfRecordWith_sound (hs : P s) {ofTarget : Nat → Search Definition}
    (htarget : ∀ n, (ofTarget n).Ensures (·.Stems P)) (n : Nat) :
    (aliasOfRecordWith c s ofTarget n).Ensures (·.Stems P) :=
  aliasOfRecordWith_ensures (aliasOfReferent_sound hc hs) (aliasOfType_sound hc hs) htarget n

omit hc in
theorem fieldOfAlias_sound {x : Search Definition} (hx : x.Ensures (·.Stems P)) :
    (x.bind fun owner => .ofOption ((Record.ofAlias? owner).bind fun r => r.field? name)).Ensures
      (·.Stems P) := by
  refine hx.bind fun owner howner => Search.ensures_ofOption fun d hd => ?_
  obtain ⟨r, hr, hd⟩ := Option.bind_eq_some_iff.1 hd
  exact ⟨owner.source, howner.source, Record.field?_ofAlias hr hd⟩

omit hc in
theorem fieldOf_sound {aliasOfRecord : Nat → Search Definition}
    (hrecord : ∀ n, (aliasOfRecord n).Ensures (·.Stems P)) (n : Nat) :
    (fieldOf s n aliasOfRecord).Ensures (·.Stems P) :=
  Search.ensures_bind fun _ => fieldOfAlias_sound (hrecord n)

theorem aliasOfExpression_sound (hs : P s) (e : Nat) :
    (aliasOfExpression c s e).Ensures (·.Stems P) :=
  aliasOfExpression_ensures (aliasOfReferent_sound hc hs) (aliasOfType_sound hc hs)
    (fun _ hrecord a => (fieldOf_sound hrecord a).bind fun _ hd => aliasOfDefinition_sound hc hd) e

theorem aliasOfRecord_sound (hs : P s) (n : Nat) : (aliasOfRecord c s n).Ensures (·.Stems P) :=
  aliasOfRecordWith_sound hc hs (aliasOfExpression_sound hc hs) n

theorem fieldAmong_sound (hs : P s) (nodes : List Nat) :
    (fieldAmong c s nodes).Ensures (·.Stems P) := by
  induction nodes with
  | nil => exact Search.ensures_nothing
  | cons n rest ih =>
    refine Search.Ensures.orElse ?_ ?_
    · split
      · exact fieldOf_sound (aliasOfRecord_sound hc hs) n
      · exact Search.ensures_nothing
    · split
      · exact Search.ensures_nothing
      · exact ih

end Chain

/-! ## One step, and all steps -/

namespace Workspace

variable (hw : ∀ f t, w.source? f = some t → P t)
include hw

theorem plainReferent_sound (hs : P s) (n : Nat) : (w.plainReferent s n).Ensures (·.Stems P) := by
  refine Search.ensures_bind fun r => ?_
  split
  · next d hd =>
    obtain ⟨-, hd⟩ := Option.ite_none_right_eq_some.1 hd
    obtain ⟨scope, -, hd⟩ := List.exists_of_findSome?_eq_some hd
    exact Search.ensures_pure ⟨s, hs, .bound hd⟩
  · exact lookup_sound hw hs r

variable (hc : Checker.Sound P c)
include hc

omit hw in
theorem assignedField_sound (hs : P s) (field name : Nat) :
    (assignedField c s field name).Ensures (·.Stems P) :=
  Search.ensures_bind fun record =>
    Chain.fieldOfAlias_sound (Chain.aliasOfRecord_sound hc hs record)

theorem lowerCaseReferent_sound (hs : P s) (n : Nat) :
    (w.lowerCaseReferent c s n).Ensures (·.Stems P) := by
  refine Search.ensures_bind fun p => ?_
  dsimp only
  split
  · exact Chain.fieldAmong_sound hc hs _
  split
  · exact assignedField_sound hc hs p n
  split
  · next hk => exact Search.ensures_pure ⟨s, hs, .field hk⟩
  split
  · exact Search.ensures_ofOption fun d hd => ⟨s, hs, .typeVariable hd⟩
  split
  · next hk =>
    refine Search.ensures_ofOption fun d hd => ?_
    obtain ⟨m, hm, rfl⟩ := Option.map_eq_some_iff.1 hd
    exact ⟨s, hs, .function hk.1 hm⟩
  split
  · exact Search.ensures_ofOption fun d hd => ⟨s, hs, .declared hd⟩
  · exact plainReferent_sound hw hs n

theorem identifierReferent_sound (hs : P s) (n : Nat) :
    (w.identifierReferent c s n).Ensures (·.Stems P) := by
  unfold identifierReferent
  split
  · exact lowerCaseReferent_sound hw hc hs n
  · exact lowerCaseReferent_sound hw hc hs n
  · split
    · next d hd => exact Search.ensures_pure ⟨s, hs, .named hd⟩
    · exact lookupAt_sound hw hs n
  · exact lookup_sound hw hs _
  · exact Search.ensures_ofOption fun d hd => ⟨s, hs, .typeVariable hd⟩
  · exact Search.ensures_ofOption fun d hd => ⟨s, hs, .typeVariable hd⟩
  · exact Search.ensures_nothing

/-- One step of the search yields what the sources yield, if the answers it gets do. -/
theorem step_sound : Checker.Sound P (w.step c) := by
  intro s hs n
  unfold step
  split
  · exact (identifierReferent_sound hw hc hs _).orReport _
  · exact Search.ensures_nothing

omit hc in
theorem steps_sound (k : Nat) : Checker.Sound P (w.steps k) := by
  induction k with
  | zero => exact fun s _ n => Search.ensures_nothing
  | succ k ih => exact step_sound hw ih

omit hc in
/-- Whatever a node refers to is yielded by the source of the node or by one of the workspace. -/
theorem referent_sound : Checker.Sound P w.referent := fun s hs n => steps_sound hw _ s hs n

end Workspace
end ElmScope
