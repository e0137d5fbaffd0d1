import ElmScope.Proofs.Lookup.Qualifier
import ElmScope.Proofs.Reference.Path
import ElmScope.Proofs.Referent.FixedPoint
/-!
# Definitions are well formed

Whatever a node refers to is a node of the source that the workspace has for its file, and its kind
as a definition fixes the kind of the node (`Definition.Fits`). Unless it is found by its place, it
also goes by the text of the identifier that was asked about (`Definition.Answers`).

The kinds are checked once for each way in which a source yields a definition, so they hold of all
that any search finds. The names are checked along the search: a field or a variable is found by its
place, and on every other way the name that is sought is the text of the identifier.

* `Source.Yields.fits` — what a source yields has the node kind of its definition kind
* `Workspace.identifierReferent_answers` — what an identifier refers to goes by its text
* `Workspace.referent_wellFormed` — both, for what a node refers to
-/
namespace ElmScope

/-- The kinds of the nodes that a kind of definition stands for. -/
def DefinitionKind.nodeKinds : DefinitionKind → List String
  | .function => ["value_declaration", "lower_pattern"]
  | .functionParameter | .casePattern | .anonymousFunctionParameter => ["lower_pattern"]
  | .typeAlias => ["type_alias_declaration"]
  | .type => ["type_declaration"]
  | .unionConstructor => ["union_variant"]
  | .operator => ["infix_declaration"]
  | .port => ["port_annotation"]
  | .fieldType => ["field_type"]
  | .typeVariable => ["lower_type_name"]
  | .module => ["module_declaration", "import_clause"]

/-- The kinds of definitions that are found by their place and not by their name. -/
abbrev DefinitionKind.byPlace : List DefinitionKind := [.fieldType, .module, .typeVariable]

namespace Definition

/-- Whether the node of a definition is of a kind that its own kind stands for. -/
def Fits (d : Definition) : Prop := d.source.tree.kind d.node ∈ d.kind.nodeKinds

/-- Whether a definition goes by a name, unless it is found by its place. -/
def Answers (d : Definition) (name : String) : Prop :=
  d.kind ∉ DefinitionKind.byPlace → d.name? = some name

variable {d : Definition} {name : String}

theorem Fits.lt_size (h : d.Fits) : d.node < d.source.tree.size := by
  refine Tree.lt_size_of_kind rfl fun hempty => ?_
  have hno : ∀ k : DefinitionKind, "" ∉ k.nodeKinds := by intro k; cases k <;> decide
  exact hno d.kind (hempty ▸ h)

theorem answers_of_kind (h : d.kind ∈ DefinitionKind.byPlace) : d.Answers name :=
  fun hk => absurd h hk

end Definition

namespace Source

/-- Whether the left side of a function is that of a value declaration, and the only upper-case
identifier in the declaration of a type, an alias or a variant is its name. -/
structure Placed (s : Source) : Prop where
  lefts : ∀ l < s.tree.size, s.tree.kind l = "function_declaration_left" →
    ∃ d ∈ s.tree.parent? l, s.tree.kind d = "value_declaration" ∧
      s.tree.child? "functionDeclarationLeft" d = some l
  names : ∀ m < s.tree.size, s.tree.kind m = "upper_case_identifier" →
    ∀ p ∈ s.tree.parent? m, s.tree.kind p ∈ namedKinds.map (·.1) →
      s.tree.child? "name" p = some m

/-- Whether identifiers stand where the grammar has them: the one that leads the left side of a
function is the first lower-case one there, nothing but a value declaration has such a side, and a
lower-case identifier ends the path it is in. -/
structure Spelled (s : Source) : Prop where
  starts : ∀ l < s.tree.size, s.tree.kind l = "function_declaration_left" →
    ∀ m ∈ (s.tree.namedChildren l).head?,
      s.tree.kind m ∈ ["lower_case_identifier", "record_base_identifier"] →
        s.tree.firstChild? "lower_case_identifier" l = some m
  owners : ∀ d < s.tree.size, (s.tree.child? "functionDeclarationLeft" d).isSome →
    s.tree.kind d = "value_declaration"
  segments : ∀ m < s.tree.size, s.tree.kind m = "lower_case_identifier" →
    ∀ p ∈ s.tree.parent? m, s.tree.kind p ∈ Reference.pathKinds →
      Reference.lastSegment? s.tree p = some m

variable {s : Source} {name : String} {namesp : Namespace} {d : Definition} {k : DefinitionKind}
  {nodes : List Nat} {name? : Nat → Option String} {kind : String} {m n p q scope : Nat}

/-! ## The kinds of nodes -/

theorem kind_of_mem_childrenOf (h : n ∈ s.tree.childrenOf [kind] scope) : s.tree.kind n = kind := by
  simpa using (List.mem_filter.1 h).2

theorem fits_of_kind (hn : s.tree.kind n = kind) (hk : kind ∈ k.nodeKinds) :
    Definition.Fits ⟨n, s, k⟩ := by
  rwa [Definition.Fits, hn]

theorem fits_of_mem_named (h : (name, d) ∈ s.named nodes name? k)
    (hnodes : ∀ n ∈ nodes, s.tree.kind n ∈ k.nodeKinds) : d.Fits := by
  obtain ⟨rfl, rfl, hn, -⟩ := mem_named_iff.1 h
  exact hnodes _ hn

theorem fits_of_mem_declarations (h : (name, d) ∈ s.declarations namesp) : d.Fits := by
  have hchildren : ∀ {k kind scope}, kind ∈ DefinitionKind.nodeKinds k →
      ∀ n ∈ s.tree.childrenOf [kind] scope, s.tree.kind n ∈ k.nodeKinds :=
    fun hk n hn => (kind_of_mem_childrenOf hn).symm ▸ hk
  cases namesp with
  | module => exact absurd h List.not_mem_nil
  | value =>
    simp only [declarations, List.mem_append] at h
    rcases h with (h | h) | h <;> exact fits_of_mem_named h (hchildren (by decide))
  | type =>
    rcases List.mem_append.1 h with h | h <;> exact fits_of_mem_named h (hchildren (by decide))
  | constructor =>
    rcases List.mem_append.1 h with h | h
    · refine fits_of_mem_named h fun n hn => ?_
      obtain ⟨owner, -, hn⟩ := List.mem_flatMap.1 hn
      exact hchildren (by decide) n hn
    · exact fits_of_mem_named h (hchildren (by decide))

theorem fits_of_pattern (hq : s.tree.kind q = "lower_pattern")
    (hk : k ∈ [.function, .functionParameter, .anonymousFunctionParameter, .casePattern]) :
    Definition.Fits ⟨q, s, k⟩ := by
  refine fits_of_kind hq ?_
  simp only [List.mem_cons, List.not_mem_nil, or_false] at hk
  rcases hk with rfl | rfl | rfl | rfl <;> decide

theorem Destructured.fits (h : s.Destructured scope name q) :
    Definition.Fits ⟨q, s, .function⟩ := by
  obtain ⟨-, -, -, -, -, hkind, -⟩ := h
  exact fits_of_pattern hkind (by simp)

theorem fits_of_boundBy? (h : s.boundBy? name scope = some d) : d.Fits := by
  obtain ⟨rfl, hcases⟩ := boundBy?_cases h
  obtain ⟨q, s, k⟩ := d
  rcases hcases with ⟨rfl, hvalue⟩ | ⟨hk, p, -, hbind⟩
  · rcases valueNamed?_cases hvalue with ⟨hmem, -⟩ | hq
    · exact fits_of_kind (kind_of_mem_childrenOf hmem) (by decide)
    · exact hq.fits
  · exact fits_of_pattern (bindingIn?_cases hbind).2.1 (List.mem_cons_of_mem _ hk)

theorem fits_of_declared? (h : s.declared? name namesp = some d) : d.Fits := by
  rcases declared?_cases h with hmem | ⟨-, rfl, hk, hq⟩
  · exact fits_of_mem_declarations hmem
  · obtain ⟨q, s, k⟩ := d
    obtain rfl := hk
    exact hq.fits

/-- **What a source yields has the node kind of its definition kind.** -/
theorem Yields.fits (h : s.Placed) (hd : s.Yields d) : d.Fits := by
  cases hd with
  | bound hd => exact fits_of_boundBy? hd
  | declared hd => exact fits_of_declared? hd
  | offered hd => exact fits_of_mem_declarations (offered?_admitted hd).1
  | named hd =>
    obtain ⟨rfl, hkind⟩ := namedDeclaration?_cases hd
    have hnamed : ∀ pair ∈ namedKinds, pair.1 ∈ DefinitionKind.nodeKinds pair.2 := by decide
    exact hnamed _ hkind
  | @function l n hl hn =>
    obtain ⟨d, hd, hkind, -⟩ := h.lefts l (Tree.lt_size_of_kind hl (by decide)) hl
    obtain rfl : n = d := Option.some.inj (hn.symm.trans hd)
    exact fits_of_kind hkind (by decide)
  | typeVariable hd =>
    obtain ⟨owner, -, hd⟩ := Option.bind_eq_some_iff.1 hd
    obtain ⟨v, hv, rfl⟩ := Option.map_eq_some_iff.1 hd
    have hmem := (List.mem_filter.1 (List.mem_of_find?_eq_some hv)).2
    exact fits_of_kind (by simpa using hmem) (by decide)
  | field hk => exact fits_of_kind hk (by decide)
  | module hk => rcases hk with hk | hk <;> exact fits_of_kind hk (by decide)

/-! ## The names of what a source yields -/

theorem name?_of_function (h : (s.functionName? n).map s.textOf = some name) :
    Definition.name? ⟨n, s, .function⟩ = some name := by
  obtain ⟨f, hf, rfl⟩ := Option.map_eq_some_iff.1 h
  simp [Definition.name?, Definition.nameNode?, hf]

theorem Spelled.name?_of_destructured (h : s.Spelled) (hq : s.Destructured scope name q) :
    Definition.name? ⟨q, s, .function⟩ = some name := by
  obtain ⟨-, -, -, -, -, hkind, rfl⟩ := hq
  have hleft : s.tree.child? "functionDeclarationLeft" q = none := by
    by_contra hsome
    have := h.owners q (Tree.lt_size_of_kind hkind (by decide)) (Option.isSome_iff_ne_none.2 hsome)
    exact absurd (hkind.symm.trans this) (by decide)
  simp [Definition.name?, Definition.nameNode?, functionName?, hleft]

theorem Spelled.name?_of_boundBy? (h : s.Spelled) (hd : s.boundBy? name scope = some d) :
    d.name? = some name := by
  obtain ⟨rfl, hcases⟩ := boundBy?_cases hd
  obtain ⟨q, s, k⟩ := d
  rcases hcases with ⟨rfl, hvalue⟩ | ⟨hk, p, -, hbind⟩
  · rcases valueNamed?_cases hvalue with ⟨-, hname⟩ | hq
    · exact name?_of_function hname
    · exact h.name?_of_destructured hq
  · obtain ⟨-, -, rfl⟩ := bindingIn?_cases hbind
    simp only [List.mem_cons, List.not_mem_nil, or_false] at hk
    rcases hk with rfl | rfl | rfl <;> rfl

theorem Spelled.name?_of_declared? (h : s.Spelled) (hd : s.declared? name namesp = some d) :
    d.name? = some name := by
  rcases declared?_cases hd with hmem | ⟨-, rfl, hk, hq⟩
  · exact name?_of_mem_declarations hmem
  · obtain ⟨q, s, k⟩ := d
    obtain rfl := hk
    exact h.name?_of_destructured hq

/-- A declaration goes by the upper-case identifier in it. -/
theorem Placed.name?_of_namedDeclaration? (h : s.Placed)
    (hm : s.tree.kind m = "upper_case_identifier")
    (hd : Workspace.namedDeclaration? s m = some d) : d.name? = some (s.textOf m) := by
  obtain ⟨p, hp, hmatch⟩ := Option.bind_eq_some_iff.1 hd
  have hname := h.names m (Tree.lt_size_of_kind hm (by decide)) hm p hp
  split at hmatch
  case h_4 => exact nomatch hmatch
  all_goals
    next hk =>
    obtain rfl := Option.some.inj hmatch
    simp [Definition.name?, Definition.nameNode?, hname (by rw [hk]; decide)]

/-- A function goes by the identifier that leads its left side. -/
theorem name?_of_left (hplaced : s.Placed) (hspelled : s.Spelled)
    (hl : s.tree.kind p = "function_declaration_left") (hn : s.tree.parent? p = some n)
    (hlead : (s.tree.namedChildren p).head? = some m)
    (hm : s.tree.kind m ∈ ["lower_case_identifier", "record_base_identifier"]) :
    Definition.name? ⟨n, s, .function⟩ = some (s.textOf m) := by
  have hsize := Tree.lt_size_of_kind hl (by decide)
  obtain ⟨d, hd, -, hleft⟩ := hplaced.lefts p hsize hl
  obtain rfl : n = d := Option.some.inj (hn.symm.trans hd)
  refine name?_of_function ?_
  rw [functionName?, hleft, Option.bind_some, hspelled.starts p hsize hl m hlead hm,
    Option.map_some]

end Source

/-! ## The names of references -/

namespace Reference

variable {s : Source} {r : Reference} {m path : Nat}

/-- The reference of an identifier in a path goes by the text of the identifier, unless it means
a module: in an import clause, or where the identifier is not the last segment. -/
theorem inPath?_cases (h : inPath? s path m = some r) : r.name = s.textOf m ∨
    r.namesp = .module ∧ (namespaceOf s.tree path m = .module ∨ lastSegment? s.tree path ≠ some m) := by
  simp only [inPath?] at h
  split_ifs at h with _ hlength
  · obtain rfl := Option.some.inj h
    refine .inr ⟨rfl, .inr fun hlast => hlength ?_⟩
    exact length_takeWhile_ne_getLast (nodup_segments s.tree path) hlast
  all_goals
    split at h <;> obtain rfl := Option.some.inj h
    · exact .inr ⟨rfl, .inl ‹_›⟩
    · exact .inl rfl

/-- The reference of an identifier means a module or the identifier. -/
theorem ofNode?_name (hk : s.tree.kind m ∈ identifierKinds) (h : ofNode? s m = some r) :
    r.namesp = .module ∨ r.name = s.textOf m := by
  rw [ofNode?, identifier?_self hk, Option.bind_some] at h
  split at h
  · cases h
  split at h
  · obtain rfl := Option.some.inj h
    exact .inr rfl
  · exact (inPath?_cases h).elim .inr fun hmodule => .inl hmodule.1

/-- The reference of a lower-case identifier means the identifier. -/
theorem ofNode?_name_of_lower (hs : s.Spelled) (hm : s.tree.kind m = "lower_case_identifier")
    (h : ofNode? s m = some r) : r.name = s.textOf m := by
  rw [ofNode?, identifier?_self (by simp [hm, identifierKinds]), Option.bind_some] at h
  split at h
  · cases h
  split at h
  · obtain rfl := Option.some.inj h
    rfl
  · next path hpath =>
    obtain ⟨hparent, hkind⟩ := Option.filter_eq_some_iff.1 hpath
    have hlast := hs.segments m (Tree.lt_size_of_kind hm (by decide)) hm path hparent
      (List.contains_iff_mem.1 hkind)
    refine (inPath?_cases h).resolve_right fun hmodule => hmodule.2.elim ?_ fun hne => hne hlast
    simp [namespaceOf, hm]

end Reference

/-! ## Fields -/

section
variable {d owner : Definition} {r : Record} {name : String}

theorem Record.kind_of_field? (hr : Record.ofAlias? owner = some r) (h : r.field? name = some d) :
    d.kind = .fieldType := by
  obtain ⟨record, -, rfl⟩ := Option.map_eq_some_iff.1 hr
  obtain ⟨ds, hds, hhead⟩ := Option.bind_eq_some_iff.1 h
  have hfields := (Record.fields_ofNode owner.source record).2 name
  rw [hds, Option.getD_some] at hfields
  obtain ⟨f, -, rfl⟩ := List.mem_map.1 (hfields ▸ List.mem_of_mem_head? hhead)
  rfl

theorem Chain.fieldOfAlias_kind (x : Search Definition) (name : String) :
    (x.bind fun owner => .ofOption ((Record.ofAlias? owner).bind fun r => r.field? name)).Ensures
      (·.kind = .fieldType) := by
  refine Search.ensures_bind fun owner => Search.ensures_ofOption fun d hd => ?_
  obtain ⟨r, hr, hd⟩ := Option.bind_eq_some_iff.1 hd
  exact Record.kind_of_field? hr hd

theorem Chain.fieldAmong_kind (c : Checker) (s : Source) (nodes : List Nat) :
    (fieldAmong c s nodes).Ensures (·.kind = .fieldType) := by
  induction nodes with
  | nil => exact Search.ensures_nothing
  | cons n rest ih =>
    refine Search.Ensures.orElse ?_ ?_
    · split
      · exact Search.ensures_bind fun field => fieldOfAlias_kind _ _
      · exact Search.ensures_nothing
    · split
      · exact Search.ensures_nothing
      · exact ih

end

/-! ## The names of answers -/

namespace Workspace

variable {w : Workspace} {c : Checker} {s : Source} {r : Reference} {d : Definition}
  {name : String} {m n : Nat}

/-- What a reference means, other than a module, goes by the name in the reference. -/
theorem lookup?_name (hs : s.Spelled) (h : w.lookup? s r = some d) :
    d.kind = .module ∨ r.namesp ≠ .module ∧ d.name? = some r.name := by
  have hoffered : d.source.offered? r.name r.namesp = some d → d.name? = some r.name :=
    fun hd => Source.name?_of_mem_declarations (Source.offered?_admitted hd).1
  by_cases hns : r.namesp = .module
  · rw [lookup?, hns] at h
    exact .inl (kind_of_lookupModule? h)
  · refine .inr ⟨hns, ?_⟩
    rw [lookup?_of_ne_module hns] at h
    split at h
    · obtain ⟨i, -, h⟩ := List.exists_of_findSome?_eq_some h
      exact hoffered (module_offers_iff.1 h).2
    · rcases Option.or_eq_some_iff.1 h with h | ⟨-, h⟩
      · exact hs.name?_of_declared? h
      · obtain ⟨i, -, h⟩ := List.exists_of_findSome?_eq_some h
        exact hoffered (imported?_eq_some_iff.1 h).2.1

/-- What a reference by a name means answers the name. -/
theorem lookup_answers (hs : s.Spelled) (hr : r.namesp = .module ∨ r.name = name) :
    (w.lookup s r).Ensures (·.Answers name) := by
  refine (Search.ensures_ofOption fun d hd => ?_).orReport _
  rcases lookup?_name hs hd with hk | ⟨hns, hname⟩
  · exact Definition.answers_of_kind (by simp [hk, DefinitionKind.byPlace])
  · exact fun _ => hr.resolve_left hns ▸ hname

theorem lookupAt_answers (hs : s.Spelled) (hm : s.tree.kind m ∈ Reference.identifierKinds) :
    (w.lookupAt s m).Ensures (·.Answers (s.textOf m)) := by
  unfold lookupAt
  split
  · refine Search.ensures_ofOption fun d hd => ?_
    obtain ⟨n, -, rfl⟩ := Option.map_eq_some_iff.1 hd
    refine Definition.answers_of_kind ?_
    cases hdecl : w.declarationOf? (s.textOf n) with
    | none => simp [DefinitionKind.byPlace]
    | some d => simp [kind_of_declarationOf? hdecl, DefinitionKind.byPlace]
  · exact Search.Ensures.bind (Search.ensures_ofOption fun _ h => Reference.ofNode?_name hm h)
      fun r hr => lookup_answers hs hr

theorem plainReferent_answers (hs : s.Spelled)
    (hm : s.tree.kind m ∈ ["lower_case_identifier", "record_base_identifier"]) :
    (w.plainReferent s m).Ensures (·.Answers (s.textOf m)) := by
  have hreference : ∀ r, (if s.tree.kind m = "record_base_identifier" then
      some (Reference.unqualified (s.textOf m) .value) else Reference.ofNode? s m) = some r →
      r.name = s.textOf m := by
    intro r hr
    split at hr
    · obtain rfl := Option.some.inj hr
      rfl
    · next hne =>
      have hlower : s.tree.kind m = "lower_case_identifier" := by simpa [hne] using hm
      exact Reference.ofNode?_name_of_lower hs hlower hr
  refine Search.Ensures.bind (Search.ensures_ofOption hreference) fun r hr => ?_
  split
  · next d hd =>
    obtain ⟨-, hd⟩ := Option.ite_none_right_eq_some.1 hd
    obtain ⟨scope, -, hd⟩ := List.exists_of_findSome?_eq_some hd
    exact Search.ensures_pure fun _ => hr ▸ hs.name?_of_boundBy? hd
  · exact lookup_answers hs (.inr hr)

theorem variable_answers (s : Source) (n : Nat) (name : String) :
    (Search.ofOption (s.variableDeclaration? n)).Ensures (·.Answers name) := by
  refine Search.ensures_ofOption fun d hd => Definition.answers_of_kind ?_
  obtain ⟨owner, -, hd⟩ := Option.bind_eq_some_iff.1 hd
  obtain ⟨v, -, rfl⟩ := Option.map_eq_some_iff.1 hd
  simp [DefinitionKind.byPlace]

theorem field_answers {x : Search Definition} (h : x.Ensures (·.kind = .fieldType)) (name : String) :
    x.Ensures (·.Answers name) :=
  fun d hd => Definition.answers_of_kind (by simp [h d hd, DefinitionKind.byPlace])

theorem lowerCaseReferent_answers (c : Checker) (hplaced : s.Placed) (hspelled : s.Spelled)
    (hm : s.tree.kind m ∈ ["lower_case_identifier", "record_base_identifier"]) :
    (w.lowerCaseReferent c s m).Ensures (·.Answers (s.textOf m)) := by
  refine Search.ensures_bind fun p => ?_
  dsimp only
  split
  · exact field_answers (Chain.fieldAmong_kind c s _) _
  split
  · exact field_answers (Search.ensures_bind fun _ => Chain.fieldOfAlias_kind _ _) _
  split
  · exact Search.ensures_pure (Definition.answers_of_kind (by simp [DefinitionKind.byPlace]))
  split
  · exact variable_answers s p _
  split
  · next hleft =>
    refine Search.ensures_ofOption fun d hd => ?_
    obtain ⟨n, hn, rfl⟩ := Option.map_eq_some_iff.1 hd
    exact fun _ => Source.name?_of_left hplaced hspelled hleft.1 hn (of_decide_eq_true hleft.2) hm
  split
  · exact Search.ensures_ofOption fun d hd _ => hspelled.name?_of_declared? hd
  · exact plainReferent_answers hspelled hm

/-- **What an identifier refers to goes by its text**, unless it is found by its place. -/
theorem identifierReferent_answers (c : Checker) (hplaced : s.Placed) (hspelled : s.Spelled)
    (m : Nat) : (w.identifierReferent c s m).Ensures (·.Answers (s.textOf m)) := by
  unfold identifierReferent
  split
  · next hm => exact lowerCaseReferent_answers c hplaced hspelled (by simp [hm])
  · next hm => exact lowerCaseReferent_answers c hplaced hspelled (by simp [hm])
  · next hm =>
    split
    · next d hd =>
      exact Search.ensures_pure fun _ => hplaced.name?_of_namedDeclaration? hm hd
    · exact lookupAt_answers hspelled (by simp [hm, Reference.identifierKinds])
  · exact lookup_answers hspelled (.inr rfl)
  · exact variable_answers s m _
  · exact variable_answers s m _
  · exact Search.ensures_nothing

theorem exists_identifier_of_referent (h : (w.referent s n).found = some d) :
    ∃ m, identifierOf? s.tree n = some m ∧ ∃ c, (w.identifierReferent c s m).found = some d := by
  change (w.step (w.steps (s.tree.size + 1)) s n).found = some d at h
  cases hm : identifierOf? s.tree n with
  | none => simp [step, hm] at h
  | some m => exact ⟨m, rfl, _, (step_found hm).symm.trans h⟩

theorem Orderly.file_eq {changes : List Change} {f : FileId} (o : Orderly changes w)
    (hs : w.source? f = some s) : s.file = f := by
  obtain ⟨e, he, rfl⟩ := Option.map_eq_some_iff.1 hs
  exact (o.entries f e he).1

end Workspace

namespace Sample

theorem eq_of_source?_installed {f : FileId} {t : Source}
    (h : (Workspace.run installed).source? f = some t) : t = shapes ∨ t = importer := by
  by_cases hmain : f = importer.file
  · rw [hmain, source?_installed] at h
    exact .inr (Option.some.inj h).symm
  · refine .inl ?_
    change ((Workspace.install _ importer false).source? f) = some t at h
    rw [Workspace.source?_install_of_ne hmain] at h
    by_cases hshapes : f = shapes.file
    · rw [hshapes] at h
      exact (Option.some.inj (Workspace.source?_install_self.symm.trans h)).symm
    · change ((Workspace.install _ shapes false).source? f) = some t at h
      rw [Workspace.source?_install_of_ne hshapes] at h
      exact nomatch h

theorem placed_shapes : shapes.Placed where
  lefts := by decide +kernel
  names := by decide +kernel

theorem placed_importer : importer.Placed where
  lefts := by decide +kernel
  names := by decide +kernel

theorem spelled_importer : importer.Spelled where
  starts := by decide +kernel
  owners := by decide +kernel
  segments := by decide +kernel

/-- The type that `importer` lists is looked up, for the name of no declaration stands there. -/
theorem identifierReferent_importer (c : Checker) :
    ((Workspace.run installed).identifierReferent c importer 18).found =
      some ⟨26, shapes, .type⟩ := by
  have hkind : importer.tree.kind 18 = "upper_case_identifier" := rfl
  have hnone : Workspace.namedDeclaration? importer 18 = none := by decide +kernel
  have hlookup : ((Workspace.run installed).lookupAt importer 18).found =
      some ⟨26, shapes, .type⟩ := by
    decide +kernel
  simp only [Workspace.identifierReferent, hkind, hnone, hlookup]

end Sample

namespace Workspace

/-- **Whatever a node refers to is well formed.** In every workspace of files whose declarations
stand where they belong, the definition that a node of such a file refers to is a node of the source
that the workspace has for the file of the definition, and its kind fixes the kind of the node.
Unless it is a field, a module or a type variable, it goes by the text of the identifier that the
node narrows down to. -/
theorem referent_wellFormed (changes : List Change) {f : FileId} {s : Source} {n : Nat}
    {d : Definition} (hs : (run changes).source? f = some s)
    (hw : ∀ g t, (run changes).source? g = some t → t.Placed)
    (h : ((run changes).referent s n).found = some d) :
    (run changes).source? d.file = some d.source ∧ d.node < d.source.tree.size ∧
      d.source.tree.kind d.node ∈ d.kind.nodeKinds ∧
      ∃ m, identifierOf? s.tree n = some m ∧
        (s.Spelled → d.kind ∉ [.fieldType, .module, .typeVariable] →
          d.name? = some (s.textOf m)) := by
  have hsources : ∀ g t, (run changes).source? g = some t →
      (run changes).source? t.file = some t ∧ t.Placed := by
    intro g t ht
    refine ⟨?_, hw g t ht⟩
    rwa [(orderly_run changes).file_eq ht]
  have hstems := referent_sound hsources s (hsources f s hs) n d h
  have hfits : d.Fits := by
    obtain ⟨t, ⟨-, hplaced⟩, hd⟩ := hstems
    exact hd.fits hplaced
  obtain ⟨m, hm, c, hfound⟩ := exists_identifier_of_referent h
  exact ⟨hstems.source.1, hfits.lt_size, hfits, m, hm, fun hspelled =>
    identifierReferent_answers c (hw f s hs) hspelled m d hfound⟩

/-- The type that `importer` lists is the one in `shapes`. -/
theorem referent_wellFormed_shape :
    let d : Definition := ⟨26, Sample.shapes, .type⟩
    (∀ g t, (run Sample.installed).source? g = some t → t.Placed) ∧ Sample.importer.Spelled ∧
      ((run Sample.installed).referent Sample.importer 18).found = some d ∧
      (run Sample.installed).source? Sample.shapes.file = some Sample.shapes ∧
      d.name? = some (Sample.importer.textOf 18) := by
  intro d
  have hw : ∀ g t, (run Sample.installed).source? g = some t → t.Placed := by
    intro g t ht
    rcases Sample.eq_of_source?_installed ht with rfl | rfl
    · exact Sample.placed_shapes
    · exact Sample.placed_importer
  have hkind : Sample.importer.tree.kind 18 = "upper_case_identifier" := rfl
  have hid : identifierOf? Sample.importer.tree 18 = some 18 :=
    identifierOf?_self (by simp [hkind])
  have h : ((run Sample.installed).referent Sample.importer 18).found = some d :=
    (step_found hid).trans (Sample.identifierReferent_importer _)
  obtain ⟨hsource, -, -, m, hm, hname⟩ := referent_wellFormed _ Sample.source?_installed hw h
  obtain rfl : 18 = m := Option.some.inj (hid.symm.trans hm)
  exact ⟨hw, Sample.spelled_importer, h, hsource, hname Sample.spelled_importer (by decide)⟩

end Workspace
end ElmScope
