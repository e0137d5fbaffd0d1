import ElmScope.Proofs.Exports.Table
import ElmScope.Workspace.Lookup
import Mathlib.Data.List.Nodup
/-!
# The importer's view of a module

A name can be sought in a file in two ways. `declared?` looks among the declarations in the tree,
whatever the module exposes; `offered?` looks into the table of exports, as importers do. Both
are measured here against one list per namespace, `declarations`, which pairs every declaration
with the name it declares, and against the exposing list of the module, `Admits`.

* `offered?_admitted` — in every file, an offer is an admitted declaration
* `mem_declarations_of_declared?`, `declared?_eq_some_iff` — what is declared
* `offered?_iff_declared?` — where names are declared once, the offer is the admitted part of
  what is declared
* `OwnersNamed` — the types with named variants have names, as the grammar wants it
-/
namespace ElmScope

/-- In a list whose keys are distinct, the first element of a key is the one of that key. -/
theorem find?_eq_some_iff_of_nodup {α β : Type} [DecidableEq β] {f : α → β} {l : List α}
    (h : (l.map f).Nodup) {a : α} {b : β} : l.find? (f · = b) = some a ↔ a ∈ l ∧ f a = b := by
  constructor
  · intro ha
    exact ⟨List.mem_of_find?_eq_some ha, by simpa using List.find?_some ha⟩
  · rintro ⟨ha, hb⟩
    induction l with
    | nil => exact absurd ha List.not_mem_nil
    | cons c l ih =>
      rw [List.map_cons, List.nodup_cons] at h
      rcases List.mem_cons.1 ha with rfl | ha
      · rw [List.find?_cons_of_pos (by simpa using hb)]
      · have hne : f c ≠ b := fun hc => h.1 (hc.trans hb.symm ▸ List.mem_map_of_mem ha)
        rw [List.find?_cons_of_neg (by simpa using hne)]
        exact ih h.2 ha

namespace Source

variable (s : Source)

/-- Some declarations of one kind, with the names they declare. One without a name is left
out. -/
def named (nodes : List Nat) (name? : Nat → Option String) (kind : DefinitionKind) :
    List (String × Definition) :=
  nodes.filterMap fun n => (name? n).map fun name => (name, ⟨n, s, kind⟩)

/-- The declarations of a namespace with the names they declare, in the order in which a name is
sought among them. -/
def declarations : Namespace → List (String × Definition)
  | .value =>
    s.named s.valueDeclarations (fun d => (s.functionName? d).map s.textOf) .function
      ++ s.named s.portAnnotations s.declaredName? .port
      ++ s.named s.infixDeclarations s.operatorName? .operator
  | .type =>
    s.named s.aliasDeclarations s.declaredName? .typeAlias
      ++ s.named s.typeDeclarations s.declaredName? .type
  | .constructor =>
    s.named (s.typeDeclarations.flatMap s.variants) s.declaredName? .unionConstructor
      ++ s.named s.aliasDeclarations s.declaredName? .typeAlias
  | .module => []

/-- A file in which no name is declared twice, neither among values and types nor among variants
and aliases, and in which no value is declared by a pattern. -/
structure Unambiguous : Prop where
  names : ((s.declarations .value ++ s.declarations .type).map (·.1)).Nodup
  constructors : ((s.declarations .constructor).map (·.1)).Nodup
  plain : ∀ d ∈ s.valueDeclarations, s.tree.child? "pattern" d = none

/-- Whether the exposing list of the module lets a declaration through under a name. A variant
comes with the type it is a variant of. -/
def Admits (name : String) (d : Definition) : Prop :=
  match d.kind with
  | .function | .port | .operator => s.exposing.exposes name = true
  | .typeAlias | .type => s.exposing.exposesType name = true
  | .unionConstructor =>
    ∃ t ∈ s.typeDeclarations, d.node ∈ s.variants t ∧ ∃ owner, s.declaredName? t = some owner ∧
      s.exposing.exposesType owner = true ∧ s.exposing.exposesConstructor owner name = true
  | _ => False

variable {s} {nodes : List Nat} {name? : Nat → Option String} {kind : DefinitionKind}
  {name : String} {namesp : Namespace} {d : Definition} {n : Nat} {e : Export}

theorem mem_named_iff : (name, d) ∈ s.named nodes name? kind ↔
    d.source = s ∧ d.kind = kind ∧ d.node ∈ nodes ∧ name? d.node = some name := by
  obtain ⟨n, t, k⟩ := d
  simp only [named, List.mem_filterMap, Option.map_eq_some_iff, Prod.mk.injEq,
    Definition.mk.injEq]
  constructor
  · rintro ⟨m, hm, _, hname, rfl, rfl, rfl, rfl⟩
    exact ⟨rfl, rfl, hm, hname⟩
  · rintro ⟨rfl, rfl, hm, hname⟩
    exact ⟨n, hm, name, hname, rfl, rfl, rfl, rfl⟩

theorem find?_named : (s.named nodes name? kind).find? (·.1 = name) =
    (nodes.find? fun n => name? n = some name).map fun n => (name, ⟨n, s, kind⟩) := by
  induction nodes with
  | nil => rfl
  | cons n nodes ih =>
    rw [named] at ih ⊢
    cases hn : name? n with
    | none => simp [hn, ih]
    | some other =>
      by_cases h : other = name
      · subst h
        simp [hn]
      · simp [hn, h, ih]

/-! ## Declared names -/

/-- Where no pattern binds a name, its declaration is the first of the name in the namespace. -/
theorem declared?_eq_find?_of_undestructured (hnone : namesp = .value → ∀ d ∈ s.valueDeclarations,
      (s.tree.child? "pattern" d).bind (s.bindingBelow? name) = none) :
    s.declared? name namesp = ((s.declarations namesp).find? (·.1 = name)).map (·.2) := by
  cases namesp with
  | module => rfl
  | type =>
    simp only [declared?, declarations, List.find?_append, find?_named, Option.map_or,
      Option.map_map]
    rfl
  | constructor =>
    simp only [declared?, declarations, List.find?_append, find?_named, Option.map_or,
      Option.map_map]
    rfl
  | value =>
    have hnone := List.findSome?_eq_none_iff.2 (hnone rfl)
    have hvalue : s.valueNamed? Tree.root name true = s.valueDeclarations.find? fun d =>
        (s.functionName? d).map s.textOf = some name := by
      simp only [valueNamed?, if_true]
      rw [valueDeclarations] at hnone
      rw [hnone, Option.or_none]
      congr 1
      funext d
      cases s.functionName? d <;> simp
    simp only [declared?, declarations, List.find?_append, find?_named, Option.map_or,
      Option.map_map, hvalue, Option.or_assoc]
    rfl

/-- Where no value is declared by a pattern, a declaration is the first of its name in the
namespace. -/
theorem declared?_eq_find? (plain : ∀ d ∈ s.valueDeclarations, s.tree.child? "pattern" d = none) :
    s.declared? name namesp = ((s.declarations namesp).find? (·.1 = name)).map (·.2) := by
  refine declared?_eq_find?_of_undestructured fun _ d hd => ?_
  rw [plain d hd, Option.bind_none]

theorem mem_declarations_of_undestructured
    (hnone : namesp = .value → ∀ d ∈ s.valueDeclarations,
      (s.tree.child? "pattern" d).bind (s.bindingBelow? name) = none)
    (h : s.declared? name namesp = some d) : (name, d) ∈ s.declarations namesp := by
  rw [declared?_eq_find?_of_undestructured hnone, Option.map_eq_some_iff] at h
  obtain ⟨⟨other, d'⟩, hfind, rfl⟩ := h
  obtain rfl : other = name := by simpa using List.find?_some hfind
  exact List.mem_of_find?_eq_some hfind

theorem mem_declarations_of_declared?
    (plain : ∀ d ∈ s.valueDeclarations, s.tree.child? "pattern" d = none)
    (h : s.declared? name namesp = some d) : (name, d) ∈ s.declarations namesp := by
  refine mem_declarations_of_undestructured (fun _ d hd => ?_) h
  rw [plain d hd, Option.bind_none]

namespace Unambiguous

theorem nodup (u : s.Unambiguous) (namesp : Namespace) :
    ((s.declarations namesp).map (·.1)).Nodup := by
  have names := u.names
  rw [List.map_append, List.nodup_append] at names
  cases namesp with
  | value => exact names.1
  | type => exact names.2.1
  | constructor => exact u.constructors
  | module => exact List.nodup_nil

theorem declared?_eq_some_iff (u : s.Unambiguous) :
    s.declared? name namesp = some d ↔ (name, d) ∈ s.declarations namesp := by
  refine ⟨mem_declarations_of_declared? u.plain, fun h => ?_⟩
  rw [declared?_eq_find? u.plain, (find?_eq_some_iff_of_nodup (u.nodup namesp)).2 ⟨h, rfl⟩]
  rfl

/-- A name stands for one declaration of a namespace. -/
theorem eq_of_mem (u : s.Unambiguous) {d' : Definition} (h : (name, d) ∈ s.declarations namesp)
    (h' : (name, d') ∈ s.declarations namesp) : d = d' :=
  Option.some.inj ((u.declared?_eq_some_iff.2 h).symm.trans (u.declared?_eq_some_iff.2 h'))

end Unambiguous

/-! ## Exported definitions -/

theorem mem_visible_iff {admits : String → Bool}
    {constructors : String → Nat → List ExportedConstructor} :
    e ∈ Exports.visible nodes name? admits kind constructors ↔
      (e.name, ⟨e.node, s, e.kind⟩) ∈ s.named nodes name? kind ∧ admits e.name = true ∧
        e.constructors = constructors e.name e.node := by
  rw [mem_named_iff]
  simp only [Exports.visible, List.mem_filterMap, Option.map_eq_some_iff,
    Option.filter_eq_some_iff]
  constructor
  · rintro ⟨n, hn, name, ⟨hname, hadmits⟩, rfl⟩
    exact ⟨⟨trivial, rfl, hn, hname⟩, hadmits, rfl⟩
  · rintro ⟨⟨-, rfl, hn, hname⟩, hadmits, hc⟩
    exact ⟨e.node, hn, e.name, ⟨hname, hadmits⟩, by rw [← hc]⟩

theorem mem_deferring_iff : e ∈ Exports.deferring s ↔ e.constructors = [] ∧
    ((e.name, ⟨e.node, s, e.kind⟩) ∈ s.declarations .value ∧ s.exposing.exposes e.name = true ∨
      (e.name, ⟨e.node, s, e.kind⟩) ∈ s.named s.aliasDeclarations s.declaredName? .typeAlias ∧
        s.exposing.exposesType e.name = true) := by
  simp only [Exports.deferring, List.mem_append, mem_visible_iff (s := s), declarations]
  constructor
  · rintro (((⟨hd, hexp, hc⟩ | ⟨hd, hexp, hc⟩) | ⟨hd, hexp, hc⟩) | ⟨hd, hexp, hc⟩)
    · exact ⟨hc, .inl ⟨.inl (.inl hd), hexp⟩⟩
    · exact ⟨hc, .inl ⟨.inl (.inr hd), hexp⟩⟩
    · exact ⟨hc, .inl ⟨.inr hd, hexp⟩⟩
    · exact ⟨hc, .inr ⟨hd, hexp⟩⟩
  · rintro ⟨hc, ⟨(hd | hd) | hd, hexp⟩ | ⟨hd, hexp⟩⟩
    · exact .inl (.inl (.inl ⟨hd, hexp, hc⟩))
    · exact .inl (.inl (.inr ⟨hd, hexp, hc⟩))
    · exact .inl (.inr ⟨hd, hexp, hc⟩)
    · exact .inr ⟨hd, hexp, hc⟩

theorem mem_replacing_iff : e ∈ Exports.replacing s ↔
    (e.name, ⟨e.node, s, e.kind⟩) ∈ s.named s.typeDeclarations s.declaredName? .type ∧
      s.exposing.exposesType e.name = true ∧
        e.constructors = Exports.visibleConstructors s e.name e.node :=
  mem_visible_iff

theorem mem_visibleConstructors_iff {typeName : String} {t : Nat} {c : ExportedConstructor} :
    c ∈ Exports.visibleConstructors s typeName t ↔
      c.node ∈ s.variants t ∧ s.declaredName? c.node = some c.name ∧
        s.exposing.exposesConstructor typeName c.name = true := by
  obtain ⟨name, n⟩ := c
  simp only [Exports.visibleConstructors, List.mem_filterMap, Option.map_eq_some_iff,
    Option.filter_eq_some_iff, ExportedConstructor.mk.injEq]
  constructor
  · rintro ⟨m, hm, _, ⟨hname, hexp⟩, rfl, rfl⟩
    exact ⟨hm, hname, hexp⟩
  · rintro ⟨hm, hname, hexp⟩
    exact ⟨n, hm, name, ⟨hname, hexp⟩, rfl, rfl⟩

/-- What a declaration of a namespace is, and where its name is written. -/
theorem mem_declarations_cases (h : (name, d) ∈ s.declarations namesp) : d.source = s ∧
    match namesp with
    | .value =>
      d.kind = .function ∧ (s.functionName? d.node).map s.textOf = some name ∨
        d.kind = .port ∧ s.declaredName? d.node = some name ∨
          d.kind = .operator ∧ s.operatorName? d.node = some name
    | .type => (d.kind = .typeAlias ∨ d.kind = .type) ∧ s.declaredName? d.node = some name
    | .constructor =>
      (d.kind = .unionConstructor ∨ d.kind = .typeAlias) ∧ s.declaredName? d.node = some name
    | .module => False := by
  cases namesp with
  | module => exact absurd h List.not_mem_nil
  | value =>
    simp only [declarations, List.mem_append, mem_named_iff] at h
    rcases h with (⟨hs, hk, -, hn⟩ | ⟨hs, hk, -, hn⟩) | ⟨hs, hk, -, hn⟩
    · exact ⟨hs, .inl ⟨hk, hn⟩⟩
    · exact ⟨hs, .inr (.inl ⟨hk, hn⟩)⟩
    · exact ⟨hs, .inr (.inr ⟨hk, hn⟩)⟩
  | type | constructor =>
    simp only [declarations, List.mem_append, mem_named_iff] at h
    rcases h with ⟨hs, hk, -, hn⟩ | ⟨hs, hk, -, hn⟩
    · exact ⟨hs, .inl hk, hn⟩
    · exact ⟨hs, .inr hk, hn⟩

theorem source_eq_of_mem_declarations (h : (name, d) ∈ s.declarations namesp) : d.source = s :=
  (mem_declarations_cases h).1

/-- The kinds of the declarations of a namespace. -/
theorem kind_of_mem_declarations (h : (name, d) ∈ s.declarations namesp) :
    match namesp with
    | .value => d.kind = .function ∨ d.kind = .port ∨ d.kind = .operator
    | .type => d.kind = .typeAlias ∨ d.kind = .type
    | .constructor => d.kind = .unionConstructor ∨ d.kind = .typeAlias
    | .module => False := by
  have hcases := (mem_declarations_cases h).2
  cases namesp with
  | value => exact hcases.imp And.left (Or.imp And.left And.left)
  | type | constructor => exact hcases.1
  | module => exact hcases

theorem admits_value_iff (h : (name, d) ∈ s.declarations .value) :
    s.Admits name d ↔ s.exposing.exposes name = true := by
  rcases kind_of_mem_declarations h with hk | hk | hk <;> simp [Admits, hk]

theorem admits_type_iff (h : (name, d) ∈ s.declarations .type) :
    s.Admits name d ↔ s.exposing.exposesType name = true := by
  rcases kind_of_mem_declarations h with hk | hk <;> simp [Admits, hk]

/-- What the table has under a name is an admitted value or type that declares it. -/
theorem get?_ofSource_admitted (h : (Exports.ofSource s).get? name = some e) :
    ((name, ⟨e.node, s, e.kind⟩) ∈ s.declarations .value ∨
      (name, ⟨e.node, s, e.kind⟩) ∈ s.declarations .type) ∧ s.Admits name ⟨e.node, s, e.kind⟩ := by
  obtain ⟨hmem, rfl⟩ := Exports.get?_ofSource_sound h
  rcases hmem with hmem | hmem
  · obtain ⟨hd, hexp, -⟩ := mem_replacing_iff.1 hmem
    have htype : (e.name, (⟨e.node, s, e.kind⟩ : Definition)) ∈ s.declarations .type :=
      List.mem_append_right _ hd
    exact ⟨.inr htype, (admits_type_iff htype).2 hexp⟩
  · rcases (mem_deferring_iff.1 hmem).2 with ⟨hd, hexp⟩ | ⟨hd, hexp⟩
    · exact ⟨.inl hd, (admits_value_iff hd).2 hexp⟩
    · have htype : (e.name, (⟨e.node, s, e.kind⟩ : Definition)) ∈ s.declarations .type :=
        List.mem_append_left _ hd
      exact ⟨.inr htype, (admits_type_iff htype).2 hexp⟩

/-- A constructor of the table is one of a visible type, and of that name. -/
theorem constructor?_ofSource_sound {c : ExportedConstructor}
    (h : (Exports.ofSource s).constructor? name = some (e, c)) :
    e ∈ Exports.replacing s ∧ c ∈ e.constructors ∧ c.name = name := by
  obtain ⟨e', he', hc⟩ := List.exists_of_findSome?_eq_some h
  obtain ⟨c', hfind, heq⟩ := Option.map_eq_some_iff.1 hc
  obtain ⟨rfl, rfl⟩ := Prod.mk.inj heq
  have hmem := List.mem_of_find?_eq_some hfind
  refine ⟨?_, hmem, by simpa using List.find?_some hfind⟩
  rcases (Exports.get?_ofSource_sound (Exports.mem_toList_iff.1 he')).1 with hr | hr
  · exact hr
  · rw [(mem_deferring_iff.1 hr).1] at hmem
    exact absurd hmem List.not_mem_nil

/-- A constructor of the table is an admitted variant of that name. -/
theorem constructor?_ofSource_admitted {c : ExportedConstructor}
    (h : (Exports.ofSource s).constructor? name = some (e, c)) :
    (name, ⟨c.node, s, .unionConstructor⟩) ∈ s.declarations .constructor ∧
      s.Admits name ⟨c.node, s, .unionConstructor⟩ := by
  obtain ⟨hr, hmem, rfl⟩ := constructor?_ofSource_sound h
  obtain ⟨hd, hexp, hctors⟩ := mem_replacing_iff.1 hr
  obtain ⟨-, -, ht, hname⟩ := mem_named_iff.1 hd
  rw [hctors] at hmem
  obtain ⟨hv, hcname, hcexp⟩ := mem_visibleConstructors_iff.1 hmem
  have hvariant : c.node ∈ s.typeDeclarations.flatMap s.variants :=
    List.mem_flatMap.2 ⟨e.node, ht, hv⟩
  refine ⟨List.mem_append_left _ (mem_named_iff.2 ⟨rfl, rfl, hvariant, hcname⟩), ?_⟩
  exact ⟨e.node, ht, hv, e.name, hname, hexp, hcexp⟩

/-- In every file, an offer is a declaration of the namespace that declares the name, and the
exposing list of the module admits it. -/
theorem offered?_admitted (h : s.offered? name namesp = some d) :
    (name, d) ∈ s.declarations namesp ∧ s.Admits name d := by
  cases namesp with
  | module => exact nomatch h
  | value =>
    simp only [offered?, Option.map_eq_some_iff, Option.filter_eq_some_iff] at h
    obtain ⟨e, ⟨he, hkind⟩, rfl⟩ := h
    obtain ⟨hd | hd, hadmits⟩ := get?_ofSource_admitted he
    · exact ⟨hd, hadmits⟩
    · rcases kind_of_mem_declarations hd with hk | hk <;> simp_all
  | type =>
    simp only [offered?, Option.map_eq_some_iff, Option.filter_eq_some_iff] at h
    obtain ⟨e, ⟨he, hkind⟩, rfl⟩ := h
    obtain ⟨hd | hd, hadmits⟩ := get?_ofSource_admitted he
    · rcases kind_of_mem_declarations hd with hk | hk | hk <;>
        simp_all [DefinitionKind.isTypeLevel]
    · exact ⟨hd, hadmits⟩
  | constructor =>
    simp only [offered?] at h
    split at h
    · next e c hc =>
      obtain rfl := Option.some.inj h
      exact constructor?_ofSource_admitted hc
    · simp only [Option.map_eq_some_iff, Option.filter_eq_some_iff, decide_eq_true_eq] at h
      obtain ⟨e, ⟨he, hkind⟩, rfl⟩ := h
      obtain ⟨hd | hd, hadmits⟩ := get?_ofSource_admitted he
      · rcases kind_of_mem_declarations hd with hk | hk | hk <;> simp_all
      · refine ⟨List.mem_append_right _ ?_, hadmits⟩
        rcases List.mem_append.1 hd with hd | hd
        · exact hd
        · rw [mem_named_iff] at hd
          simp_all

/-! ## Files without ambiguous names -/

theorem map_fst_named : (s.named nodes name? kind).map (·.1) = nodes.filterMap name? := by
  rw [named, List.map_filterMap]
  congr 1
  funext n
  cases name? n <;> rfl

/-- The names of exported definitions are among the declared ones. -/
theorem map_name_visible_sublist {admits : String → Bool}
    {constructors : String → Nat → List ExportedConstructor} :
    ((Exports.visible nodes name? admits kind constructors).map (·.name)).Sublist
      ((s.named nodes name? kind).map (·.1)) := by
  have hnames : (Exports.visible nodes name? admits kind constructors).map (·.name) =
      (nodes.filterMap name?).filter admits := by
    rw [Exports.visible, List.map_filterMap, List.filter_filterMap]
    congr 1
    funext n
    cases (name? n).filter admits <;> rfl
  rw [hnames, map_fst_named]
  exact List.filter_sublist

section
variable (names : ((s.declarations .value ++ s.declarations .type).map (·.1)).Nodup)
include names

theorem nodup_exports : ((Exports.deferring s ++ Exports.replacing s).map (·.name)).Nodup := by
  refine names.sublist ?_
  simp only [Exports.deferring, Exports.replacing, declarations, List.map_append,
    List.append_assoc]
  exact (map_name_visible_sublist).append <| (map_name_visible_sublist).append <|
    (map_name_visible_sublist).append <| (map_name_visible_sublist).append
      map_name_visible_sublist

/-- The table has every exported definition under its name. -/
theorem get?_ofSource_of_nodup (he : e ∈ Exports.deferring s ∨ e ∈ Exports.replacing s) :
    (Exports.ofSource s).get? e.name = some e := by
  have exports := nodup_exports names
  rw [List.map_append, List.nodup_append] at exports
  obtain ⟨hdef, hrep, hdisj⟩ := exports
  have hrev : ((Exports.replacing s).reverse.map (·.name)).Nodup := by
    rw [List.map_reverse]
    exact List.nodup_reverse.2 hrep
  rw [Exports.get?_ofSource]
  rcases he with he | he
  · have hnone : (Exports.replacing s).reverse.find? (·.name = e.name) = none := by
      refine List.find?_eq_none.2 fun x hx => ?_
      have := hdisj _ (List.mem_map_of_mem he) _ (List.mem_map_of_mem (List.mem_reverse.1 hx))
      simpa using this.symm
    rw [hnone, Option.none_or]
    exact (find?_eq_some_iff_of_nodup hdef).2 ⟨he, rfl⟩
  · rw [(find?_eq_some_iff_of_nodup hrev).2 ⟨List.mem_reverse.2 he, rfl⟩]
    rfl

theorem get?_of_admitted
    (h : (name, d) ∈ s.declarations .value ∨ (name, d) ∈ s.declarations .type)
    (hadmits : s.Admits name d) :
    ∃ e, (Exports.ofSource s).get? name = some e ∧ d = ⟨e.node, s, e.kind⟩ := by
  obtain ⟨n, t, k⟩ := d
  rcases h with h | h
  · obtain rfl : t = s := source_eq_of_mem_declarations h
    have hexp := (admits_value_iff h).1 hadmits
    let e : Export := ⟨name, n, k, []⟩
    have he : e ∈ Exports.deferring t := mem_deferring_iff.2 ⟨rfl, .inl ⟨h, hexp⟩⟩
    exact ⟨e, get?_ofSource_of_nodup names (.inl he), rfl⟩
  · have hexp := (admits_type_iff h).1 hadmits
    rcases List.mem_append.1 h with h | h
    · obtain rfl : t = s := (mem_named_iff.1 h).1
      let e : Export := ⟨name, n, k, []⟩
      have he : e ∈ Exports.deferring t := mem_deferring_iff.2 ⟨rfl, .inr ⟨h, hexp⟩⟩
      exact ⟨e, get?_ofSource_of_nodup names (.inl he), rfl⟩
    · obtain rfl : t = s := (mem_named_iff.1 h).1
      let e : Export := ⟨name, n, k, Exports.visibleConstructors t name n⟩
      have he : e ∈ Exports.replacing t := mem_replacing_iff.2 ⟨h, hexp, rfl⟩
      exact ⟨e, get?_ofSource_of_nodup names (.inr he), rfl⟩

/-- The table has an admitted variant among its constructors. -/
theorem exists_constructor?_of_admitted
    (h : (name, ⟨n, s, .unionConstructor⟩) ∈ s.declarations .constructor)
    (hadmits : s.Admits name ⟨n, s, .unionConstructor⟩) :
    ∃ e c, (Exports.ofSource s).constructor? name = some (e, c) := by
  obtain ⟨t, ht, hv, owner, howner, htype, hctor⟩ := hadmits
  have hname : s.declaredName? n = some name := (mem_declarations_cases h).2.2
  have hd : (owner, (⟨t, s, .type⟩ : Definition)) ∈
      s.named s.typeDeclarations s.declaredName? .type :=
    mem_named_iff.2 ⟨rfl, rfl, ht, howner⟩
  let e : Export := ⟨owner, t, .type, Exports.visibleConstructors s owner t⟩
  have hrep : e ∈ Exports.replacing s := mem_replacing_iff.2 ⟨hd, htype, rfl⟩
  have he : e ∈ (Exports.ofSource s).toList :=
    Exports.mem_toList_iff.2 (get?_ofSource_of_nodup names (.inr hrep))
  have hc : (⟨name, n⟩ : ExportedConstructor) ∈ e.constructors :=
    mem_visibleConstructors_iff.2 ⟨hv, hname, hctor⟩
  cases hfound : (Exports.ofSource s).constructor? name with
  | some found => exact ⟨found.1, found.2, rfl⟩
  | none =>
    have hnone := List.findSome?_eq_none_iff.1 hfound e he
    rw [Option.map_eq_none_iff, List.find?_eq_none] at hnone
    exact absurd (decide_eq_true rfl) (hnone _ hc)

end

namespace Unambiguous

/-- Where no name is ambiguous, the offer is the admitted part of the declarations. -/
theorem offered?_eq_some_iff (u : s.Unambiguous) : s.offered? name namesp = some d ↔
    (name, d) ∈ s.declarations namesp ∧ s.Admits name d := by
  refine ⟨offered?_admitted, fun ⟨h, hadmits⟩ => ?_⟩
  cases namesp with
  | module => exact absurd h List.not_mem_nil
  | value =>
    obtain ⟨e, he, rfl⟩ := get?_of_admitted u.names (.inl h) hadmits
    have hk := kind_of_mem_declarations h
    simp only [offered?, Option.map_eq_some_iff, Option.filter_eq_some_iff]
    exact ⟨e, ⟨he, by simpa [or_assoc] using hk⟩, rfl⟩
  | type =>
    obtain ⟨e, he, rfl⟩ := get?_of_admitted u.names (.inr h) hadmits
    have hk : e.kind.isTypeLevel = true := by
      rcases kind_of_mem_declarations h with hk | hk <;>
        exact congrArg DefinitionKind.isTypeLevel hk
    simp only [offered?, Option.map_eq_some_iff, Option.filter_eq_some_iff]
    exact ⟨e, ⟨he, hk⟩, rfl⟩
  | constructor =>
    simp only [offered?]
    split
    · next e c hc =>
      rw [u.eq_of_mem h (constructor?_ofSource_admitted hc).1]
    · next hnone =>
      rcases List.mem_append.1 h with hv | ha
      · obtain ⟨n, t, k⟩ := d
        obtain ⟨rfl, rfl, -, -⟩ := mem_named_iff.1 hv
        obtain ⟨e, c, hc⟩ := exists_constructor?_of_admitted u.names h hadmits
        rw [hc] at hnone
        exact nomatch hnone
      · obtain ⟨e, he, rfl⟩ := get?_of_admitted u.names (.inr (List.mem_append_left _ ha)) hadmits
        obtain ⟨-, hk, -, -⟩ := mem_named_iff.1 ha
        simp only [Option.map_eq_some_iff, Option.filter_eq_some_iff]
        exact ⟨e, ⟨he, decide_eq_true hk⟩, rfl⟩

end Unambiguous

/-! ## Under a wildcard -/

variable (s) in
/-- A type with a named variant has a name itself. The grammar wants the name of every type; the
table of exports passes over a type without one, while its variants can still be found in the
tree. -/
def OwnersNamed : Prop :=
  ∀ t ∈ s.typeDeclarations, ∀ v ∈ s.variants t,
    (s.declaredName? v).isSome → (s.declaredName? t).isSome

instance : Decidable s.OwnersNamed :=
  inferInstanceAs <| Decidable <| ∀ t ∈ s.typeDeclarations, ∀ v ∈ s.variants t,
    (s.declaredName? v).isSome → (s.declaredName? t).isSome

/-- A variant stands in one type only. -/
theorem eq_of_mem_variants {t t' v : Nat} (h : v ∈ s.variants t) (h' : v ∈ s.variants t') :
    t = t' := by
  have hparent := Tree.shapeParent?_of_mem_children (List.mem_of_mem_filter h)
  have hparent' := Tree.shapeParent?_of_mem_children (List.mem_of_mem_filter h')
  exact Option.some.inj (hparent.symm.trans hparent')

section
variable (hall : s.exposing = .all)
include hall

theorem admits_variant_of_all (hk : d.kind = .unionConstructor) : s.Admits name d ↔
      ∃ t ∈ s.typeDeclarations, d.node ∈ s.variants t ∧ (s.declaredName? t).isSome := by
  simp only [Admits, hk, hall]
  refine exists_congr fun t => and_congr_right fun _ => and_congr_right fun _ => ?_
  rw [Option.isSome_iff_exists]
  exact exists_congr fun owner => and_iff_left ⟨rfl, rfl⟩

/-- Whatever is no variant is admitted. -/
theorem admits_of_all (h : (name, d) ∈ s.declarations namesp) (hk : d.kind ≠ .unionConstructor) :
    s.Admits name d := by
  have exposesType : s.exposing.exposesType name = true := by
    rw [hall]
    rfl
  cases namesp with
  | value =>
    rw [admits_value_iff h, hall]
    rfl
  | type => exact (admits_type_iff h).2 exposesType
  | module => exact absurd h List.not_mem_nil
  | constructor =>
    rcases List.mem_append.1 h with hv | ha
    · exact absurd (mem_named_iff.1 hv).2.1 hk
    · have htype : (name, d) ∈ s.declarations .type := List.mem_append_left _ ha
      exact (admits_type_iff htype).2 exposesType

/-- All variants are admitted exactly if the types they stand in have names. -/
theorem admits_constructors_iff_ownersNamed :
    (∀ name d, (name, d) ∈ s.declarations .constructor → s.Admits name d) ↔ s.OwnersNamed := by
  constructor
  · intro hadmits t ht v hv hnamed
    obtain ⟨name, hname⟩ := Option.isSome_iff_exists.1 hnamed
    have hmem : v ∈ s.typeDeclarations.flatMap s.variants := List.mem_flatMap.2 ⟨t, ht, hv⟩
    have hd : (name, (⟨v, s, .unionConstructor⟩ : Definition)) ∈ s.declarations .constructor :=
      List.mem_append_left _ (mem_named_iff.2 ⟨rfl, rfl, hmem, hname⟩)
    obtain ⟨t', -, hv', howner⟩ := (admits_variant_of_all hall rfl).1 (hadmits name _ hd)
    rwa [eq_of_mem_variants hv hv']
  · intro howners name d h
    by_cases hk : d.kind = .unionConstructor
    · rw [admits_variant_of_all hall hk]
      rcases List.mem_append.1 h with hv | ha
      · obtain ⟨-, -, hmem, hname⟩ := mem_named_iff.1 hv
        obtain ⟨t, ht, hvt⟩ := List.mem_flatMap.1 hmem
        exact ⟨t, ht, hvt, howners t ht _ hvt (Option.isSome_of_eq_some hname)⟩
      · exact absurd (hk.symm.trans (mem_named_iff.1 ha).2.1) (by decide)
    · exact admits_of_all hall h hk

end

/-- **The importer's view is the local view, filtered by the exposing list.** In a file that
declares no name twice, a module offers exactly those of its declarations that its exposing list
admits. Under a wildcard the two views agree on every name of a value, a type or a module; they
agree on every name of a constructor too exactly if types with named variants have names. -/
theorem offered?_iff_declared? (s : Source) (u : s.Unambiguous) :
    (∀ name namesp d, s.offered? name namesp = some d ↔
      s.declared? name namesp = some d ∧ s.Admits name d) ∧
    (s.exposing = .all →
      (∀ name namesp, namesp ≠ .constructor →
        s.offered? name namesp = s.declared? name namesp) ∧
      ((∀ name, s.offered? name .constructor = s.declared? name .constructor) ↔
        s.OwnersNamed)) := by
  have view : ∀ name namesp d, s.offered? name namesp = some d ↔
      s.declared? name namesp = some d ∧ s.Admits name d := by
    intro name namesp d
    rw [u.offered?_eq_some_iff, u.declared?_eq_some_iff]
  have agree_iff : ∀ name namesp, s.offered? name namesp = s.declared? name namesp ↔
      ∀ d, (name, d) ∈ s.declarations namesp → s.Admits name d := by
    intro name namesp
    simp only [Option.ext_iff, view, u.declared?_eq_some_iff, and_iff_left_iff_imp]
  refine ⟨view, fun hall => ⟨fun name namesp hne => ?_, ?_⟩⟩
  · refine (agree_iff name namesp).2 fun d h => admits_of_all hall h fun hk => ?_
    have hkind := kind_of_mem_declarations h
    cases namesp <;> simp_all
  · rw [← admits_constructors_iff_ownersNamed hall]
    exact forall_congr' fun name => agree_iff name .constructor

end Source

/-! ## A file to look at -/

namespace Sample

def shapesNodes : Array TreeNode :=
  #[ ⟨"file", true, none, 0, 89, none⟩,
     ⟨"module_declaration", true, some "moduleDeclaration", 0, 27, some 0⟩,
     ⟨"module", true, none, 0, 6, some 1⟩,
     ⟨"upper_case_qid", true, some "name", 7, 13, some 1⟩,
     ⟨"upper_case_identifier", true, none, 7, 13, some 3⟩,
     ⟨"exposing_list", true, some "exposing", 14, 27, some 1⟩,
     ⟨"exposing", true, none, 14, 22, some 5⟩,
     ⟨"(", false, none, 23, 24, some 5⟩,
     ⟨"double_dot", true, some "doubleDot", 24, 26, some 5⟩,
     ⟨")", false, none, 26, 27, some 5⟩,
     ⟨"type_alias_declaration", true, none, 29, 63, some 0⟩,
     ⟨"type", true, none, 29, 33, some 10⟩,
     ⟨"alias", true, none, 34, 39, some 10⟩,
     ⟨"upper_case_identifier", true, some "name", 40, 45, some 10⟩,
     ⟨"eq", true, none, 46, 47, some 10⟩,
     ⟨"type_expression", true, some "typeExpression", 52, 63, some 10⟩,
     ⟨"record_type", true, some "part", 52, 63, some 15⟩,
     ⟨"\x7b", false, none, 52, 53, some 16⟩,
     ⟨"field_type", true, some "fieldType", 54, 61, some 16⟩,
     ⟨"lower_case_identifier", true, some "name", 54, 55, some 18⟩,
     ⟨"colon", true, none, 56, 57, some 18⟩,
     ⟨"type_expression", true, some "typeExpression", 58, 61, some 18⟩,
     ⟨"type_ref", true, some "part", 58, 61, some 21⟩,
     ⟨"upper_case_qid", true, none, 58, 61, some 22⟩,
     ⟨"upper_case_identifier", true, none, 58, 61, some 23⟩,
     ⟨"\x7d", false, none, 62, 63, some 16⟩,
     ⟨"type_declaration", true, none, 65, 88, some 0⟩,
     ⟨"type", true, none, 65, 69, some 26⟩,
     ⟨"upper_case_identifier", true, some "name", 70, 75, some 26⟩,
     ⟨"eq", true, none, 80, 81, some 26⟩,
     ⟨"union_variant", true, some "unionVariant", 82, 88, some 26⟩,
     ⟨"upper_case_identifier", true, some "name", 82, 88, some 30⟩ ]

/-- A module with an alias, a type and a wildcard. -/
def shapes : Source where
  file := ⟨"file:///src/Shapes.elm"⟩
  text :=
    ("module Shapes exposing (..)\n\ntype alias Point =\n    \x7b x : Int \x7d\n\n"
      ++ "type Shape\n    = Circle\n").toList
  tree := ⟨shapesNodes, Tree.subtreeEnds shapesNodes, [], by decide +kernel⟩
  writeable := true
  isDraft := false

theorem offered?_iff_declared?_shapes :
    shapes.Unambiguous ∧ shapes.exposing = .all ∧ shapes.OwnersNamed ∧
      ∀ name namesp, shapes.offered? name namesp = shapes.declared? name namesp := by
  have u : shapes.Unambiguous := ⟨by decide +kernel, by decide +kernel, by decide +kernel⟩
  have hall : shapes.exposing = .all := by decide +kernel
  have howners : shapes.OwnersNamed := by decide +kernel
  refine ⟨u, hall, howners, fun name namesp => ?_⟩
  obtain ⟨hothers, hconstructors⟩ := (Source.offered?_iff_declared? shapes u).2 hall
  by_cases hns : namesp = .constructor
  · rw [hns]
    exact hconstructors.2 howners name
  · exact hothers name namesp hns

end Sample
end ElmScope
