import ElmScope.Proofs.Exports.View
import ElmScope.Proofs.Register.Order
import ElmScope.Proofs.Tree.Chain
/-!
# Names from other modules

Where the answer to a reference comes from when the file does not declare the name itself: from
an import the file receives (`Receives`), through the module the import means, and no further
than the exposing list of that module lets it (`Source.Admits`). An unqualified name also has to
pass the list of the import. `Exposing.Names` says when such a list names a definition.

The list of an import is read twice: before the other module is asked (`mayExpose`) and on the
answer (`admits`). The first reading lets through whatever constructor an item of the list could
carry, and the second looks again at variants only. An alias used as a constructor therefore
passes on the strength of a wildcard that another type carries.

* `imported?_eq_some_iff` — what one import brings, exactly
* `lookupUnqualified?_named` — what an unqualified name means is named by an import, but for
  such an alias
* `lookup?_visible` — no reference reaches what the other module does not expose
-/
namespace ElmScope

/-- The kinds of the top-level declarations that a name of a namespace can mean. -/
def Namespace.kinds : Namespace → List DefinitionKind
  | value => [.function, .port, .operator]
  | type => [.typeAlias, .type]
  | constructor => [.unionConstructor, .typeAlias]
  | module => []

theorem Namespace.ne_unionConstructor_of_mem_kinds {namesp : Namespace} {kind : DefinitionKind}
    (hk : kind ∈ namesp.kinds) (h : namesp ≠ .constructor) : kind ≠ .unionConstructor := by
  rintro rfl
  cases namesp with
  | constructor => contradiction
  | value | type | module => simp [kinds] at hk

theorem ModuleHeader.mem_allImports_iff {header : ModuleHeader} {i : Import} :
    i ∈ header.allImports ↔ i ∈ header.imports ∨
      i ∈ defaultImports ∧ ∀ j ∈ header.imports, j.moduleName ≠ i.moduleName := by
  simp only [allImports, List.mem_append, List.mem_filter, Bool.not_eq_eq_eq_not, Bool.not_true,
    List.any_eq_false, decide_eq_true_eq]

namespace Source

variable (s : Source)

/-- Whether a source receives an import: it writes the import, or the import is a default one
and the source writes none for that module. -/
def Receives (i : Import) : Prop :=
  i ∈ (ModuleHeader.ofSource s).imports ∨
    i ∈ defaultImports ∧ ∀ j ∈ (ModuleHeader.ofSource s).imports, j.moduleName ≠ i.moduleName

/-- The name declared by the parent of a node. -/
def ownerName? (n : Nat) : Option String := (s.tree.parent? n).bind s.declaredName?

variable {s} {name : String} {namesp : Namespace} {d : Definition} {i : Import} {n t : Nat}

theorem mem_allImports_iff : i ∈ (ModuleHeader.ofSource s).allImports ↔ s.Receives i :=
  ModuleHeader.mem_allImports_iff

/-- The owner of a variant is the type declaration it stands in, unless the parser reports
another parent for it. -/
theorem ownerName?_of_mem_variants (h : n ∈ s.variants t)
    (hregular : s.tree.irregular? .parent n = none) : s.ownerName? n = s.declaredName? t := by
  have hchild : n ∈ s.tree.children t := List.mem_of_mem_filter h
  rw [ownerName?, Tree.parent?_eq_shapeParent? hregular, Tree.shapeParent?_of_mem_children hchild,
    Option.bind_some]

theorem kind_mem_kinds (h : (name, d) ∈ s.declarations namesp) : d.kind ∈ namesp.kinds := by
  have hk := kind_of_mem_declarations h
  cases namesp <;> simp_all [Namespace.kinds]

/-- A declaration goes by the name it is listed under. -/
theorem name?_of_mem_declarations (h : (name, d) ∈ s.declarations namesp) :
    d.name? = some name := by
  have hs := source_eq_of_mem_declarations h
  have hfunction : (s.functionName? d.node).map s.textOf = some name → d.kind = .function →
      d.name? = some name := by
    intro hname hk
    obtain ⟨f, hf, rfl⟩ := Option.map_eq_some_iff.1 hname
    simp [Definition.name?, Definition.nameNode?, hk, hs, hf]
  have hplain : s.declaredName? d.node = some name →
      d.kind = .port ∨ d.kind = .typeAlias ∨ d.kind = .type ∨ d.kind = .unionConstructor →
      d.name? = some name := by
    intro hname hk
    rw [← hname, ← hs]
    rcases hk with hk | hk | hk | hk <;> simp [Definition.name?, Definition.nameNode?, hk] <;> rfl
  have hoperator : s.operatorName? d.node = some name → d.kind = .operator →
      d.name? = some name := by
    intro hname hk
    rw [← hname, ← hs]
    simp only [Definition.name?, Definition.nameNode?, hk]
    rfl
  have hcases := (mem_declarations_cases h).2
  cases namesp with
  | value =>
    rcases hcases with ⟨hk, hn⟩ | ⟨hk, hn⟩ | ⟨hk, hn⟩
    · exact hfunction hn hk
    · exact hplain hn (.inl hk)
    · exact hoperator hn hk
  | type => exact hplain hcases.2 (.inr (hcases.1.imp id .inl))
  | constructor => exact hplain hcases.2 (.inr (hcases.1.elim (.inr ∘ .inr) .inl))
  | module => exact hcases.elim

end Source

/-! ## What the list of an import names -/

namespace Exposing

variable (exposing : Exposing) (name : String) (d : Definition)

/-- Whether the list names a definition under a name of a namespace. A variant is named along
with the type that owns it; an alias used as a constructor is named as the alias it is. -/
def Names : Namespace → Prop
  | .value => exposing.exposes name = true
  | .type => exposing.exposesType name = true
  | .constructor =>
    match d.kind with
    | .unionConstructor =>
      ∃ owner, d.source.ownerName? d.node = some owner ∧
        exposing.exposesConstructor owner name = true
    | _ => exposing.exposesType name = true
  | .module => False

/-- Whether an item of the list carries a constructor of a name, whatever its type. -/
def Carries : Prop :=
  ∃ item ∈ exposing.items, ∃ c, item.constructors = some c ∧ c.contains name = true

variable {exposing name d} {namesp : Namespace}

theorem mayExpose_constructor_iff : exposing.mayExpose name .constructor = true ↔
    exposing.exposesType name = true ∨ exposing.Carries name := by
  rw [mayExpose, Bool.or_eq_true, Bool.or_eq_true]
  have hcarries : (exposing.items.any fun e => e.constructors.any fun c => c.contains name) =
      true ↔ exposing.Carries name := by
    simp only [List.any_eq_true, Option.any_eq_true, Carries]
  have hall : exposing.isAll = true → exposing.exposesType name = true := by
    intro h
    rw [exposesType, h, Bool.true_or]
  rw [hcarries, or_iff_right_of_imp hall]

theorem admits_of_kind_ne (h : d.kind ≠ .unionConstructor) : exposing.admits name d = true := by
  simp [admits, h]

theorem names_constructor_of_kind_ne (h : d.kind ≠ .unionConstructor) :
    exposing.Names name d .constructor ↔ exposing.exposesType name = true := by
  rw [Names]
  split
  · contradiction
  · exact Iff.rfl

theorem admits_iff_of_variant (h : d.kind = .unionConstructor) :
    exposing.admits name d = true ↔ exposing.Names name d .constructor := by
  simp only [admits, Names, h, if_true, Option.any_eq_true]
  exact Iff.rfl

/-- A list that lets a constructor of a type through carries it, or holds everything. -/
theorem mayExpose_of_exposesConstructor {owner : String}
    (h : exposing.exposesConstructor owner name = true) :
    exposing.mayExpose name .constructor = true := by
  rw [mayExpose_constructor_iff]
  rw [exposesConstructor, Bool.or_eq_true, Option.any_eq_true] at h
  rcases h with hall | ⟨c, hc, hname⟩
  · left
    simp [exposesType, hall]
  · right
    obtain ⟨item, hitem, hcs⟩ := Option.bind_eq_some_iff.1 hc
    exact ⟨item, List.mem_of_find?_eq_some hitem, c, hcs, hname⟩

/-- The two readings of a list let a declaration of the namespace through when the list names
it, or when it is an alias sought as a constructor of a name that the list carries. -/
theorem mayExpose_and_admits_iff (hk : d.kind ∈ namesp.kinds) :
    exposing.mayExpose name namesp = true ∧ exposing.admits name d = true ↔
      exposing.Names name d namesp ∨
        namesp = .constructor ∧ d.kind = .typeAlias ∧ exposing.Carries name := by
  cases namesp with
  | module => exact absurd hk List.not_mem_nil
  | value | type =>
    have hne := Namespace.ne_unionConstructor_of_mem_kinds hk (by decide)
    simp [mayExpose, Names, admits_of_kind_ne hne]
  | constructor =>
    have hk : d.kind = .unionConstructor ∨ d.kind = .typeAlias := by
      simpa [Namespace.kinds] using hk
    rcases hk with hk | hk
    · rw [admits_iff_of_variant hk]
      simp only [hk, reduceCtorEq, false_and, and_false, or_false, and_iff_right_iff_imp]
      intro hnames
      simp only [Names, hk] at hnames
      obtain ⟨owner, -, h⟩ := hnames
      exact mayExpose_of_exposesConstructor h
    · have hne : d.kind ≠ .unionConstructor := by simp [hk]
      rw [mayExpose_constructor_iff, names_constructor_of_kind_ne hne]
      simp [admits_of_kind_ne hne, hk]

end Exposing

/-! ## Looking through the imports -/

namespace Workspace

/-- The header a source is looked up with: the one that the workspace has for its file, if it has
one, and its own otherwise. -/
def headerOf (w : Workspace) (s : Source) : ModuleHeader :=
  (w.header? s.file).getD (ModuleHeader.ofSource s)

variable {w : Workspace} {changes : List Change} {s : Source} {r : Reference} {i : Import}
  {name : String} {namesp : Namespace} {d : Definition} {f : FileId}

/-- A file of the workspace is looked up with its own header. -/
theorem Orderly.headerOf_eq (o : Orderly changes w) (hs : w.source? f = some s) :
    w.headerOf s = ModuleHeader.ofSource s := by
  obtain ⟨e, he, rfl⟩ := Option.map_eq_some_iff.1 hs
  obtain ⟨hfile, hheader⟩ := o.entries f e he
  rw [headerOf, header?, hfile, he, Option.map_some, hheader, Option.getD_some]

theorem mem_importsOf_headerOf_iff : i ∈ w.importsOf s ↔ i ∈ (w.headerOf s).imports ∨
    i ∈ defaultImports ∧ ∀ j ∈ (w.headerOf s).imports, j.moduleName ≠ i.moduleName :=
  ModuleHeader.mem_allImports_iff

/-- The imports a file of the workspace is looked up with are those it receives. -/
theorem Orderly.mem_importsOf_iff (o : Orderly changes w) (hs : w.source? f = some s) :
    i ∈ w.importsOf s ↔ s.Receives i := by
  rw [mem_importsOf_headerOf_iff, o.headerOf_eq hs, Source.Receives]

theorem module_offers_iff : ((w.module? i.moduleName).bind fun t => t.offered? name namesp) =
    some d ↔ w.module? i.moduleName = some d.source ∧ d.source.offered? name namesp = some d := by
  rw [Option.bind_eq_some_iff]
  constructor
  · rintro ⟨t, ht, hd⟩
    obtain rfl := Source.source_eq_of_mem_declarations (Source.offered?_admitted hd).1
    exact ⟨ht, hd⟩
  · rintro ⟨ht, hd⟩
    exact ⟨d.source, ht, hd⟩

/-- What an import brings into scope: what its module offers and its list names, and the aliases
that its list is taken to carry. -/
theorem imported?_eq_some_iff : w.imported? i name namesp = some d ↔
    w.module? i.moduleName = some d.source ∧ d.source.offered? name namesp = some d ∧
      (i.exposing.Names name d namesp ∨
        namesp = .constructor ∧ d.kind = .typeAlias ∧ i.exposing.Carries name) := by
  have hfilter : ((w.module? i.moduleName).bind fun t =>
      (t.offered? name namesp).filter (i.exposing.admits name)) = some d ↔
      (w.module? i.moduleName = some d.source ∧ d.source.offered? name namesp = some d) ∧
        i.exposing.admits name d = true := by
    rw [← module_offers_iff]
    simp only [Option.bind_eq_some_iff, Option.filter_eq_some_iff]
    constructor
    · rintro ⟨t, ht, hd, hadmits⟩
      exact ⟨⟨t, ht, hd⟩, hadmits⟩
    · rintro ⟨⟨t, ht, hd⟩, hadmits⟩
      exact ⟨t, ht, hd, hadmits⟩
  rw [imported?, Option.ite_none_right_eq_some, hfilter, and_left_comm, and_assoc]
  refine and_congr_right fun _ => and_congr_right fun hd => ?_
  exact Exposing.mayExpose_and_admits_iff (Source.kind_mem_kinds (Source.offered?_admitted hd).1)

theorem exists_imported?_of_lookupUnqualified? (hlocal : s.declared? name namesp ≠ some d)
    (h : w.lookupUnqualified? s name namesp = some d) :
    ∃ i ∈ w.importsOf s, w.imported? i name namesp = some d := by
  rw [lookupUnqualified?, Option.or_eq_some_iff] at h
  rcases h with h | ⟨-, h⟩
  · exact absurd h hlocal
  · exact List.exists_of_findSome?_eq_some h

theorem lookup?_of_ne_module (hns : r.namesp ≠ .module) : w.lookup? s r =
    match r.qualifier? with
    | some q => w.lookupQualified? s q r.name r.namesp
    | none => w.lookupUnqualified? s r.name r.namesp := by
  obtain ⟨qualifier?, name, namesp⟩ := r
  cases namesp with
  | module => contradiction
  | value | type | constructor => cases qualifier? <;> rfl

/-- Whether an import that a source receives means the module in `t`. -/
def Links (w : Workspace) (s : Source) (i : Import) (t : Source) : Prop :=
  s.Receives i ∧ w.module? i.moduleName = some t

/-- Whether an alias passes as a constructor without being named: an import of its module
carries constructors of the name, and no import of its module names the alias. -/
def Passes (w : Workspace) (s : Source) (name : String) (d : Definition) : Prop :=
  d.kind = .typeAlias ∧ (∃ i, w.Links s i d.source ∧ i.exposing.Carries name) ∧
    ∀ i, w.Links s i d.source → i.exposing.exposesType name = false

/-- What stands behind an answer to a reference, other than a declaration of the file itself: the
module of an import under the written qualifier, which offers the answer. -/
theorem Orderly.exists_offer (o : Orderly changes w) (hs : w.source? f = some s)
    (hns : r.namesp ≠ .module)
    (hlocal : ¬(r.qualifier? = none ∧ s.declared? r.name r.namesp = some d))
    (h : w.lookup? s r = some d) :
    ∃ i, w.Links s i d.source ∧ (∀ q, r.qualifier? = some q → i.qualifier = q) ∧
      d.source.offered? r.name r.namesp = some d := by
  rw [lookup?_of_ne_module hns] at h
  cases hq : r.qualifier? with
  | some q =>
    simp only [hq, lookupQualified?] at h
    obtain ⟨i, hi, hoffer⟩ := List.exists_of_findSome?_eq_some h
    rw [List.mem_filter, decide_eq_true_eq, o.mem_importsOf_iff hs] at hi
    obtain ⟨ht, hd⟩ := module_offers_iff.1 hoffer
    refine ⟨i, ⟨hi.1, ht⟩, ?_, hd⟩
    rintro _ ⟨rfl⟩
    exact hi.2
  | none =>
    simp only [hq] at h
    have hne : s.declared? r.name r.namesp ≠ some d := fun hd => hlocal ⟨hq, hd⟩
    obtain ⟨i, hi, himported⟩ := exists_imported?_of_lookupUnqualified? hne h
    obtain ⟨ht, hd, -⟩ := imported?_eq_some_iff.1 himported
    exact ⟨i, ⟨(o.mem_importsOf_iff hs).1 hi, ht⟩, nofun, hd⟩

/-- An unqualified name that is not declared in the file is named by an import of the module
that answers, or the answer is an alias that passes as a constructor. -/
theorem Orderly.named_iff_not_passes (o : Orderly changes w) (hs : w.source? f = some s)
    (hlocal : s.declared? name namesp = none) (h : w.lookupUnqualified? s name namesp = some d) :
    (∃ i, w.Links s i d.source ∧ i.exposing.Names name d namesp) ↔
      ¬(namesp = .constructor ∧ w.Passes s name d) := by
  obtain ⟨i, hi, himported⟩ := exists_imported?_of_lookupUnqualified? (by simp [hlocal]) h
  obtain ⟨ht, -, hreading⟩ := imported?_eq_some_iff.1 himported
  have hlink : w.Links s i d.source := ⟨(o.mem_importsOf_iff hs).1 hi, ht⟩
  constructor
  · rintro ⟨j, hj, hnames⟩ ⟨rfl, hk, -, hunnamed⟩
    have hkind : d.kind ≠ .unionConstructor := by simp [hk]
    rw [Exposing.names_constructor_of_kind_ne hkind, hunnamed j hj] at hnames
    exact nomatch hnames
  · intro hno
    rcases hreading with hnames | ⟨rfl, hk, hcarries⟩
    · exact ⟨i, hlink, hnames⟩
    · -- The alias was carried here; that it did not pass means that some import names it.
      by_contra hnone
      refine hno ⟨rfl, hk, ⟨i, hlink, hcarries⟩, fun j hj => ?_⟩
      have hkind : d.kind ≠ .unionConstructor := by simp [hk]
      rw [← Bool.not_eq_true, ← Exposing.names_constructor_of_kind_ne hkind]
      exact fun hnames => hnone ⟨j, hj, hnames⟩

end Workspace

namespace Sample

def importerNodes : Array TreeNode :=
  #[ ⟨"file", true, none, 0, 62, none⟩,
     ⟨"module_declaration", true, some "moduleDeclaration", 0, 25, some 0⟩,
     ⟨"module", true, none, 0, 6, some 1⟩,
     ⟨"upper_case_qid", true, some "name", 7, 11, some 1⟩,
     ⟨"upper_case_identifier", true, none, 7, 11, some 3⟩,
     ⟨"exposing_list", true, some "exposing", 12, 25, some 1⟩,
     ⟨"exposing", true, none, 12, 20, some 5⟩,
     ⟨"(", false, none, 21, 22, some 5⟩,
     ⟨"double_dot", true, some "doubleDot", 22, 24, some 5⟩,
     ⟨")", false, none, 24, 25, some 5⟩,
     ⟨"import_clause", true, none, 27, 61, some 0⟩,
     ⟨"import", true, none, 27, 33, some 10⟩,
     ⟨"upper_case_qid", true, some "moduleName", 34, 40, some 10⟩,
     ⟨"upper_case_identifier", true, none, 34, 40, some 12⟩,
     ⟨"exposing_list", true, some "exposing", 41, 61, some 10⟩,
     ⟨"exposing", true, none, 41, 49, some 14⟩,
     ⟨"(", false, none, 50, 51, some 14⟩,
     ⟨"exposed_type", true, none, 51, 60, some 14⟩,
     ⟨"upper_case_identifier", true, none, 51, 56, some 17⟩,
     ⟨"exposed_union_constructors", true, none, 56, 60, some 17⟩,
     ⟨"(", false, none, 56, 57, some 19⟩,
     ⟨"double_dot", true, none, 57, 59, some 19⟩,
     ⟨")", false, none, 59, 60, some 19⟩,
     ⟨")", false, none, 60, 61, some 14⟩ ]

/-- A module that imports a type of `shapes` with its constructors. -/
def importer : Source where
  file := ⟨"file:///src/Main.elm"⟩
  text := "module Main exposing (..)\n\nimport Shapes exposing (Shape(..))\n".toList
  tree := ⟨importerNodes, Tree.subtreeEnds importerNodes, [], by decide +kernel⟩
  writeable := true
  isDraft := false

/-- Both modules are installed. -/
def installed : List Workspace.Change := [.install shapes false, .install importer false]

theorem source?_installed : (Workspace.run installed).source? importer.file = some importer :=
  Workspace.source?_install_self

theorem declared?_importer :
    ∀ name ∈ ["Circle", "Point"], importer.declared? name .constructor = none := by
  decide +kernel

/-- The variant of `shapes` is found through the wildcard of its type. -/
theorem lookupUnqualified?_circle :
    (Workspace.run installed).lookupUnqualified? importer "Circle" .constructor =
      some ⟨30, shapes, .unionConstructor⟩ := by
  decide +kernel

/-- The alias of `shapes` passes as a constructor through the same wildcard. -/
theorem lookupUnqualified?_point :
    (Workspace.run installed).lookupUnqualified? importer "Point" .constructor =
      some ⟨10, shapes, .typeAlias⟩ := by
  decide +kernel

/-- The variant under its qualifier. -/
theorem lookupQualified?_circle :
    (Workspace.run installed).lookupQualified? importer "Shapes" "Circle" .constructor =
      some ⟨30, shapes, .unionConstructor⟩ := by
  decide +kernel

end Sample

namespace Workspace

/-- **Unqualified names are those that imports name, and the aliases that pass as constructors.**
Whenever a file of a workspace does not declare a name that is sought in it unqualified, and the
name has a meaning, some import of the file names the meaning in its list, unless it is an alias
that passes as a constructor; of those, no list names any. The type under which a list names a
variant is the one the variant stands in. -/
theorem lookupUnqualified?_named (changes : List Change) {f : FileId} {s : Source} {name : String}
    {namesp : Namespace} {d : Definition} (hs : (run changes).source? f = some s)
    (hlocal : s.declared? name namesp = none)
    (h : (run changes).lookupUnqualified? s name namesp = some d) :
    ((∃ i, (run changes).Links s i d.source ∧ i.exposing.Names name d namesp) ↔
      ¬(namesp = .constructor ∧ (run changes).Passes s name d)) ∧
    (d.kind = .unionConstructor → d.source.tree.irregular? .parent d.node = none →
      ∃ t ∈ d.source.typeDeclarations, d.node ∈ d.source.variants t ∧
        d.source.ownerName? d.node = d.source.declaredName? t) := by
  have o := orderly_run changes
  refine ⟨o.named_iff_not_passes hs hlocal h, fun hk hregular => ?_⟩
  obtain ⟨i, -, himported⟩ := exists_imported?_of_lookupUnqualified? (by simp [hlocal]) h
  obtain ⟨-, hd, -⟩ := imported?_eq_some_iff.1 himported
  have hadmits := (Source.offered?_admitted hd).2
  simp only [Source.Admits, hk] at hadmits
  obtain ⟨t, ht, hv, -⟩ := hadmits
  exact ⟨t, ht, hv, Source.ownerName?_of_mem_variants hv hregular⟩

/-- The variant of `shapes` is found through its type. -/
theorem lookupUnqualified?_named_circle :
    (run Sample.installed).lookupUnqualified? Sample.importer "Circle" .constructor =
        some ⟨30, Sample.shapes, .unionConstructor⟩ ∧
      ∃ i, (run Sample.installed).Links Sample.importer i Sample.shapes ∧
        i.exposing.Names "Circle" ⟨30, Sample.shapes, .unionConstructor⟩ .constructor := by
  have hlocal := Sample.declared?_importer "Circle" (by simp)
  have h := Sample.lookupUnqualified?_circle
  refine ⟨h, (lookupUnqualified?_named Sample.installed Sample.source?_installed hlocal h).1.2 ?_⟩
  rintro ⟨-, hk, -⟩
  exact nomatch hk

/-- The alias of `shapes` is found as a constructor although no import names it. -/
theorem not_forall_lookupUnqualified?_named :
    ¬∀ (changes : List Change) (f : FileId) (s : Source) (name : String) (namesp : Namespace)
      (d : Definition), (run changes).source? f = some s → namesp ≠ .module →
      s.declared? name namesp = none →
      (run changes).lookupUnqualified? s name namesp = some d →
      ∃ i, (run changes).Links s i d.source ∧ i.exposing.Names name d namesp := by
  intro hall
  have hlocal := Sample.declared?_importer "Point" (by simp)
  obtain ⟨i, ⟨hi, hmodule⟩, hnames⟩ := hall Sample.installed _ _ _ _ _ Sample.source?_installed
    (by decide) hlocal Sample.lookupUnqualified?_point
  have hunnamed : ∀ i ∈ (run Sample.installed).importsOf Sample.importer,
      ((run Sample.installed).module? i.moduleName).isSome →
        ¬i.exposing.exposesType "Point" = true := by
    decide +kernel
  have o := orderly_run Sample.installed
  refine hunnamed i ((o.mem_importsOf_iff Sample.source?_installed).2 hi) ?_ hnames
  rw [hmodule]
  rfl

/-- **No reference reaches what another module hides.** Whenever a reference in a file of a
workspace means something other than a declaration of that file, it means a declaration of a
module that the file imports under the written qualifier, one that declares the name in question
in the namespace in question, and the exposing list of its own module admits it. -/
theorem lookup?_visible (changes : List Change) {f : FileId} {s : Source} {r : Reference}
    {d : Definition} (hs : (run changes).source? f = some s) (hns : r.namesp ≠ .module)
    (hlocal : ¬(r.qualifier? = none ∧ s.declared? r.name r.namesp = some d))
    (h : (run changes).lookup? s r = some d) :
    ∃ i, (run changes).Links s i d.source ∧
      (∀ q, r.qualifier? = some q → i.qualifier = q ∧ ∀ a, i.alias? = some a → a = q) ∧
      d.name? = some r.name ∧ d.kind ∈ r.namesp.kinds ∧
      (r.name, d) ∈ d.source.declarations r.namesp ∧ d.source.Admits r.name d := by
  obtain ⟨i, hlink, hqualifier, hoffer⟩ := (orderly_run changes).exists_offer hs hns hlocal h
  obtain ⟨hd, hadmits⟩ := Source.offered?_admitted hoffer
  refine ⟨i, hlink, fun q hq => ⟨hqualifier q hq, fun a ha => ?_⟩,
    Source.name?_of_mem_declarations hd, Source.kind_mem_kinds hd, hd, hadmits⟩
  rw [← hqualifier q hq, Import.qualifier, ha]
  rfl

/-- The variant of `shapes` under its qualifier. -/
theorem lookup?_visible_circle :
    (run Sample.installed).lookup? Sample.importer ⟨some "Shapes", "Circle", .constructor⟩ =
        some ⟨30, Sample.shapes, .unionConstructor⟩ ∧
      ∃ i, (run Sample.installed).Links Sample.importer i Sample.shapes ∧
        i.qualifier = "Shapes" ∧
        Sample.shapes.Admits "Circle" ⟨30, Sample.shapes, .unionConstructor⟩ := by
  have h : (run Sample.installed).lookup? Sample.importer ⟨some "Shapes", "Circle", .constructor⟩ =
      some ⟨30, Sample.shapes, .unionConstructor⟩ := Sample.lookupQualified?_circle
  obtain ⟨i, hlink, hqualifier, -, -, -, hadmits⟩ :=
    lookup?_visible Sample.installed Sample.source?_installed (by decide) (by simp) h
  exact ⟨h, i, hlink, (hqualifier "Shapes" rfl).1, hadmits⟩

end Workspace
end ElmScope
