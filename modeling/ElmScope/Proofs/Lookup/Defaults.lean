import ElmScope.Proofs.Lookup.Imports
/-!
# Default imports

Every source receives the default imports, apart from those of the modules that it imports in
writing. A written import takes the place of the default one of its module as a whole: what came by
default from that module comes no longer, unless the written list names it again. Apart from that,
written imports only add names.

* `isSome_lookupUnqualified?_iff` — when an unqualified name has a meaning
* `importsOf_subset` — more written imports, none of them in the place of a default one
* `lookupUnqualified?_default` — which names of the default imports have a meaning
-/
namespace ElmScope
namespace Workspace

/-- Whether an import brings a definition into scope under a name: its module offers the definition
and its list names it. -/
def Brings (w : Workspace) (i : Import) (name : String) (namesp : Namespace) (d : Definition) :
    Prop :=
  w.module? i.moduleName = some d.source ∧ d.source.offered? name namesp = some d ∧
    i.exposing.Names name d namesp

/-- Whether a source is looked up with a written import of a module. -/
def Writes (w : Workspace) (s : Source) (moduleName : String) : Prop :=
  ∃ j ∈ (w.headerOf s).imports, j.moduleName = moduleName

variable {w : Workspace} {s s' : Source} {i : Import} {name : String} {namesp : Namespace}
  {d : Definition}

theorem Brings.imported? (h : w.Brings i name namesp d) : w.imported? i name namesp = some d :=
  imported?_eq_some_iff.2 ⟨h.1, h.2.1, .inl h.2.2⟩

/-- An unqualified name has a meaning if it is declared or an import brings something under it. -/
theorem isSome_lookupUnqualified?_iff : (w.lookupUnqualified? s name namesp).isSome ↔
    (s.declared? name namesp).isSome ∨
      ∃ i ∈ w.importsOf s, (w.imported? i name namesp).isSome := by
  rw [lookupUnqualified?, Option.isSome_or, Bool.or_eq_true, List.findSome?_isSome_iff]

/-- A default import is received unless its module is imported in writing. -/
theorem mem_importsOf_of_not_writes (hi : i ∈ defaultImports) (h : ¬w.Writes s i.moduleName) :
    i ∈ w.importsOf s :=
  mem_importsOf_headerOf_iff.2 (.inr ⟨hi, fun j hj heq => h ⟨j, hj, heq⟩⟩)

/-- A received import is a written one, or its module is not imported in writing. -/
theorem mem_imports_or_not_writes (h : i ∈ w.importsOf s) :
    i ∈ (w.headerOf s).imports ∨ ¬w.Writes s i.moduleName := by
  refine (mem_importsOf_headerOf_iff.1 h).imp_right fun ⟨_, hno⟩ => ?_
  rintro ⟨j, hj, heq⟩
  exact hno j hj heq

/-- With more written imports, none of them in the place of a default one, a source receives all
that it received. -/
theorem importsOf_subset (hmore : (w.headerOf s).imports ⊆ (w.headerOf s').imports)
    (hnew : ∀ j ∈ (w.headerOf s').imports, j ∈ (w.headerOf s).imports ∨
      ∀ i ∈ defaultImports, j.moduleName ≠ i.moduleName) :
    w.importsOf s ⊆ w.importsOf s' := by
  intro i hi
  rw [mem_importsOf_headerOf_iff] at hi ⊢
  rcases hi with hi | ⟨hi, hno⟩
  · exact .inl (hmore hi)
  · refine .inr ⟨hi, fun j hj => ?_⟩
    rcases hnew j hj with hj | hj
    · exact hno j hj
    · exact hj i hi

/-- **A default import reaches every source that does not import its module in writing.** Whatever
else the source imports, a name that the list of the default import names and its module offers has a
meaning there. Where the module is imported in writing the default import brings nothing: the name
has a meaning exactly if it is declared, or a written import or an import of another module brings
it. So written imports only add names, as long as they are not of modules imported by default. The
written imports are those of the header that the source is looked up with, which is its own if it is
installed (`Orderly.headerOf_eq`). -/
theorem lookupUnqualified?_default (w : Workspace) (s : Source) (hi : i ∈ defaultImports)
    (hbrings : w.Brings i name namesp d) :
    ((w.lookupUnqualified? s name namesp).isSome ↔
      ¬w.Writes s i.moduleName ∨ (s.declared? name namesp).isSome ∨
        ∃ j ∈ w.importsOf s, (j ∈ (w.headerOf s).imports ∨ j.moduleName ≠ i.moduleName) ∧
          (w.imported? j name namesp).isSome) ∧
    ∀ s', (w.headerOf s).imports ⊆ (w.headerOf s').imports →
      (∀ j ∈ (w.headerOf s').imports, j ∈ (w.headerOf s).imports ∨
        ∀ k ∈ defaultImports, j.moduleName ≠ k.moduleName) →
      ∀ name namesp, ((s.declared? name namesp).isSome → (s'.declared? name namesp).isSome) →
        (w.lookupUnqualified? s name namesp).isSome →
          (w.lookupUnqualified? s' name namesp).isSome := by
  refine ⟨⟨fun h => ?_, fun h => ?_⟩, fun s' hmore hnew name namesp hdeclared h => ?_⟩
  · rcases isSome_lookupUnqualified?_iff.1 h with h | ⟨j, hj, h⟩
    · exact .inr (.inl h)
    · by_cases hj' : j ∈ (w.headerOf s).imports ∨ j.moduleName ≠ i.moduleName
      · exact .inr (.inr ⟨j, hj, hj', h⟩)
      · -- What answers is the default import of the module itself.
        rw [not_or, not_not] at hj'
        exact .inl (hj'.2 ▸ (mem_imports_or_not_writes hj).resolve_left hj'.1)
  · rw [isSome_lookupUnqualified?_iff]
    rcases h with h | h | ⟨j, hj, -, h⟩
    · refine .inr ⟨i, mem_importsOf_of_not_writes hi h, ?_⟩
      rw [hbrings.imported?]
      rfl
    · exact .inl h
    · exact .inr ⟨j, hj, h⟩
  · rw [isSome_lookupUnqualified?_iff] at h ⊢
    refine h.imp hdeclared fun ⟨j, hj, hbrought⟩ => ⟨j, importsOf_subset hmore hnew hj, hbrought⟩

end Workspace

/-! ## Two files to look at -/

namespace Sample

def maybeNodes : Array TreeNode :=
  #[ ⟨"file", true, none, 0, 68, none⟩,
     ⟨"module_declaration", true, some "moduleDeclaration", 0, 26, some 0⟩,
     ⟨"module", true, none, 0, 6, some 1⟩,
     ⟨"upper_case_qid", true, some "name", 7, 12, some 1⟩,
     ⟨"upper_case_identifier", true, none, 7, 12, some 3⟩,
     ⟨"exposing_list", true, some "exposing", 13, 26, some 1⟩,
     ⟨"exposing", true, none, 13, 21, some 5⟩,
     ⟨"(", false, none, 22, 23, some 5⟩,
     ⟨"double_dot", true, some "doubleDot", 23, 25, some 5⟩,
     ⟨")", false, none, 25, 26, some 5⟩,
     ⟨"type_declaration", true, none, 28, 67, some 0⟩,
     ⟨"type", true, none, 28, 32, some 10⟩,
     ⟨"upper_case_identifier", true, some "name", 33, 38, some 10⟩,
     ⟨"lower_type_name", true, some "typeName", 39, 40, some 10⟩,
     ⟨"lower_case_identifier", true, none, 39, 40, some 13⟩,
     ⟨"eq", true, none, 45, 46, some 10⟩,
     ⟨"union_variant", true, some "unionVariant", 47, 53, some 10⟩,
     ⟨"upper_case_identifier", true, some "name", 47, 51, some 16⟩,
     ⟨"type_variable", true, some "part", 52, 53, some 16⟩,
     ⟨"lower_case_identifier", true, none, 52, 53, some 18⟩,
     ⟨"|", false, none, 58, 59, some 10⟩,
     ⟨"union_variant", true, some "unionVariant", 60, 67, some 10⟩,
     ⟨"upper_case_identifier", true, some "name", 60, 67, some 21⟩ ]

/-- A module that is imported by default. -/
def maybe : Source where
  file := ⟨"file:///src/Maybe.elm"⟩
  text := "module Maybe exposing (..)\n\ntype Maybe a\n    = Just a\n    | Nothing\n".toList
  tree := ⟨maybeNodes, Tree.subtreeEnds maybeNodes, [], by decide +kernel⟩
  writeable := true
  isDraft := false

def narrowNodes : Array TreeNode :=
  #[ ⟨"file", true, none, 0, 63, none⟩,
     ⟨"module_declaration", true, some "moduleDeclaration", 0, 25, some 0⟩,
     ⟨"module", true, none, 0, 6, some 1⟩,
     ⟨"upper_case_qid", true, some "name", 7, 11, some 1⟩,
     ⟨"upper_case_identifier", true, none, 7, 11, some 3⟩,
     ⟨"exposing_list", true, some "exposing", 12, 25, some 1⟩,
     ⟨"exposing", true, none, 12, 20, some 5⟩,
     ⟨"(", false, none, 21, 22, some 5⟩,
     ⟨"double_dot", true, some "doubleDot", 22, 24, some 5⟩,
     ⟨")", false, none, 24, 25, some 5⟩,
     ⟨"import_clause", true, none, 27, 62, some 0⟩,
     ⟨"import", true, none, 27, 33, some 10⟩,
     ⟨"upper_case_qid", true, some "moduleName", 34, 39, some 10⟩,
     ⟨"upper_case_identifier", true, none, 34, 39, some 12⟩,
     ⟨"exposing_list", true, some "exposing", 40, 62, some 10⟩,
     ⟨"exposing", true, none, 40, 48, some 14⟩,
     ⟨"(", false, none, 49, 50, some 14⟩,
     ⟨"exposed_value", true, none, 50, 61, some 14⟩,
     ⟨"lower_case_identifier", true, none, 50, 61, some 17⟩,
     ⟨")", false, none, 61, 62, some 14⟩ ]

/-- A module that imports one value of `maybe` in writing. -/
def narrow : Source where
  file := ⟨"file:///src/Main.elm"⟩
  text := "module Main exposing (..)\n\nimport Maybe exposing (withDefault)\n".toList
  tree := ⟨narrowNodes, Tree.subtreeEnds narrowNodes, [], by decide +kernel⟩
  writeable := true
  isDraft := false

/-- The import of `maybe` that every source receives. -/
def maybeImport : Import := ⟨"Maybe", none, .listed [⟨"Maybe", some .all⟩]⟩

theorem mem_defaultImports_maybe : maybeImport ∈ defaultImports := by decide

theorem offered?_just :
    maybe.offered? "Just" .constructor = some ⟨16, maybe, .unionConstructor⟩ := by
  decide +kernel

/-- The module is found beside either of the files that import something. -/
theorem module?_maybe : ∀ s ∈ [importer, narrow],
    (Workspace.run [.install maybe false, .install s false]).module? "Maybe" = some maybe := by
  decide +kernel

end Sample

namespace Workspace

theorem brings_just {w : Workspace} (h : w.module? "Maybe" = some Sample.maybe) :
    w.Brings Sample.maybeImport "Just" .constructor ⟨16, Sample.maybe, .unionConstructor⟩ :=
  ⟨h, Sample.offered?_just, "Maybe", by decide +kernel, rfl⟩

/-- `Just` has a meaning in a file without imports, and still where `Shapes` is imported. -/
theorem lookupUnqualified?_default_just :
    let w := run [.install Sample.maybe false, .install Sample.importer false]
    (w.lookupUnqualified? Sample.shapes "Just" .constructor).isSome ∧
      (w.lookupUnqualified? Sample.importer "Just" .constructor).isSome := by
  intro w
  have hmodule := Sample.module?_maybe Sample.importer (by simp)
  obtain ⟨hiff, hmore⟩ := lookupUnqualified?_default w Sample.shapes
    Sample.mem_defaultImports_maybe (brings_just hmodule)
  have hnone : (w.headerOf Sample.shapes).imports = [] := by decide +kernel
  have hshapes := hiff.2 (.inl (by rintro ⟨j, hj, -⟩; rw [hnone] at hj; exact nomatch hj))
  refine ⟨hshapes, hmore Sample.importer ?_ ?_ "Just" .constructor ?_ hshapes⟩
  · rw [hnone]
    exact List.nil_subset _
  · have hnew : ∀ j ∈ (w.headerOf Sample.importer).imports, ∀ k ∈ defaultImports,
        j.moduleName ≠ k.moduleName := by
      decide +kernel
    exact fun j hj => .inr (hnew j hj)
  · decide +kernel

/-- `Just` has no meaning where a value of its module is imported in writing. -/
theorem not_forall_default_resolves :
    ¬∀ (changes : List Change) (f : FileId) (s : Source) (i : Import) (name : String)
      (namesp : Namespace) (d : Definition), (run changes).source? f = some s →
      i ∈ defaultImports → (run changes).Brings i name namesp d →
      ((run changes).lookupUnqualified? s name namesp).isSome := by
  intro hall
  let changes : List Change := [.install Sample.maybe false, .install Sample.narrow false]
  have hmodule := Sample.module?_maybe Sample.narrow (by simp)
  have hjust := hall changes Sample.narrow.file Sample.narrow _ _ _ _ source?_install_self
    Sample.mem_defaultImports_maybe (brings_just hmodule)
  have hnone : ((run changes).lookupUnqualified? Sample.narrow "Just" .constructor).isNone := by
    decide +kernel
  rw [Option.isNone_iff_eq_none.1 hnone] at hjust
  exact nomatch hjust

end Workspace
end ElmScope
