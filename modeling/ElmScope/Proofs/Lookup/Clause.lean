import ElmScope.Proofs.Lookup.Qualifier
import ElmScope.Proofs.Tree.Within
/-!
# The clause a qualifier leads to

A qualifier of a module that is not in the workspace leads to an import clause. The import was
found by the name it is visible under; the clause is sought once more, by the name of the module
alone, and the first one counts. A file may import one module several times under different names,
and then the first clause need not be the one that the qualifier names: after `import Api as Read`
and `import Api as Write`, both `Read` and `Write` lead to the first of the two.

* `importClauseOf?_eq_some_iff` — the first clause of a module
* `lookupModule?_clause_cases` — what stands behind an answer that is a clause
* `lookupModule?_visible_iff` — when the clause is visible under the qualifier
-/
namespace ElmScope
namespace Source

variable (s : Source)

/-- Whether an import clause imports a module. -/
def ImportsModule (name : String) (clause : Nat) : Prop :=
  (s.importedName? clause).map s.textOf = some name

/-- Whether an import clause is visible under a name: its alias if it has one, the name of its
module if it has none. -/
def VisibleAs (q : String) (clause : Nat) : Prop :=
  (s.importAlias? clause).map s.textOf = some q ∨
    s.importAlias? clause = none ∧ s.ImportsModule q clause

/-- Whether the clauses that import a module begin with one that is visible under `q`: none that
is visible under another name stands before it. -/
def ImportedFirstAs (q name : String) : Prop :=
  ∃ c ∈ s.importClauses, s.VisibleAs q c ∧ s.ImportsModule name c ∧
    ∀ c' ∈ s.importClauses, s.ImportsModule name c' → c' < c → s.VisibleAs q c'

instance (name : String) (clause : Nat) : Decidable (s.ImportsModule name clause) :=
  inferInstanceAs (Decidable (_ = _))

instance (q : String) (clause : Nat) : Decidable (s.VisibleAs q clause) :=
  inferInstanceAs (Decidable (_ ∨ _ ∧ _))

instance (q name : String) : Decidable (s.ImportedFirstAs q name) :=
  inferInstanceAs (Decidable (∃ c ∈ s.importClauses, _))

variable {s} {name q : String} {c n : Nat} {i : Import}

theorem kind_moduleDeclaration? (h : s.moduleDeclaration? = some n) :
    s.tree.kind n = "module_declaration" := by
  simpa using List.find?_some h

/-! ## Clauses and imports -/

/-- The clause of a module is the first one that imports it. -/
theorem importClauseOf?_eq_some_iff : s.importClauseOf? name = some n ↔
    (n ∈ s.importClauses ∧ s.ImportsModule name n) ∧
      ∀ c ∈ s.importClauses, s.ImportsModule name c → n ≤ c := by
  have himports : ∀ c, ((s.importedName? c).any fun m => s.textOf m = name) = true ↔
      s.ImportsModule name c := by
    intro c
    simp [ImportsModule, Option.any_eq_true, Option.map_eq_some_iff]
  rw [importClauseOf?, importClauses, find?_eq_some_iff_least (Tree.pairwise_childrenOf _ _ _)]
  simp only [himports]

/-- An import that is written in a clause is visible as the clause is. -/
theorem visibleAs_of_importOf? (h : ModuleHeader.importOf? s c = some i) :
    s.VisibleAs i.qualifier c ∧ s.ImportsModule i.moduleName c := by
  obtain ⟨m, hm, rfl⟩ := Option.map_eq_some_iff.1 h
  have himports : s.ImportsModule (s.textOf m) c := by simp [ImportsModule, hm]
  refine ⟨?_, himports⟩
  cases halias : s.importAlias? c with
  | none => exact .inr ⟨halias, by simpa [Import.qualifier] using himports⟩
  | some a => exact .inl (by simp [halias, Import.qualifier])

theorem exists_importOf? (hc : c ∈ s.importClauses) (h : s.ImportsModule name c) :
    ∃ i ∈ (ModuleHeader.ofSource s).imports, i.moduleName = name := by
  obtain ⟨m, hm, rfl⟩ := Option.map_eq_some_iff.1 h
  have hi : (ModuleHeader.importOf? s c).map (·.moduleName) = some (s.textOf m) := by
    simp [ModuleHeader.importOf?, hm]
  obtain ⟨i, hi, hname⟩ := Option.map_eq_some_iff.1 hi
  exact ⟨i, List.mem_filterMap.2 ⟨c, hc, hi⟩, hname⟩

/-- A received import of a module that some clause imports is written in a clause. -/
theorem Receives.exists_clause (h : s.Receives i) (hc : c ∈ s.importClauses)
    (himports : s.ImportsModule i.moduleName c) :
    ∃ c' ∈ s.importClauses, s.VisibleAs i.qualifier c' ∧ s.ImportsModule i.moduleName c' := by
  rcases h with hwritten | ⟨-, hno⟩
  · obtain ⟨c', hc', hi⟩ := List.mem_filterMap.1 hwritten
    exact ⟨c', hc', visibleAs_of_importOf? hi⟩
  · -- A default import is received only if no clause imports its module.
    obtain ⟨j, hj, hname⟩ := exists_importOf? hc himports
    exact absurd hname (hno j hj)

/-- The first clause of a module is visible under a name if the clauses of the module begin with
one that is. -/
theorem visibleAs_iff_importedFirstAs (h : s.importClauseOf? name = some n) :
    s.VisibleAs q n ↔ s.ImportedFirstAs q name := by
  obtain ⟨⟨hn, himports⟩, hleast⟩ := importClauseOf?_eq_some_iff.1 h
  constructor
  · intro hvisible
    refine ⟨n, hn, hvisible, himports, fun c' hc' himports' hlt => ?_⟩
    have := hleast c' hc' himports'
    omega
  · rintro ⟨c, hc, hvisible, hcimports, hbefore⟩
    rcases Nat.lt_or_eq_of_le (hleast c hc hcimports) with hlt | rfl
    · exact hbefore n hn himports hlt
    · exact hvisible

end Source

/-! ## Answers that are clauses -/

namespace Workspace

variable {w : Workspace} {s : Source} {q : String} {d : Definition}

/-- Behind an import clause stands an import under the qualifier whose module has no declaration
in the workspace, and the clause is the first one of that module. -/
theorem lookupModule?_clause_cases (h : w.lookupModule? s q = some d) (hd : d.source = s)
    (hclause : s.tree.kind d.node = "import_clause") :
    ∃ i ∈ w.importsOf s, i.qualifier = q ∧ w.declarationOf? i.moduleName = none ∧
      s.importClauseOf? i.moduleName = some d.node := by
  have hdeclaration : ∀ m, s.moduleDeclaration? = some m → d.node ≠ m := by
    rintro m hm rfl
    exact absurd (hclause.symm.trans (Source.kind_moduleDeclaration? hm)) (by decide)
  by_cases hself : s.moduleName? = some q
  · obtain ⟨m, hm, hlookup⟩ := lookupModule?_self (w := w) hself
    obtain rfl := Option.some.inj (hlookup.symm.trans h)
    exact absurd rfl (hdeclaration m hm)
  · rw [lookupModule?_of_ne hself] at h
    obtain ⟨i, hi, hqualified⟩ := List.exists_of_findSome?_eq_some h
    obtain ⟨hi, hq⟩ := List.mem_filter.1 hi
    refine ⟨i, hi, by simpa using hq, ?_⟩
    rcases Option.or_eq_some_iff.1 hqualified with hfound | ⟨hnone, hfound⟩
    · obtain ⟨t, -, hfound⟩ := Option.bind_eq_some_iff.1 hfound
      obtain ⟨m, hm, rfl⟩ := Option.map_eq_some_iff.1 hfound
      obtain rfl : t = s := hd
      exact absurd rfl (hdeclaration m hm)
    · obtain ⟨n, hn, rfl⟩ := Option.map_eq_some_iff.1 hfound
      exact ⟨hnone, hn⟩

/-- **The clause that a qualifier leads to is visible under the qualifier, unless the module is
imported before under another name.** In any workspace, let the answer for a qualifier be an import
clause of the file. It imports a module that the workspace has no declaration for, and it is visible
under the qualifier if and only if the clauses of that module begin with one that is. If the file is
looked up with its own header, as all files of the workspace are, some clause of the module is
visible under the qualifier, so that only an earlier clause can stand in its way. -/
theorem lookupModule?_visible_iff (h : w.lookupModule? s q = some d) (hd : d.source = s)
    (hclause : s.tree.kind d.node = "import_clause") :
    ∃ name, s.ImportsModule name d.node ∧ w.declarationOf? name = none ∧
      (s.VisibleAs q d.node ↔ s.ImportedFirstAs q name) ∧
      (w.headerOf s = ModuleHeader.ofSource s →
        ∃ c ∈ s.importClauses, s.VisibleAs q c ∧ s.ImportsModule name c) := by
  obtain ⟨i, hi, rfl, hnone, hfirst⟩ := lookupModule?_clause_cases h hd hclause
  obtain ⟨⟨hmem, himports⟩, -⟩ := Source.importClauseOf?_eq_some_iff.1 hfirst
  refine ⟨i.moduleName, himports, hnone, Source.visibleAs_iff_importedFirstAs hfirst, ?_⟩
  intro hheader
  have hreceives : s.Receives i := by
    rw [mem_importsOf_headerOf_iff, hheader] at hi
    exact hi
  exact hreceives.exists_clause hmem himports

end Workspace

/-! ## One module under two names -/

namespace Sample

def pageNodes : Array TreeNode :=
  #[ ⟨"file", true, none, 0, 66, none⟩,
     ⟨"module_declaration", true, some "moduleDeclaration", 0, 25, some 0⟩,
     ⟨"module", true, none, 0, 6, some 1⟩,
     ⟨"upper_case_qid", true, some "name", 7, 11, some 1⟩,
     ⟨"upper_case_identifier", true, none, 7, 11, some 3⟩,
     ⟨"exposing_list", true, some "exposing", 12, 25, some 1⟩,
     ⟨"exposing", true, none, 12, 20, some 5⟩,
     ⟨"(", false, none, 21, 22, some 5⟩,
     ⟨"double_dot", true, some "doubleDot", 22, 24, some 5⟩,
     ⟨")", false, none, 24, 25, some 5⟩,
     ⟨"import_clause", true, none, 27, 45, some 0⟩,
     ⟨"import", true, none, 27, 33, some 10⟩,
     ⟨"upper_case_qid", true, some "moduleName", 34, 37, some 10⟩,
     ⟨"upper_case_identifier", true, none, 34, 37, some 12⟩,
     ⟨"as_clause", true, some "asClause", 38, 45, some 10⟩,
     ⟨"as", true, none, 38, 40, some 14⟩,
     ⟨"upper_case_identifier", true, some "name", 41, 45, some 14⟩,
     ⟨"import_clause", true, none, 46, 65, some 0⟩,
     ⟨"import", true, none, 46, 52, some 17⟩,
     ⟨"upper_case_qid", true, some "moduleName", 53, 56, some 17⟩,
     ⟨"upper_case_identifier", true, none, 53, 56, some 19⟩,
     ⟨"as_clause", true, some "asClause", 57, 65, some 17⟩,
     ⟨"as", true, none, 57, 59, some 21⟩,
     ⟨"upper_case_identifier", true, some "name", 60, 65, some 21⟩ ]

/-- A module that imports another one twice, under two names. -/
def page : Source where
  file := ⟨"file:///src/Page.elm"⟩
  text := "module Page exposing (..)\n\nimport Api as Read\nimport Api as Write\n".toList
  tree := ⟨pageNodes, Tree.subtreeEnds pageNodes, [], by decide +kernel⟩
  writeable := true
  isDraft := false

/-- The module is installed, and the one it imports is not. -/
def pageOnly : Workspace := Workspace.run [.install page false]

theorem lookupModule?_pageOnly {q : String} (hself : page.moduleName? ≠ some q)
    (h : ((pageOnly.importsOf page).filter (·.qualifier = q)).head?.map (·.moduleName) =
      some "Api") : pageOnly.lookupModule? page q = some ⟨10, page, .module⟩ := by
  rw [Workspace.lookupModule?_of_ne hself]
  obtain ⟨i, hi, hname⟩ := Option.map_eq_some_iff.1 h
  obtain ⟨rest, hrest⟩ := List.head?_eq_some_iff.1 hi
  have hclause : page.importClauseOf? "Api" = some 10 := by decide +kernel
  have hnone : pageOnly.declarationOf? "Api" = none :=
    Option.isNone_iff_eq_none.1 (by decide +kernel)
  rw [hrest, List.findSome?_cons, Workspace.qualified?, hname, hnone, Option.none_or, hclause,
    Option.map_some]

end Sample

namespace Workspace

/-- The first of two names leads to its own clause. -/
theorem lookupModule?_visible_iff_read :
    Sample.pageOnly.lookupModule? Sample.page "Read" = some ⟨10, Sample.page, .module⟩ ∧
      Sample.page.tree.kind 10 = "import_clause" ∧ Sample.page.VisibleAs "Read" 10 := by
  have h : Sample.pageOnly.lookupModule? Sample.page "Read" = some ⟨10, Sample.page, .module⟩ :=
    Sample.lookupModule?_pageOnly (by decide +kernel) (by decide +kernel)
  obtain ⟨name, himports, -, hiff, -⟩ := lookupModule?_visible_iff h rfl rfl
  obtain rfl : name = "Api" := by
    have hname : Sample.page.ImportsModule "Api" 10 := by decide +kernel
    exact Option.some.inj (himports.symm.trans hname)
  exact ⟨h, rfl, hiff.2 (by decide +kernel)⟩

/-- The second name leads to the clause of the first. -/
theorem not_forall_lookupModule?_visible :
    ¬∀ (changes : List Change) (s : Source) (q : String) (d : Definition),
      (run changes).source? s.file = some s → (run changes).lookupModule? s q = some d →
      d.source = s → s.tree.kind d.node = "import_clause" → s.VisibleAs q d.node := by
  intro hall
  have h : Sample.pageOnly.lookupModule? Sample.page "Write" = some ⟨10, Sample.page, .module⟩ :=
    Sample.lookupModule?_pageOnly (by decide +kernel) (by decide +kernel)
  have hvisible := hall [.install Sample.page false] Sample.page "Write" _ source?_install_self h rfl
    rfl
  exact absurd hvisible (by decide +kernel)

end Workspace
end ElmScope
