import ElmScope.Proofs.Lookup.Imports
/-!
# What a qualifier means

A qualifier is sought twice, along the same imports. The search for a qualified name goes on from
one import to the next until a module offers the name; the search for the qualifier stops at the
first one whose module is there, or which the file has a clause for, and the file's own name comes
before all imports. The two may end in different modules. But a source that the register has under
a name declares the module of that name, and so has a declaration to point to
(`Orderly.exists_declarationOf?`): where the first search ends, the second one has ended too.

* `lookupModule?_of_ne` — the two searches read the same imports
* `lookupQualified?_module` — the qualifier of a name with a meaning means a module
-/
namespace ElmScope

theorem findSome?_filter {α β : Type} (p : α → Bool) (f : α → Option β) (l : List α) :
    (l.filter p).findSome? f = l.findSome? fun a => if p a then f a else none := by
  induction l with
  | nil => rfl
  | cons a l ih =>
    by_cases h : p a
    · rw [List.filter_cons_of_pos h, List.findSome?_cons, List.findSome?_cons, if_pos h, ih]
    · rw [List.filter_cons_of_neg h, List.findSome?_cons, if_neg h, ih]

theorem Source.exists_moduleDeclaration? {s : Source} {name : String}
    (h : s.moduleName? = some name) : ∃ m, s.moduleDeclaration? = some m := by
  obtain ⟨m, hm, -⟩ := Option.bind_eq_some_iff.1 h
  exact ⟨m, hm⟩

namespace Workspace

/-- The module that an import gives its qualifier: by the declaration, or else by the clause. -/
def qualified? (w : Workspace) (s : Source) (i : Import) : Option Definition :=
  (w.declarationOf? i.moduleName).or <|
    (s.importClauseOf? i.moduleName).map fun clause => ⟨clause, s, .module⟩

variable {w : Workspace} {changes : List Change} {s t : Source} {q name : String}
  {namesp : Namespace} {d m : Definition} {i : Import}

/-! ## Declarations that the register points to -/

theorem Orderly.moduleName?_of_module? (o : Orderly changes w) (h : w.module? name = some t) :
    t.moduleName? = some name := by
  obtain ⟨f, hhead, ht⟩ := Option.bind_eq_some_iff.1 h
  obtain ⟨t', ht', hname⟩ := o.mem_iff_source.1 (List.mem_of_mem_head? hhead)
  obtain rfl : t' = t := Option.some.inj (ht'.symm.trans ht)
  exact hname

/-- A module that is there has a declaration. -/
theorem Orderly.exists_declarationOf? (o : Orderly changes w) (h : w.module? name = some t) :
    ∃ m, t.moduleDeclaration? = some m ∧ w.declarationOf? name = some ⟨m, t, .module⟩ := by
  obtain ⟨m, hm⟩ := Source.exists_moduleDeclaration? (o.moduleName?_of_module? h)
  refine ⟨m, hm, ?_⟩
  rw [declarationOf?, h, Option.bind_some, hm, Option.map_some]

/-! ## The two searches -/

/-- Unless it is the name of the file itself, a qualifier is sought along the imports that are
visible under it. -/
theorem lookupModule?_of_ne (h : s.moduleName? ≠ some q) :
    w.lookupModule? s q =
      ((w.importsOf s).filter (·.qualifier = q)).findSome? (w.qualified? s) := by
  rw [lookupModule?, if_neg h, findSome?_filter]
  congr 1
  funext i
  by_cases hq : i.qualifier = q
  · simp [hq, qualified?]
  · simp [hq]

theorem lookupModule?_self (h : s.moduleName? = some q) :
    ∃ m, s.moduleDeclaration? = some m ∧ w.lookupModule? s q = some ⟨m, s, .module⟩ := by
  obtain ⟨m, hm⟩ := Source.exists_moduleDeclaration? h
  exact ⟨m, hm, by rw [lookupModule?, if_pos h, hm, Option.map_some]⟩

/-- What a qualified name means is offered by the module of an import under the qualifier. -/
theorem exists_import_of_lookupQualified? (h : w.lookupQualified? s q name namesp = some d) :
    ∃ i ∈ (w.importsOf s).filter (·.qualifier = q), w.module? i.moduleName = some d.source := by
  obtain ⟨i, hi, hoffer⟩ := List.exists_of_findSome?_eq_some h
  exact ⟨i, hi, (module_offers_iff.1 hoffer).1⟩

theorem kind_of_declarationOf? (h : w.declarationOf? name = some d) : d.kind = .module := by
  obtain ⟨t, -, h⟩ := Option.bind_eq_some_iff.1 h
  obtain ⟨n, -, rfl⟩ := Option.map_eq_some_iff.1 h
  rfl

theorem kind_of_qualified? (h : w.qualified? s i = some d) : d.kind = .module := by
  rcases Option.or_eq_some_iff.1 h with h | ⟨-, h⟩
  · exact kind_of_declarationOf? h
  · obtain ⟨clause, -, rfl⟩ := Option.map_eq_some_iff.1 h
    rfl

theorem kind_of_lookupModule? (h : w.lookupModule? s q = some d) : d.kind = .module := by
  by_cases hself : s.moduleName? = some q
  · obtain ⟨m, -, hm⟩ := lookupModule?_self (w := w) hself
    obtain rfl := Option.some.inj (hm.symm.trans h)
    rfl
  · rw [lookupModule?_of_ne hself] at h
    obtain ⟨i, -, h⟩ := List.exists_of_findSome?_eq_some h
    exact kind_of_qualified? h

/-- The search for the qualifier of a name with a meaning comes to an end. -/
theorem Orderly.exists_lookupModule? (o : Orderly changes w)
    (h : w.lookupQualified? s q name namesp = some d) : ∃ m, w.lookupModule? s q = some m := by
  by_cases hself : s.moduleName? = some q
  · obtain ⟨m, -, hm⟩ := lookupModule?_self (w := w) hself
    exact ⟨_, hm⟩
  · rw [lookupModule?_of_ne hself]
    obtain ⟨i, hi, hmodule⟩ := exists_import_of_lookupQualified? h
    obtain ⟨n, -, hn⟩ := o.exists_declarationOf? hmodule
    refine Option.ne_none_iff_exists'.1 fun hnone => ?_
    have hi := List.findSome?_eq_none_iff.1 hnone i hi
    rw [qualified?, hn, Option.some_or] at hi
    exact nomatch hi

/-- Under one import, the qualifier of a name means the module that declares the name. -/
theorem Orderly.lookupModule?_of_single (o : Orderly changes w)
    (h : w.lookupQualified? s q name namesp = some d) (hself : s.moduleName? ≠ some q)
    (hsingle : (w.importsOf s).filter (·.qualifier = q) = [i]) :
    ∃ n, d.source.moduleDeclaration? = some n ∧
      w.lookupModule? s q = some ⟨n, d.source, .module⟩ := by
  obtain ⟨j, hj, hmodule⟩ := exists_import_of_lookupQualified? h
  rw [hsingle, List.mem_singleton] at hj
  subst hj
  obtain ⟨n, hn, hdecl⟩ := o.exists_declarationOf? hmodule
  refine ⟨n, hn, ?_⟩
  rw [lookupModule?_of_ne hself, hsingle, List.findSome?_singleton, qualified?, hdecl,
    Option.some_or]

/-- **A qualified name that means something has a qualifier that means a module.** This holds after
any run of changes, whatever imports share an alias in the file. Where one import alone is visible
under the qualifier, and the file does not go by it, the qualifier means the declaration of the very
module that the meaning lies in. -/
theorem lookupQualified?_module (changes : List Change)
    (h : (run changes).lookupQualified? s q name namesp = some d) :
    ∃ m, (run changes).lookupModule? s q = some m ∧ m.kind = .module ∧
      (((run changes).importsOf s).countP (·.qualifier = q) = 1 → s.moduleName? ≠ some q →
        m.source = d.source ∧ d.source.moduleDeclaration? = some m.node) := by
  have o := orderly_run changes
  obtain ⟨m, hm⟩ := o.exists_lookupModule? h
  refine ⟨m, hm, kind_of_lookupModule? hm, fun hcount hself => ?_⟩
  rw [List.countP_eq_length_filter, List.length_eq_one_iff] at hcount
  obtain ⟨i, hi⟩ := hcount
  obtain ⟨n, hn, hlookup⟩ := o.lookupModule?_of_single h hself hi
  obtain rfl := Option.some.inj (hm.symm.trans hlookup)
  exact ⟨rfl, hn⟩

/-- The qualifier of the variant of `shapes` means the declaration of `shapes`. -/
theorem lookupQualified?_module_circle :
    let w := run Sample.installed
    w.lookupQualified? Sample.importer "Shapes" "Circle" .constructor =
        some ⟨30, Sample.shapes, .unionConstructor⟩ ∧
      (w.importsOf Sample.importer).countP (·.qualifier = "Shapes") = 1 ∧
      w.lookupModule? Sample.importer "Shapes" = some ⟨1, Sample.shapes, .module⟩ := by
  intro w
  have h : w.lookupQualified? Sample.importer "Shapes" "Circle" .constructor =
      some ⟨30, Sample.shapes, .unionConstructor⟩ := Sample.lookupQualified?_circle
  have hcount : (w.importsOf Sample.importer).countP (·.qualifier = "Shapes") = 1 := by
    decide +kernel
  obtain ⟨⟨n, t, k⟩, hm, hkind, hsingle⟩ :=
    lookupQualified?_module Sample.installed h
  obtain ⟨hsource, hnode⟩ := hsingle hcount (by decide +kernel)
  obtain rfl : n = 1 := Option.some.inj (hnode.symm.trans (by decide +kernel))
  obtain rfl : t = Sample.shapes := hsource
  obtain rfl : k = .module := hkind
  exact ⟨h, hcount, hm⟩

end Workspace
end ElmScope
