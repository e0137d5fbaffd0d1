import ElmScope.Proofs.Lookup.Imports
/-!
# Files that a lookup does not read

A reference is looked up with the header of its file and with the modules that the imports of the
file mean, and with nothing else of the workspace (`lookup_congr`). A change of another file leaves
the header; it leaves the meaning of a module too, unless the file declared that module before the
change or does so after it (`Orderly.module?_apply`).

* `Avoids` — a change has nothing to do with a module
* `lookup_run_append` — any number of changes that have nothing to do with the imports of a file
  leave all its lookups
-/
namespace ElmScope

/-- Two functions that agree on a list find the same in it. -/
theorem findSome?_congr {α β : Type} {l : List α} {f g : α → Option β} (h : ∀ a ∈ l, f a = g a) :
    l.findSome? f = l.findSome? g := by
  induction l with
  | nil => rfl
  | cons a l ih =>
    rw [List.forall_mem_cons] at h
    rw [List.findSome?_cons, List.findSome?_cons, h.1, ih h.2]

namespace Workspace

/-! ## What a lookup reads -/

section
variable {w w' : Workspace} {s : Source} {name : String}

theorem importsOf_congr (hheader : w'.header? s.file = w.header? s.file) :
    w'.importsOf s = w.importsOf s := by
  rw [importsOf, hheader, importsOf]

theorem declarationOf?_congr (hmodule : w'.module? name = w.module? name) :
    w'.declarationOf? name = w.declarationOf? name := by
  rw [declarationOf?, hmodule, declarationOf?]

theorem imported?_congr {i : Import} (hmodule : w'.module? i.moduleName = w.module? i.moduleName)
    (name : String) (namesp : Namespace) : w'.imported? i name namesp = w.imported? i name namesp := by
  rw [imported?, hmodule, imported?]

/-- Workspaces that agree on the header of a file and on the modules its imports mean give the same
answer to every reference in the file. -/
theorem lookup?_congr (hheader : w'.header? s.file = w.header? s.file)
    (hmodules : ∀ i ∈ w.importsOf s, w'.module? i.moduleName = w.module? i.moduleName)
    (r : Reference) : w'.lookup? s r = w.lookup? s r := by
  have himports := importsOf_congr hheader
  by_cases hns : r.namesp = .module
  · simp only [lookup?, hns, lookupModule?, himports]
    split
    · rfl
    · refine findSome?_congr fun i hi => ?_
      rw [declarationOf?_congr (hmodules i hi)]
  · rw [lookup?_of_ne_module hns, lookup?_of_ne_module hns]
    split
    · rw [lookupQualified?, lookupQualified?, himports]
      refine findSome?_congr fun i hi => ?_
      rw [hmodules i (List.mem_of_mem_filter hi)]
    · rw [lookupUnqualified?, lookupUnqualified?, himports]
      congr 1
      exact findSome?_congr fun i hi => imported?_congr (hmodules i hi) r.name r.namesp

theorem lookup_congr (hheader : w'.header? s.file = w.header? s.file)
    (hmodules : ∀ i ∈ w.importsOf s, w'.module? i.moduleName = w.module? i.moduleName)
    (r : Reference) : w'.lookup s r = w.lookup s r := by
  rw [lookup, lookup?_congr hheader hmodules, lookup]

end

/-! ## What a change leaves -/

/-- Whether a change has nothing to do with a module: its file does not declare the module, and
neither does what it installs. -/
def Avoids (w : Workspace) (c : Change) (name : String) : Prop :=
  (∀ t, w.source? c.file = some t → t.moduleName? ≠ some name) ∧
    ∀ t isOpen, c = .install t isOpen → t.moduleName? ≠ some name

variable {w : Workspace} {changes : List Change} {c c' : Change} {s : Source} {f : FileId}
  {name : String}

/-- A change that has nothing to do with a module leaves the files that declare it. -/
theorem Orderly.filesOf_apply (o : Orderly changes w) (h : w.Avoids c name) :
    (c.apply w).filesOf name = w.filesOf name := by
  have hremove : (w.remove c.file).filesOf name = w.filesOf name := by
    rw [o.filesOf_remove, List.filter_eq_self]
    intro f hf
    obtain ⟨t, ht, hn⟩ := o.mem_iff_source.1 hf
    rw [decide_eq_true_eq]
    rintro rfl
    exact h.1 t ht hn
  cases c with
  | setOpen file isOpen => exact filesOf_setOpen name
  | remove file => exact hremove
  | install s isOpen =>
    by_cases hkeep : w.keepsPlace s = true
    · exact filesOf_install_of_keepsPlace hkeep
    · rw [Change.apply, filesOf_install_of_not_keepsPlace hkeep]
      exact (if_neg (h.2 s isOpen rfl)).trans hremove

/-- A change that has nothing to do with a module leaves what the module means. -/
theorem Orderly.module?_apply (o : Orderly changes w) (h : w.Avoids c name) :
    (c.apply w).module? name = w.module? name := by
  rw [module?, o.filesOf_apply h, module?]
  cases hhead : (w.filesOf name).head? with
  | none => rfl
  | some f =>
    obtain ⟨t, ht, hn⟩ := o.mem_iff_source.1 (List.mem_of_mem_head? hhead)
    have hne : f ≠ c.file := by
      rintro rfl
      exact h.1 t ht hn
    exact source?_apply_of_ne hne

/-- What a change brings for its own file is what it installs, or what was there. -/
theorem source?_apply_self {t : Source} (h : (c.apply w).source? c.file = some t) :
    (∃ isOpen, c = .install t isOpen) ∨ w.source? c.file = some t := by
  cases c with
  | install s isOpen =>
    rw [Change.apply, Change.file, source?_install_self] at h
    exact .inl ⟨isOpen, by rw [Option.some.inj h]⟩
  | setOpen file isOpen => exact .inr (source?_setOpen.symm.trans h)
  | remove file =>
    rw [Change.apply, Change.file, source?, entry?_remove_self] at h
    cases h

/-- After one such change, another is still one. -/
theorem Avoids.apply (h : w.Avoids c name) (h' : w.Avoids c' name) :
    (c.apply w).Avoids c' name := by
  refine ⟨fun t ht => ?_, h'.2⟩
  by_cases hf : c'.file = c.file
  · rw [hf] at ht
    rcases source?_apply_self ht with ⟨isOpen, hc⟩ | ht
    · exact h.2 t isOpen hc
    · exact h.1 t ht
  · exact h'.1 t (source?_apply_of_ne hf ▸ ht)

theorem run_append_cons (changes more : List Change) (c : Change) :
    run (changes ++ c :: more) = run (changes ++ [c] ++ more) := by
  rw [List.append_assoc, List.singleton_append]

/-- One change of another file that has nothing to do with the imports of a file. -/
theorem lookup_run_concat (hs : (run changes).source? f = some s) (hf : c.file ≠ f)
    (h : ∀ i, s.Receives i → (run changes).Avoids c i.moduleName) (r : Reference) :
    (run (changes ++ [c])).lookup s r = (run changes).lookup s r := by
  have o := orderly_run changes
  have hfile : s.file ≠ c.file := by
    obtain ⟨e, he, rfl⟩ := Option.map_eq_some_iff.1 hs
    rw [(o.entries f e he).1]
    exact hf.symm
  rw [run_concat]
  refine lookup_congr (header?_apply_of_ne hfile) (fun i hi => ?_) r
  exact o.module?_apply (h i ((o.mem_importsOf_iff hs).1 hi))

end Workspace

namespace Sample

/-- A second file that declares the module of `importer`. -/
def rival : Source := { importer with file := ⟨"file:///src/Copy.elm"⟩ }

/-- The second file comes and goes. -/
def visit : List Workspace.Change := [.install rival true, .remove rival.file]

end Sample

namespace Workspace

/-- **Unrelated files cannot change a lookup.** After any number of changes of other files, none of
which declares a module that a file imports, neither before the changes nor by what they install,
the file is still there and every reference in it is looked up with the same result. -/
theorem lookup_run_append (changes more : List Change) {f : FileId} {s : Source}
    (hs : (run changes).source? f = some s)
    (hmore : ∀ c ∈ more, c.file ≠ f ∧ ∀ i, s.Receives i → (run changes).Avoids c i.moduleName) :
    (run (changes ++ more)).source? f = some s ∧
      ∀ r, (run (changes ++ more)).lookup s r = (run changes).lookup s r := by
  induction more generalizing changes with
  | nil =>
    rw [List.append_nil]
    exact ⟨hs, fun _ => rfl⟩
  | cons c more ih =>
    obtain ⟨hc, hrest⟩ := List.forall_mem_cons.1 hmore
    have hs' : (run (changes ++ [c])).source? f = some s := by
      rw [run_concat, source?_apply_of_ne hc.1.symm, hs]
    have hstep : ∀ c' ∈ more, c'.file ≠ f ∧
        ∀ i, s.Receives i → (run (changes ++ [c])).Avoids c' i.moduleName := by
      intro c' hc'
      refine ⟨(hrest c' hc').1, fun i hi => ?_⟩
      rw [run_concat]
      exact (hc.2 i hi).apply ((hrest c' hc').2 i hi)
    obtain ⟨hsource, hlookup⟩ := ih (changes ++ [c]) hs' hstep
    rw [run_append_cons]
    exact ⟨hsource, fun r => (hlookup r).trans (lookup_run_concat hs hc.1 hc.2 r)⟩

/-- A second `Main` leaves what `importer`, itself a `Main`, finds in `Shapes`. -/
theorem lookup_run_append_visit :
    let r : Reference := ⟨some "Shapes", "Circle", .constructor⟩
    (∀ c ∈ Sample.visit, c.file ≠ Sample.importer.file ∧
      ∀ i, Sample.importer.Receives i → (run Sample.installed).Avoids c i.moduleName) ∧
      (run (Sample.installed ++ Sample.visit)).source? Sample.importer.file =
        some Sample.importer ∧
      ((run (Sample.installed ++ Sample.visit)).lookup Sample.importer r).found =
        some ⟨30, Sample.shapes, .unionConstructor⟩ := by
  intro r
  have hname : ∀ i, Sample.importer.Receives i → "Main" ≠ i.moduleName := by
    have hall : ∀ i ∈ (ModuleHeader.ofSource Sample.importer).allImports,
        "Main" ≠ i.moduleName := by decide +kernel
    exact fun i hi => hall i (Source.mem_allImports_iff.2 hi)
  have hrival : Sample.rival.moduleName? = some "Main" := by decide +kernel
  have hnew : (run Sample.installed).source? Sample.rival.file = none := rfl
  have havoids : ∀ c ∈ Sample.visit, ∀ i, Sample.importer.Receives i →
      (run Sample.installed).Avoids c i.moduleName := by
    intro c hc i hi
    have hfile : c.file = Sample.rival.file := by
      rcases List.mem_pair.1 hc with rfl | rfl <;> rfl
    refine ⟨fun t ht => ?_, fun t isOpen heq => ?_⟩
    · rw [hfile, hnew] at ht
      exact nomatch ht
    · obtain rfl : Sample.rival = t := by
        rcases List.mem_pair.1 hc with rfl | rfl
        · exact (Change.install.inj heq).1
        · exact nomatch heq
      rw [hrival]
      exact fun h => hname i hi (Option.some.inj h)
  have hmore : ∀ c ∈ Sample.visit, c.file ≠ Sample.importer.file ∧
      ∀ i, Sample.importer.Receives i → (run Sample.installed).Avoids c i.moduleName := by
    refine fun c hc => ⟨?_, havoids c hc⟩
    rcases List.mem_pair.1 hc with rfl | rfl <;> decide
  obtain ⟨hsource, hlookup⟩ :=
    lookup_run_append Sample.installed Sample.visit Sample.source?_installed hmore
  refine ⟨hmore, hsource, ?_⟩
  rw [hlookup r, lookup, Search.found_orReport, Search.found_ofOption]
  exact Sample.lookupQualified?_circle

end Workspace
end ElmScope
