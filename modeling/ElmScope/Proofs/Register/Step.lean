import ElmScope.Workspace.Basic
/-!
# One change of a workspace

What an installation, a removal and a change of the open flag do to the entries and to the
register. Every entry but that of the file concerned stays; the register is read through
`filesOf`.

* `filesOf_remove` — a removal takes the file out of the module its entry declares
* `filesOf_install_of_keepsPlace`, `filesOf_install_of_not_keepsPlace` — an installation leaves
  the register, or withdraws the file and enters it at the end of its group
-/
namespace ElmScope
namespace Workspace

/-! ## Entries after one change -/

section
variable {w : Workspace} {s : Source} {isOpen : Bool} {file f : FileId}

@[simp] theorem entry?_install_self :
    entry? (w.install s isOpen) s.file = some ⟨s, isOpen, ModuleHeader.ofSource s⟩ :=
  Keyed.get?_put_self ..

theorem entry?_install_of_ne (h : f ≠ s.file) : entry? (w.install s isOpen) f = w.entry? f :=
  Keyed.get?_put_of_ne _ _ h

@[simp] theorem entry?_remove_self : entry? (w.remove file) file = none :=
  Keyed.get?_erase_self ..

theorem entry?_remove_of_ne (h : f ≠ file) : entry? (w.remove file) f = w.entry? f :=
  Keyed.get?_erase_of_ne _ h

theorem entry?_setOpen_self {e : Entry} (h : w.entry? file = some e) :
    entry? (w.setOpen file isOpen) file = some { e with isOpen := isOpen } := by
  simp only [setOpen, h]
  exact Keyed.get?_put_self ..

theorem entry?_setOpen_of_ne (h : f ≠ file) : entry? (w.setOpen file isOpen) f = w.entry? f := by
  unfold setOpen
  split
  · exact Keyed.get?_put_of_ne _ _ h
  · rfl

theorem source?_install_self : (w.install s isOpen).source? s.file = some s := by
  simp [source?]

theorem source?_install_of_ne (h : f ≠ s.file) : (w.install s isOpen).source? f = w.source? f := by
  simp [source?, entry?_install_of_ne h]

theorem source?_remove_of_ne (h : f ≠ file) : (w.remove file).source? f = w.source? f := by
  simp [source?, entry?_remove_of_ne h]

@[simp] theorem source?_setOpen : (w.setOpen file isOpen).source? f = w.source? f := by
  by_cases h : f = file
  · subst h
    cases he : w.entry? f with
    | none => simp [setOpen, he, source?]
    | some e => simp [source?, entry?_setOpen_self he, he]
  · simp [source?, entry?_setOpen_of_ne h]

@[simp] theorem filesOf_setOpen (name : String) :
    (w.setOpen file isOpen).filesOf name = w.filesOf name := by
  unfold setOpen
  split <;> rfl

end

/-! ## The register after one change -/

section
variable {w : Workspace} {s : Source} {isOpen : Bool} {file : FileId} {name : String}

/-- The files of a module once a file is withdrawn: the file leaves the module that its entry
declares. -/
theorem get?_withdraw :
    (Keyed.get? (w.withdraw file) name).getD [] =
      if (w.entry? file).bind (·.header.name?) = some name then (w.filesOf name).filter (· ≠ file)
      else w.filesOf name := by
  unfold withdraw
  cases hn : (w.entry? file).bind (·.header.name?) with
  | none => simp [filesOf]
  | some old =>
    by_cases h : old = name
    · subst h
      simp only [if_true]
      cases hl : (w.filesOf old).filter (· ≠ file) with
      | nil => simp
      | cons f fs => simp
    · have hne : name ≠ old := Ne.symm h
      simp only [Option.some.injEq, h, if_false]
      split
      · rw [Keyed.get?_erase_of_ne _ hne]; rfl
      · rw [Keyed.get?_put_of_ne _ _ hne]; rfl

theorem filesOf_remove :
    (w.remove file).filesOf name =
      if (w.entry? file).bind (·.header.name?) = some name then (w.filesOf name).filter (· ≠ file)
      else w.filesOf name :=
  get?_withdraw

theorem filesOf_install_of_keepsPlace (h : w.keepsPlace s = true) :
    (w.install s isOpen).filesOf name = w.filesOf name := by
  simp [filesOf, install, h]

/-- An installation that does not keep the place of the file enters it at the end of its
group, among what is left once the file is withdrawn. -/
theorem filesOf_install_of_not_keepsPlace (h : ¬w.keepsPlace s = true) :
    (w.install s isOpen).filesOf name =
      let files := (w.remove s.file).filesOf name
      if s.moduleName? = some name then files.insertIdx (w.place s.writeable files) s.file
      else files := by
  have hmod : (w.install s isOpen).modules = w.enroll s (w.withdraw s.file) := by
    simp [install, h]
  simp only [filesOf, hmod, remove]
  unfold enroll
  cases hn : s.moduleName? with
  | none => simp
  | some new =>
    by_cases hname : new = name
    · subst hname
      simp
    · have hne : name ≠ new := Ne.symm hname
      simp [Keyed.get?_put_of_ne _ _ hne, hname]

end

end Workspace
end ElmScope
