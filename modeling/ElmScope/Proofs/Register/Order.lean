import ElmScope.Proofs.Register.Spell
import ElmScope.Proofs.Register.Step
import Mathlib.Data.List.Induction
/-!
# The register of modules

What the register says after any run of changes, in terms of the installed sources and of the
spells of `Register/Spell.lean`: under each module name stand the files whose source declares
that module, each once, those of the project first, and within the two groups by the age of
their spells.

`Orderly` is the invariant: it holds of the workspace without files, every change keeps it
(`Orderly.apply`), and so does every run (`orderly_run`). An installation that keeps the place
of its file keeps a spell; any other begins a spell that is younger than all, and goes to the
end of its group (`pairwise_insertIdx_place`).

* `register_run` — what the register says after a run
-/
namespace ElmScope
namespace Workspace

/-! ## Changes of other files -/

section
variable {w : Workspace} {c : Change} {f : FileId}

theorem entry?_apply_of_ne (h : f ≠ c.file) : entry? (c.apply w) f = w.entry? f := by
  cases c with
  | install s isOpen => exact entry?_install_of_ne h
  | setOpen file isOpen => exact entry?_setOpen_of_ne h
  | remove file => exact entry?_remove_of_ne h

theorem source?_apply_of_ne (h : f ≠ c.file) : (c.apply w).source? f = w.source? f := by
  rw [source?, entry?_apply_of_ne h, source?]

theorem header?_apply_of_ne (h : f ≠ c.file) : (c.apply w).header? f = w.header? f := by
  rw [header?, entry?_apply_of_ne h, header?]

end

/-! ## Lists in two groups -/

section
variable {α : Type}

theorem insertIdx_length_takeWhile (p : α → Bool) (a : α) (l : List α) :
    l.insertIdx (l.takeWhile p).length a = l.takeWhile p ++ a :: l.dropWhile p := by
  induction l with
  | nil => rfl
  | cons b l ih =>
    by_cases h : p b
    · simp [h, ih]
    · simp [h]

/-- In a list whose `p`s come first, nothing after the leading `p`s is one. -/
theorem not_of_mem_dropWhile {p : α → Bool} {l : List α}
    (hl : l.Pairwise fun a b => p b = true → p a = true) :
    ∀ a ∈ l.dropWhile p, ¬p a = true := by
  induction l with
  | nil => simp
  | cons b l ih =>
    rw [List.pairwise_cons] at hl
    by_cases h : p b
    · rw [List.dropWhile_cons_of_pos h]
      exact ih hl.2
    · rw [List.dropWhile_cons_of_neg h]
      intro a ha hpa
      rcases List.mem_cons.1 ha with rfl | ha
      · exact h hpa
      · exact h (hl.1 a ha hpa)

end

/-! ## The order by spells -/

/-- Whether the workspace has the file of a slot installed under its name and in its group. -/
def Holds (w : Workspace) (slot : Slot) : Prop :=
  ∃ s, w.source? slot.file = some s ∧ s.moduleName? = some slot.name ∧
    s.writeable = slot.writeable

/-- Whether one file of a module comes before another: it is of the project and the other is
not, or its spell is older. -/
def Precedes (changes : List Change) (name : String) (f g : FileId) : Prop :=
  ∃ b b' i j, SpellFrom changes ⟨f, name, b⟩ i ∧ SpellFrom changes ⟨g, name, b'⟩ j ∧
    (b = true ∧ b' = false ∨ b = b' ∧ i < j)

/-- What a run of changes leaves behind: entries that are what was installed, a spell for every
slot that is held and no other, and the files of every module in the order of their spells. -/
structure Orderly (changes : List Change) (w : Workspace) : Prop where
  entries : ∀ f e, w.entry? f = some e →
    e.source.file = f ∧ e.header = ModuleHeader.ofSource e.source
  spells : ∀ slot, (∃ i, SpellFrom changes slot i) ↔ w.Holds slot
  files : ∀ name f, f ∈ w.filesOf name ↔ ∃ b, w.Holds ⟨f, name, b⟩
  order : ∀ name, (w.filesOf name).Pairwise (Precedes changes name)

section
variable {w w' : Workspace} {changes : List Change} {c : Change} {slot : Slot} {name : String}
  {f g : FileId} {b : Bool}

theorem holds_congr (h : w'.source? slot.file = w.source? slot.file) :
    w'.Holds slot ↔ w.Holds slot := by
  simp only [Holds, h]

theorem holds_iff_entry : w.Holds slot ↔
    ∃ e, w.entry? slot.file = some e ∧ e.source.moduleName? = some slot.name ∧
      e.source.writeable = slot.writeable := by
  simp only [Holds, source?, Option.map_eq_some_iff]
  constructor
  · rintro ⟨_, ⟨e, he, rfl⟩, hn, hw⟩
    exact ⟨e, he, hn, hw⟩
  · rintro ⟨e, he, hn, hw⟩
    exact ⟨e.source, ⟨e, he, rfl⟩, hn, hw⟩

theorem Holds.isProjectFile_eq (h : w.Holds ⟨f, name, b⟩) : w.isProjectFile f = b := by
  obtain ⟨e, he, -, hw⟩ := holds_iff_entry.1 h
  simp only at he hw
  simp [isProjectFile, he, hw]

/-- The order stays one where the spells of its two files go on. -/
theorem Precedes.imp {changes' : List Change} (h : Precedes changes name f g)
    (hf : ∀ b i, SpellFrom changes ⟨f, name, b⟩ i → SpellFrom changes' ⟨f, name, b⟩ i)
    (hg : ∀ b i, SpellFrom changes ⟨g, name, b⟩ i → SpellFrom changes' ⟨g, name, b⟩ i) :
    Precedes changes' name f g := by
  obtain ⟨b, b', i, j, hi, hj, hlt⟩ := h
  exact ⟨b, b', i, j, hf b i hi, hg b' j hj, hlt⟩

/-- Files have one group and one spell in a module, so the order is about those. -/
theorem Precedes.rank_lt {b' : Bool} {i j : Nat} (h : Precedes changes name f g)
    (hi : SpellFrom changes ⟨f, name, b⟩ i) (hj : SpellFrom changes ⟨g, name, b'⟩ j) :
    b = true ∧ b' = false ∨ b = b' ∧ i < j := by
  obtain ⟨c, c', k, l, hk, hl, hlt⟩ := h
  obtain rfl : c = b := by simpa using hk.1.slot_eq hi.1 rfl
  obtain rfl : c' = b' := by simpa using hl.1.slot_eq hj.1 rfl
  rwa [hk.start_eq hi, hl.start_eq hj] at hlt

theorem not_precedes_self : ¬Precedes changes name f f := by
  intro h
  obtain ⟨b, b', i, j, hi, hj, -⟩ := id h
  rcases h.rank_lt hi hi with ⟨rfl, h⟩ | ⟨-, h⟩
  · exact absurd h (by decide)
  · exact absurd h (Nat.lt_irrefl i)

/-- The name that the entry of a file declares, in terms of slots. -/
theorem Orderly.name_iff (o : Orderly changes w) :
    (w.entry? f).bind (·.header.name?) = some name ↔ ∃ b, w.Holds ⟨f, name, b⟩ := by
  simp only [holds_iff_entry, Option.bind_eq_some_iff]
  constructor
  · rintro ⟨e, he, hn⟩
    rw [(o.entries f e he).2] at hn
    exact ⟨e.source.writeable, e, he, hn, rfl⟩
  · rintro ⟨b, e, he, hn, -⟩
    refine ⟨e, he, ?_⟩
    rw [(o.entries f e he).2]
    exact hn

theorem Orderly.filesOf_remove (o : Orderly changes w) (file : FileId) :
    (w.remove file).filesOf name = (w.filesOf name).filter (· ≠ file) := by
  rw [Workspace.filesOf_remove]
  split
  · rfl
  · next h =>
    refine (List.filter_eq_self.2 fun f hf => ?_).symm
    rw [o.name_iff, ← o.files] at h
    simp only [ne_eq, decide_not, Bool.not_eq_eq_eq_not, Bool.not_true, decide_eq_false_iff_not]
    rintro rfl
    exact h hf

/-- What is left of the files of a module when a file is withdrawn keeps its order, whatever
the change does to that file. -/
theorem Orderly.pairwise_remove (o : Orderly changes w) (c : Change) :
    ((w.remove c.file).filesOf name).Pairwise (Precedes (changes ++ [c]) name) := by
  rw [o.filesOf_remove]
  refine ((o.order name).filter _).imp_of_mem fun hf hg h => ?_
  simp only [List.mem_filter, decide_eq_true_eq] at hf hg
  exact h.imp (fun _ _ => (spellFrom_concat_of_file_ne hf.2).2)
    (fun _ _ => (spellFrom_concat_of_file_ne hg.2).2)

theorem orderly_empty : Orderly [] ∅ where
  entries _ _ h := nomatch h
  spells slot := by
    constructor
    · rintro ⟨i, h⟩
      exact absurd h.1 not_heldSince_nil
    · rintro ⟨s, hs, -⟩
      exact nomatch hs
  files name f := by
    constructor
    · intro h
      exact nomatch h
    · rintro ⟨b, s, hs, -⟩
      exact nomatch hs
  order name := List.Pairwise.nil

theorem Orderly.setOpen (o : Orderly changes w) (file : FileId) (isOpen : Bool) :
    Orderly (changes ++ [.setOpen file isOpen]) (w.setOpen file isOpen) where
  entries f e he := by
    by_cases h : f = file
    · subst h
      cases hold : w.entry? f with
      | none =>
        simp only [Workspace.setOpen, hold] at he
        exact o.entries f e (hold ▸ he)
      | some old =>
        rw [entry?_setOpen_self hold] at he
        obtain rfl := Option.some.inj he
        exact o.entries f old hold
    · rw [entry?_setOpen_of_ne h] at he
      exact o.entries f e he
  spells slot := by
    rw [holds_congr source?_setOpen, ← o.spells]
    exact exists_congr fun i => spellFrom_concat_setOpen
  files name f := by
    rw [filesOf_setOpen, o.files]
    exact exists_congr fun b => (holds_congr source?_setOpen).symm
  order name := by
    rw [filesOf_setOpen]
    refine (o.order name).imp fun {f g} h => ?_
    exact h.imp (fun _ _ => spellFrom_concat_setOpen.2) (fun _ _ => spellFrom_concat_setOpen.2)

theorem Orderly.remove (o : Orderly changes w) (file : FileId) :
    Orderly (changes ++ [.remove file]) (w.remove file) where
  entries f e he := by
    have hne : f ≠ file := by
      rintro rfl
      simp at he
    rw [entry?_remove_of_ne hne] at he
    exact o.entries f e he
  spells slot := by
    by_cases h : slot.file = file
    · constructor
      · rintro ⟨i, hi⟩
        exact absurd hi (not_spellFrom_concat_of_vacates h.symm)
      · rintro ⟨s, hs, -⟩
        simp [source?, h] at hs
    · rw [holds_congr (source?_remove_of_ne h), ← o.spells]
      exact exists_congr fun i => spellFrom_concat_of_file_ne h
  files name f := by
    rw [o.filesOf_remove, List.mem_filter, o.files]
    by_cases h : f = file
    · subst h
      simp [Holds, source?]
    · simp [Holds, source?, h, entry?_remove_of_ne h]
  order name := o.pairwise_remove (.remove file)

/-! ## Installations -/

variable {s : Source} {isOpen : Bool}

/-- An installation keeps the place of its file exactly when the file is in the slot that the
installation fills. -/
theorem Orderly.keepsPlace_iff (o : Orderly changes w) : w.keepsPlace s = true ↔
    ∃ e, w.entry? s.file = some e ∧ e.source.moduleName? = s.moduleName? ∧
      e.source.writeable = s.writeable := by
  simp only [keepsPlace, Option.any_eq_true, Bool.and_eq_true, decide_eq_true_eq]
  refine exists_congr fun e => and_congr_right fun he => ?_
  rw [(o.entries _ e he).2]
  exact Iff.rfl

theorem holds_install_self (h : slot.file = s.file) : (w.install s isOpen).Holds slot ↔
    Change.Fills slot (.install s isOpen) := by
  simp [Holds, Change.Fills, h, source?_install_self]

theorem holds_install_of_ne (h : slot.file ≠ s.file) :
    (w.install s isOpen).Holds slot ↔ w.Holds slot :=
  holds_congr (source?_install_of_ne h)

theorem vacates_install_of_not_fills (h : slot.file = s.file)
    (hf : ¬Change.Fills slot (.install s isOpen)) : Change.Vacates slot (.install s isOpen) :=
  ⟨h.symm, fun hs => hf ⟨h.symm, hs⟩⟩

/-- After an installation the slots that are held and those with a spell are still the same. -/
theorem Orderly.spells_install (o : Orderly changes w) (slot : Slot) :
    (∃ i, SpellFrom (changes ++ [.install s isOpen]) slot i) ↔
      (w.install s isOpen).Holds slot := by
  by_cases h : slot.file = s.file
  · rw [holds_install_self h]
    by_cases hf : Change.Fills slot (.install s isOpen)
    · refine iff_of_true ?_ hf
      by_cases hno : ∃ j, SpellFrom changes slot j
      · obtain ⟨j, hj⟩ := hno
        exact ⟨j, (spellFrom_concat_of_refill hf hj).2 hj⟩
      · exact ⟨_, (spellFrom_concat_of_fill hf (not_exists.1 hno)).2 rfl⟩
    · refine iff_of_false ?_ hf
      rintro ⟨i, hi⟩
      exact not_spellFrom_concat_of_vacates (vacates_install_of_not_fills h hf) hi
  · rw [holds_install_of_ne h, ← o.spells]
    exact exists_congr fun i => spellFrom_concat_of_file_ne h

theorem Orderly.entries_install (o : Orderly changes w) (f : FileId) (e : Entry)
    (he : entry? (w.install s isOpen) f = some e) :
    e.source.file = f ∧ e.header = ModuleHeader.ofSource e.source := by
  by_cases h : f = s.file
  · subst h
    rw [entry?_install_self] at he
    obtain rfl := Option.some.inj he
    exact ⟨rfl, rfl⟩
  · rw [entry?_install_of_ne h] at he
    exact o.entries f e he

/-- An installation that keeps the place of its file changes no slot and no spell. -/
theorem Orderly.install_of_keepsPlace (o : Orderly changes w) (h : w.keepsPlace s = true) :
    Orderly (changes ++ [.install s isOpen]) (w.install s isOpen) where
  entries := o.entries_install
  spells := o.spells_install
  files name f := by
    rw [filesOf_install_of_keepsPlace h, o.files]
    obtain ⟨e, he, hn, hw⟩ := o.keepsPlace_iff.1 h
    refine exists_congr fun b => ?_
    by_cases hf : f = s.file
    · subst hf
      rw [holds_install_self rfl, holds_iff_entry]
      simp [he, hn, hw, Change.Fills]
    · exact (holds_install_of_ne hf).symm
  order name := by
    rw [filesOf_install_of_keepsPlace h]
    have hspell : ∀ {slot i}, SpellFrom changes slot i →
        SpellFrom (changes ++ [.install s isOpen]) slot i := by
      intro slot i hi
      by_cases hf : slot.file = s.file
      · obtain ⟨e, he, hn, hw⟩ := o.keepsPlace_iff.1 h
        obtain ⟨e', he', hn', hw'⟩ := holds_iff_entry.1 ((o.spells slot).1 ⟨i, hi⟩)
        rw [hf] at he'
        obtain rfl := Option.some.inj (he.symm.trans he')
        have hfill : Change.Fills slot (.install s isOpen) :=
          ⟨hf.symm, hn.symm.trans hn', hw.symm.trans hw'⟩
        exact (spellFrom_concat_of_refill hfill hi).2 hi
      · exact (spellFrom_concat_of_file_ne hf).2 hi
    refine (o.order name).imp fun {f g} h => ?_
    exact h.imp (fun _ _ => hspell) (fun _ _ => hspell)

/-- A file whose spell is the youngest is entered at the end of its group, and the order stays
one. -/
theorem pairwise_insertIdx_place {files : List FileId} {n : Nat}
    (hfiles : files.Pairwise (Precedes changes name)) (hf : SpellFrom changes ⟨f, name, b⟩ n)
    (hold : ∀ g ∈ files, ∃ b' j, SpellFrom changes ⟨g, name, b'⟩ j ∧ j < n ∧
      w.isProjectFile g = b') :
    (files.insertIdx (w.place b files) f).Pairwise (Precedes changes name) := by
  -- Seen from `f`: the files of its group are older, those of the other group stand apart.
  have before : ∀ g ∈ files, w.isProjectFile g = true ∨ b = false → Precedes changes name g f := by
    intro g hg hgroup
    obtain ⟨b', j, hj, hlt, hb'⟩ := hold g hg
    refine ⟨b', b, j, n, hj, hf, ?_⟩
    cases b' <;> cases b <;> simp_all
  have after : ∀ g ∈ files, w.isProjectFile g = false → b = true → Precedes changes name f g := by
    intro g hg hproj hb
    obtain ⟨b', j, hj, -, hb'⟩ := hold g hg
    exact ⟨b, b', n, j, hf, hj, .inl ⟨hb, hb'.symm.trans hproj⟩⟩
  cases b with
  | false =>
    simp only [place, Bool.false_eq_true, if_false, List.insertIdx_length_self]
    rw [List.pairwise_append]
    refine ⟨hfiles, List.pairwise_singleton _ _, fun g hg f' hf' => ?_⟩
    obtain rfl := List.mem_singleton.1 hf'
    exact before g hg (.inr rfl)
  | true =>
    have hgroups : files.Pairwise fun g g' =>
        w.isProjectFile g' = true → w.isProjectFile g = true := by
      refine hfiles.imp_of_mem fun {g g'} hg hg' h hproj => ?_
      obtain ⟨b₁, i, hi, -, hb₁⟩ := hold g hg
      obtain ⟨b₂, j, hj, -, hb₂⟩ := hold g' hg'
      rcases h.rank_lt hi hj with ⟨h, -⟩ | ⟨h, -⟩ <;> simp_all
    simp only [place, if_true, insertIdx_length_takeWhile]
    rw [List.pairwise_append, List.pairwise_cons]
    refine ⟨hfiles.sublist (List.takeWhile_sublist _),
      ⟨fun g hg => ?_, hfiles.sublist (List.dropWhile_sublist _)⟩, fun g hg g' hg' => ?_⟩
    · have hproj := not_of_mem_dropWhile hgroups g hg
      exact after g ((List.dropWhile_subset _) hg) (by simpa using hproj) rfl
    · have hproj : w.isProjectFile g = true := by
        have hall := List.all_takeWhile (p := w.isProjectFile) (l := files)
        exact List.all_eq_true.1 hall g hg
      rcases List.mem_cons.1 hg' with rfl | hg'
      · exact before g ((List.takeWhile_subset _) hg) (.inl hproj)
      · rw [← List.takeWhile_append_dropWhile (p := w.isProjectFile) (l := files),
          List.pairwise_append] at hfiles
        exact hfiles.2.2 g hg g' hg'

/-- An installation that does not keep the place of its file begins a spell with itself. -/
theorem Orderly.spellFrom_install_of_not_keepsPlace (o : Orderly changes w)
    (h : ¬w.keepsPlace s = true) (hf : Change.Fills slot (.install s isOpen)) :
    SpellFrom (changes ++ [.install s isOpen]) slot changes.length := by
  refine (spellFrom_concat_of_fill hf fun j hj => h ?_).2 rfl
  obtain ⟨e, he, hn, hw⟩ := holds_iff_entry.1 ((o.spells slot).1 ⟨j, hj⟩)
  obtain ⟨hfile, hn', hw'⟩ := hf
  rw [← hfile] at he
  exact o.keepsPlace_iff.2 ⟨e, he, hn.trans hn'.symm, hw.trans hw'.symm⟩

theorem Orderly.mem_filesOf_install_of_not_keepsPlace (o : Orderly changes w)
    (h : ¬w.keepsPlace s = true) : f ∈ (w.install s isOpen).filesOf name ↔
      f = s.file ∧ s.moduleName? = some name ∨ f ≠ s.file ∧ f ∈ w.filesOf name := by
  have hplace : w.place s.writeable ((w.remove s.file).filesOf name) ≤
      ((w.remove s.file).filesOf name).length := by
    unfold place
    split
    · exact (List.takeWhile_sublist _).length_le
    · exact Nat.le_refl _
  have hmem : f ∈ (w.remove s.file).filesOf name ↔ f ≠ s.file ∧ f ∈ w.filesOf name := by
    rw [o.filesOf_remove, List.mem_filter, decide_eq_true_eq, and_comm]
  rw [filesOf_install_of_not_keepsPlace h]
  by_cases hn : s.moduleName? = some name
  · simp only [hn, if_true, List.mem_insertIdx hplace, hmem, and_true]
  · simp only [hn, if_false, hmem, and_false, false_or]

theorem Orderly.install_of_not_keepsPlace (o : Orderly changes w) (h : ¬w.keepsPlace s = true) :
    Orderly (changes ++ [.install s isOpen]) (w.install s isOpen) where
  entries := o.entries_install
  spells := o.spells_install
  files name f := by
    rw [o.mem_filesOf_install_of_not_keepsPlace h]
    by_cases hf : f = s.file
    · subst hf
      simp [holds_install_self, Change.Fills]
    · simp [holds_install_of_ne, hf, o.files]
  order name := by
    rw [filesOf_install_of_not_keepsPlace h]
    have hleft : ((w.remove s.file).filesOf name).Pairwise
        (Precedes (changes ++ [.install s isOpen]) name) :=
      o.pairwise_remove (.install s isOpen)
    by_cases hn : s.moduleName? = some name
    · simp only [hn, if_true]
      refine pairwise_insertIdx_place hleft
        (o.spellFrom_install_of_not_keepsPlace h ⟨rfl, hn, rfl⟩) fun g hg => ?_
      rw [o.filesOf_remove, List.mem_filter, decide_eq_true_eq] at hg
      obtain ⟨b, hb⟩ := (o.files name g).1 hg.1
      obtain ⟨j, hj⟩ := (o.spells _).2 hb
      exact ⟨b, j, (spellFrom_concat_of_file_ne hg.2).2 hj, hj.lt_length, hb.isProjectFile_eq⟩
    · simpa only [hn, if_false] using hleft

/-! ## Runs -/

theorem Orderly.apply (o : Orderly changes w) (c : Change) :
    Orderly (changes ++ [c]) (c.apply w) := by
  cases c with
  | install s isOpen =>
    by_cases h : w.keepsPlace s = true
    · exact o.install_of_keepsPlace h
    · exact o.install_of_not_keepsPlace h
  | setOpen file isOpen => exact o.setOpen file isOpen
  | remove file => exact o.remove file

theorem orderly_run (changes : List Change) : Orderly changes (run changes) := by
  induction changes using List.reverseRecOn with
  | nil => exact orderly_empty
  | append_singleton changes c ih =>
    rw [run_concat]
    exact ih.apply c

/-! ## What the register answers -/

/-- A file with the oldest spell among the project files of a module, or among all its files
when none is of the project. -/
def Foremost (changes : List Change) (name : String) (f : FileId) : Prop :=
  ∃ b i, SpellFrom changes ⟨f, name, b⟩ i ∧
    (∀ g j, SpellFrom changes ⟨g, name, b⟩ j → i ≤ j) ∧
    (b = false → ∀ g j, ¬SpellFrom changes ⟨g, name, true⟩ j)

theorem Foremost.file_eq (hf : Foremost changes name f) (hg : Foremost changes name g) :
    f = g := by
  obtain ⟨b, i, hi, hold, hproj⟩ := hf
  obtain ⟨b', j, hj, hold', hproj'⟩ := hg
  have hb : b = b' := by
    cases b <;> cases b'
    · rfl
    · exact absurd hj (hproj rfl g j)
    · exact absurd hi (hproj' rfl f i)
    · rfl
  subst hb
  obtain rfl : i = j := Nat.le_antisymm (hold g j hj) (hold' f i hi)
  exact hi.file_eq hj

theorem Orderly.foremost_head (o : Orderly changes w) (h : (w.filesOf name).head? = some f) :
    Foremost changes name f := by
  obtain ⟨fs, hfs⟩ := List.head?_eq_some_iff.1 h
  have hord := o.order name
  rw [hfs, List.pairwise_cons] at hord
  obtain ⟨b, hb⟩ := (o.files name f).1 (hfs ▸ List.mem_cons_self)
  obtain ⟨i, hi⟩ := (o.spells _).2 hb
  -- Any other slot of the module is that of a file further down.
  have rest : ∀ g b' j, SpellFrom changes ⟨g, name, b'⟩ j → g = f ∧ b' = b ∧ j = i ∨
      b = true ∧ b' = false ∨ b = b' ∧ i < j := by
    intro g b' j hj
    have hg := (o.files name g).2 ⟨b', (o.spells _).1 ⟨j, hj⟩⟩
    rw [hfs] at hg
    rcases List.mem_cons.1 hg with rfl | hg
    · have hbb : b' = b := by simpa using hj.1.slot_eq hi.1 rfl
      subst hbb
      exact .inl ⟨rfl, rfl, hj.start_eq hi⟩
    · exact .inr ((hord.1 g hg).rank_lt hi hj)
  refine ⟨b, i, hi, fun g j hj => ?_, fun hb' g j hj => ?_⟩
  · rcases rest g b j hj with ⟨-, -, rfl⟩ | ⟨rfl, h⟩ | ⟨-, h⟩
    · exact Nat.le_refl _
    · exact absurd h (by decide)
    · exact Nat.le_of_lt h
  · subst hb'
    rcases rest g true j hj with ⟨-, h, -⟩ | ⟨h, -⟩ | ⟨h, -⟩ <;> exact absurd h (by decide)

theorem Orderly.mem_iff_source (o : Orderly changes w) : f ∈ w.filesOf name ↔
    ∃ s, w.source? f = some s ∧ s.moduleName? = some name := by
  rw [o.files]
  constructor
  · rintro ⟨b, s, hs, hn, -⟩
    exact ⟨s, hs, hn⟩
  · rintro ⟨s, hs, hn⟩
    exact ⟨s.writeable, s, hs, hn, rfl⟩

theorem Orderly.module?_eq_some_iff (o : Orderly changes w) : w.module? name = some s ↔
    ∃ f, w.source? f = some s ∧ Foremost changes name f := by
  simp only [module?, Option.bind_eq_some_iff]
  constructor
  · rintro ⟨f, hhead, hs⟩
    exact ⟨f, hs, o.foremost_head hhead⟩
  · rintro ⟨f, hs, hfore⟩
    obtain ⟨b, i, hi, -⟩ := id hfore
    have hmem := (o.files name f).2 ⟨b, (o.spells _).1 ⟨i, hi⟩⟩
    cases hl : w.filesOf name with
    | nil =>
      rw [hl] at hmem
      exact absurd hmem List.not_mem_nil
    | cons g gs =>
      have hg : Foremost changes name g := o.foremost_head (by rw [hl]; rfl)
      obtain rfl := hfore.file_eq hg
      exact ⟨f, rfl, hs⟩

theorem Orderly.module?_eq_none_iff (o : Orderly changes w) : w.module? name = none ↔
    ∀ f s, w.source? f = some s → s.moduleName? ≠ some name := by
  constructor
  · intro hnone f s hs hn
    have hmem : f ∈ w.filesOf name := o.mem_iff_source.2 ⟨s, hs, hn⟩
    cases hl : w.filesOf name with
    | nil =>
      rw [hl] at hmem
      exact absurd hmem List.not_mem_nil
    | cons g gs =>
      have hg : g ∈ w.filesOf name := hl ▸ List.mem_cons_self
      obtain ⟨t, ht, -⟩ := o.mem_iff_source.1 hg
      simp [module?, hl, ht] at hnone
  · intro hno
    cases hl : w.filesOf name with
    | nil => simp [module?, hl]
    | cons g gs =>
      have hg : g ∈ w.filesOf name := hl ▸ List.mem_cons_self
      obtain ⟨t, ht, hn⟩ := o.mem_iff_source.1 hg
      exact absurd hn (hno g t ht)

end

/-- **The register follows the sources.** After any run of changes every entry is that of its
file, with the header of its source. Under each module name stand exactly the files whose source
declares the module, each once, project files before others, and within the two groups by the
age of the current spell. The module a name means is that of the foremost file. -/
theorem register_run (changes : List Change) :
    let w := run changes
    (∀ f e, w.entry? f = some e →
      e.source.file = f ∧ e.header = ModuleHeader.ofSource e.source) ∧
    (∀ f name b, (∃ i, SpellFrom changes ⟨f, name, b⟩ i) ↔
      ∃ s, w.source? f = some s ∧ s.moduleName? = some name ∧ s.writeable = b) ∧
    ∀ name,
      (∀ f, f ∈ w.filesOf name ↔ ∃ s, w.source? f = some s ∧ s.moduleName? = some name) ∧
      (w.filesOf name).Nodup ∧
      (w.filesOf name).Pairwise (fun f g => ∀ b b' i j, SpellFrom changes ⟨f, name, b⟩ i →
        SpellFrom changes ⟨g, name, b'⟩ j → b = true ∧ b' = false ∨ b = b' ∧ i < j) ∧
      (w.module? name = none ↔ ∀ f s, w.source? f = some s → s.moduleName? ≠ some name) ∧
      ∀ s, w.module? name = some s ↔ ∃ f, w.source? f = some s ∧ Foremost changes name f := by
  intro w
  have o : Orderly changes w := orderly_run changes
  refine ⟨o.entries, fun f name b => o.spells ⟨f, name, b⟩, fun name =>
    ⟨fun f => o.mem_iff_source, ?_, ?_, o.module?_eq_none_iff, fun s => o.module?_eq_some_iff⟩⟩
  · refine (o.order name).imp fun {f g} h => ?_
    rintro rfl
    exact not_precedes_self h
  · refine (o.order name).imp fun {f g} h => ?_
    intro b b' i j hi hj
    exact h.rank_lt hi hj

end Workspace
end ElmScope
