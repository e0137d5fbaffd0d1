import ElmScope.Proofs.Register.Order
import ElmScope.Workspace.Update
/-!
# Installations of several files

The files of a module stand in the order in which they came, so installations do not commute as
such: of two files that come to declare one module, the first stands first. That is the only way in
which they meet. Two installations of different files that declare no common module come to the same
in either order, even if a file leaves its module, or its group, while the other comes
(`Orderly.agrees_install_comm`), and so does a whole batch of them in any order
(`Orderly.agrees_foldl_reload`).

What comes to the same here are the answers of a workspace, its entries and the files of its
modules, and not the order in which its tables happen to be kept.

* `Orderly.filesOf_install` — the files of a module after an installation, in two groups
* `entry?_foldl_reload_of_mem`, `entry?_foldl_reload_of_forall_ne` — the entries after a batch
-/
namespace ElmScope
namespace Workspace

/-- Two workspaces that answer alike: they hold the same entries, and the same files under every
module in the same order. -/
structure Agrees (w w' : Workspace) : Prop where
  entry? : ∀ f, w'.entry? f = w.entry? f
  filesOf : ∀ name, w'.filesOf name = w.filesOf name

section
variable {w w' w'' : Workspace} {s : Source} {isOpen : Bool}

theorem Agrees.refl (w : Workspace) : Agrees w w := ⟨fun _ => rfl, fun _ => rfl⟩

theorem Agrees.trans (h : Agrees w w') (h' : Agrees w' w'') : Agrees w w'' :=
  ⟨fun f => (h'.entry? f).trans (h.entry? f), fun name => (h'.filesOf name).trans (h.filesOf name)⟩

theorem Agrees.source? (h : Agrees w w') (f : FileId) : w'.source? f = w.source? f := by
  rw [Workspace.source?, h.entry?, Workspace.source?]

theorem Agrees.module? (h : Agrees w w') (name : String) : w'.module? name = w.module? name := by
  have hsource : w'.source? = w.source? := funext h.source?
  rw [Workspace.module?, h.filesOf, hsource, Workspace.module?]

theorem keepsPlace_congr (h : w'.entry? s.file = w.entry? s.file) :
    w'.keepsPlace s = w.keepsPlace s := by
  rw [keepsPlace, h, keepsPlace]

/-- Workspaces that answer alike do so after the same installation. -/
theorem Agrees.install (h : Agrees w w') (s : Source) (isOpen : Bool) :
    Agrees (w.install s isOpen) (w'.install s isOpen) where
  entry? f := by
    by_cases hf : f = s.file
    · rw [hf, entry?_install_self, entry?_install_self]
    · rw [entry?_install_of_ne hf, entry?_install_of_ne hf, h.entry?]
  filesOf name := by
    have hkeeps := keepsPlace_congr (h.entry? s.file)
    have hproject : w'.isProjectFile = w.isProjectFile := by
      funext f
      rw [isProjectFile, h.entry?, isProjectFile]
    have hremove : (w'.remove s.file).filesOf name = (w.remove s.file).filesOf name := by
      rw [filesOf_remove, filesOf_remove, h.entry?, h.filesOf]
    by_cases hkept : w.keepsPlace s = true
    · rw [filesOf_install_of_keepsPlace hkept, filesOf_install_of_keepsPlace (hkeeps.trans hkept),
        h.filesOf]
    · rw [filesOf_install_of_not_keepsPlace hkept,
        filesOf_install_of_not_keepsPlace (hkeeps ▸ hkept), hremove]
      simp only [place, hproject]

end

/-! ## The two groups of a module -/

/-- Some files with one more at the end of its group. -/
def enter (w : Workspace) (s : Source) (files : List FileId) : List FileId :=
  if s.writeable then
    files.filter w.isProjectFile ++ s.file :: files.filter fun f => !w.isProjectFile f
  else files ++ [s.file]

/-- Whether an installation that declares another module leaves a file where it is. -/
def stays (w : Workspace) (s : Source) (f : FileId) : Bool := w.keepsPlace s || f ≠ s.file

/-- In a list whose `p`s come first, the leading `p`s are all of them. -/
theorem takeWhile_eq_filter {α : Type} {p : α → Bool} {l : List α}
    (hl : l.Pairwise fun a b => p b = true → p a = true) :
    l.takeWhile p = l.filter p ∧ l.dropWhile p = l.filter fun a => !p a := by
  induction l with
  | nil => exact ⟨rfl, rfl⟩
  | cons a l ih =>
    rw [List.pairwise_cons] at hl
    by_cases h : p a = true
    · obtain ⟨htake, hdrop⟩ := ih hl.2
      rw [List.takeWhile_cons_of_pos h, List.dropWhile_cons_of_pos h, List.filter_cons_of_pos h,
        List.filter_cons_of_neg (by simp [h]), htake, hdrop]
      exact ⟨rfl, rfl⟩
    · have hrest : ∀ b ∈ a :: l, ¬p b = true :=
        List.forall_mem_cons.2 ⟨h, fun b hb hpb => h (hl.1 b hb hpb)⟩
      rw [List.takeWhile_cons_of_neg h, List.dropWhile_cons_of_neg h]
      refine ⟨(List.filter_eq_nil_iff.2 hrest).symm, (List.filter_eq_self.2 fun b hb => ?_).symm⟩
      simpa using hrest b hb

section
variable {w : Workspace} {changes : List Change} {s t : Source} {b c : Bool} {name : String}
  {f : FileId}

/-- Project files come first under every module. -/
theorem Orderly.pairwise_isProjectFile (o : Orderly changes w) (name : String) :
    (w.filesOf name).Pairwise fun f g => w.isProjectFile g = true → w.isProjectFile f = true := by
  refine (o.order name).imp_of_mem fun {f g} hf hg h hproject => ?_
  obtain ⟨b, hb⟩ := (o.files name f).1 hf
  obtain ⟨b', hb'⟩ := (o.files name g).1 hg
  obtain ⟨i, hi⟩ := (o.spells _).2 hb
  obtain ⟨j, hj⟩ := (o.spells _).2 hb'
  rw [hb.isProjectFile_eq]
  rw [hb'.isProjectFile_eq] at hproject
  rcases h.rank_lt hi hj with ⟨hproj, -⟩ | ⟨heq, -⟩
  · exact hproj
  · exact heq.trans hproject

/-- The files of a module after an installation: as they were, or without the file, which is then
entered at the end of its group in the module it declares. -/
theorem Orderly.filesOf_install (o : Orderly changes w) (s : Source) (b : Bool) (name : String) :
    (w.install s b).filesOf name =
      if w.keepsPlace s then w.filesOf name
      else
        let files := (w.filesOf name).filter (· ≠ s.file)
        if s.moduleName? = some name then w.enter s files else files := by
  by_cases h : w.keepsPlace s = true
  · rw [if_pos h, filesOf_install_of_keepsPlace h]
  · rw [if_neg h, filesOf_install_of_not_keepsPlace h, o.filesOf_remove]
    refine if_congr Iff.rfl ?_ rfl
    have hgroups := takeWhile_eq_filter
      ((o.pairwise_isProjectFile name).filter fun f => decide (f ≠ s.file))
    rw [place, enter]
    split
    · rw [insertIdx_length_takeWhile, hgroups.1, hgroups.2]
    · exact List.insertIdx_length_self ..

/-! ## Two installations -/

/-- A file that declares another module leaves a module or was never in it. -/
theorem Orderly.filesOf_install_of_ne (o : Orderly changes w) (hname : s.moduleName? ≠ some name)
    (b : Bool) : (w.install s b).filesOf name = (w.filesOf name).filter (w.stays s) := by
  rw [o.filesOf_install]
  by_cases h : w.keepsPlace s = true
  · rw [if_pos h, List.filter_eq_self.2 fun f _ => by simp [stays, h]]
  · rw [if_neg h, if_neg hname]
    exact List.filter_congr fun f _ => by simp [stays, h]

/-- An installation that keeps the place of its file keeps its group. -/
theorem isProjectFile_install_of_stays (h : w.stays s f = true) (b : Bool) :
    (w.install s b).isProjectFile f = w.isProjectFile f := by
  by_cases hf : f = s.file
  · subst hf
    have hkeeps : w.keepsPlace s = true := by simpa [stays] using h
    obtain ⟨e, he, heq⟩ := Option.any_eq_true _ _ |>.1 hkeeps
    rw [Bool.and_eq_true, decide_eq_true_eq, decide_eq_true_eq] at heq
    rw [isProjectFile, entry?_install_self, isProjectFile, he]
    exact heq.2.symm
  · rw [isProjectFile, entry?_install_of_ne hf, isProjectFile]

/-- Entering a file and letting another installation take its own file out are independent. -/
theorem filter_enter (hne : s.file ≠ t.file) (c : Bool) (files : List FileId) :
    (w.enter s files).filter (w.stays t) = (w.install t c).enter s (files.filter (w.stays t)) := by
  have hself : w.stays t s.file = true := by simp [stays, hne]
  have hgroup : ∀ f ∈ files.filter (w.stays t),
      (w.install t c).isProjectFile f = w.isProjectFile f :=
    fun f hf => isProjectFile_install_of_stays (List.mem_filter.1 hf).2 c
  have hnot : ∀ f ∈ files.filter (w.stays t),
      (!(w.install t c).isProjectFile f) = !w.isProjectFile f :=
    fun f hf => congrArg (!·) (hgroup f hf)
  rw [enter, enter]
  split
  · rw [List.filter_append, List.filter_cons_of_pos hself, List.filter_congr hgroup,
      List.filter_congr hnot]
    simp only [List.filter_filter, Bool.and_comm]
  · rw [List.filter_append, List.filter_cons_of_pos hself, List.filter_nil]

/-- One of two installations declares another module: the files of this module come to the same in
either order. -/
theorem Orderly.filesOf_install_comm (o : Orderly changes w) (hne : s.file ≠ t.file)
    (hname : t.moduleName? ≠ some name) :
    ((w.install s b).install t c).filesOf name = ((w.install t c).install s b).filesOf name := by
  have os : Orderly (changes ++ [.install s b]) (w.install s b) := o.apply (.install s b)
  have ot : Orderly (changes ++ [.install t c]) (w.install t c) := o.apply (.install t c)
  have hstays : (w.install s b).stays t = w.stays t := by
    funext f
    rw [stays, keepsPlace_congr (entry?_install_of_ne (Ne.symm hne)), stays]
  have hkeeps : (w.install t c).keepsPlace s = w.keepsPlace s :=
    keepsPlace_congr (entry?_install_of_ne hne)
  rw [os.filesOf_install_of_ne hname, ot.filesOf_install, o.filesOf_install,
    o.filesOf_install_of_ne hname, hstays, hkeeps]
  by_cases h : w.keepsPlace s = true
  · rw [if_pos h, if_pos h]
  · rw [if_neg h, if_neg h]
    have hcomm : ((w.filesOf name).filter (· ≠ s.file)).filter (w.stays t) =
        ((w.filesOf name).filter (w.stays t)).filter (· ≠ s.file) := by
      simp only [List.filter_filter, Bool.and_comm]
    split
    · rw [filter_enter hne, hcomm]
    · exact hcomm

/-- Two sources that may be installed in either order: they are of different files, and there is no
module that both declare. -/
structure Apart (s t : Source) : Prop where
  file_ne : s.file ≠ t.file
  moduleName?_ne : ∀ name, s.moduleName? = some name → t.moduleName? ≠ some name

theorem Apart.symm (h : Apart s t) : Apart t s :=
  ⟨Ne.symm h.file_ne, fun name ht hs => h.moduleName?_ne name hs ht⟩

theorem Orderly.agrees_install_comm (o : Orderly changes w) (h : Apart s t) :
    Agrees ((w.install s b).install t c) ((w.install t c).install s b) where
  entry? f := by
    by_cases hs : f = s.file
    · subst hs
      rw [entry?_install_self, entry?_install_of_ne h.file_ne, entry?_install_self]
    · by_cases ht : f = t.file
      · subst ht
        rw [entry?_install_of_ne hs, entry?_install_self, entry?_install_self]
      · rw [entry?_install_of_ne hs, entry?_install_of_ne ht, entry?_install_of_ne ht,
          entry?_install_of_ne hs]
  filesOf name := by
    by_cases hname : t.moduleName? = some name
    · have hother : s.moduleName? ≠ some name := h.symm.moduleName?_ne name hname
      exact o.filesOf_install_comm (Ne.symm h.file_ne) hother
    · exact (o.filesOf_install_comm h.file_ne hname).symm

end

/-! ## A batch of installations -/

/-- Install a source and leave its file open or closed, as it is. -/
def reload (w : Workspace) (s : Source) : Workspace :=
  w.install s (w.isOpen s.file)

section
variable {w w' : Workspace} {changes : List Change} {s t : Source} {batch batch' : List Source}
  {f : FileId}

theorem isOpen_congr (h : w'.entry? f = w.entry? f) : w'.isOpen f = w.isOpen f := by
  rw [isOpen, h, isOpen]

theorem isOpen_install_of_ne {isOpen : Bool} (h : f ≠ s.file) :
    (w.install s isOpen).isOpen f = w.isOpen f := isOpen_congr (entry?_install_of_ne h)

theorem Agrees.reload (h : Agrees w w') (s : Source) : Agrees (w.reload s) (w'.reload s) := by
  rw [Workspace.reload, Workspace.reload, isOpen_congr (h.entry? s.file)]
  exact h.install s _

theorem Agrees.foldl_reload (h : Agrees w w') (batch : List Source) :
    Agrees (batch.foldl Workspace.reload w) (batch.foldl Workspace.reload w') := by
  induction batch generalizing w w' with
  | nil => exact h
  | cons s batch ih => exact ih (h.reload s)

theorem Orderly.agrees_reload_comm (o : Orderly changes w) (h : Apart s t) :
    Agrees ((w.reload s).reload t) ((w.reload t).reload s) := by
  have ht : (w.reload s).isOpen t.file = w.isOpen t.file :=
    isOpen_install_of_ne (Ne.symm h.file_ne)
  have hs : (w.reload t).isOpen s.file = w.isOpen s.file := isOpen_install_of_ne h.file_ne
  change Agrees ((w.reload s).install t ((w.reload s).isOpen t.file))
    ((w.reload t).install s ((w.reload t).isOpen s.file))
  rw [ht, hs]
  exact o.agrees_install_comm h

/-- A batch may be installed in any order. -/
theorem Orderly.agrees_foldl_reload (o : Orderly changes w) (hperm : batch.Perm batch')
    (hapart : batch.Pairwise Apart) :
    Agrees (batch.foldl reload w) (batch'.foldl reload w) := by
  induction hperm generalizing w changes with
  | nil => exact .refl w
  | cons s _ ih =>
    rw [List.pairwise_cons] at hapart
    exact ih (o.apply (.install s _)) hapart.2
  | swap s t batch =>
    rw [List.pairwise_cons, List.forall_mem_cons] at hapart
    exact (o.agrees_reload_comm hapart.1.1).foldl_reload batch
  | trans hleft _ ihleft ihright =>
    have hmiddle := (hleft.pairwise_iff fun h => Apart.symm h).1 hapart
    exact (ihleft o hapart).trans (ihright o hmiddle)

/-- A batch leaves the entries of other files. -/
theorem entry?_foldl_reload_of_forall_ne (h : ∀ s ∈ batch, f ≠ s.file) :
    entry? (batch.foldl reload w) f = w.entry? f := by
  induction batch generalizing w with
  | nil => rfl
  | cons s batch ih =>
    obtain ⟨hs, hbatch⟩ := List.forall_mem_cons.1 h
    rw [List.foldl_cons, ih hbatch, reload, entry?_install_of_ne hs]

/-- Each source of a batch of different files ends up installed. -/
theorem entry?_foldl_reload_of_mem (hapart : batch.Pairwise Apart) (hs : s ∈ batch) :
    entry? (batch.foldl reload w) s.file =
      some ⟨s, w.isOpen s.file, ModuleHeader.ofSource s⟩ := by
  induction batch generalizing w with
  | nil => exact absurd hs List.not_mem_nil
  | cons t batch ih =>
    rw [List.pairwise_cons] at hapart
    rw [List.foldl_cons]
    rcases List.mem_cons.1 hs with rfl | hs
    · rw [entry?_foldl_reload_of_forall_ne fun t ht => (hapart.1 t ht).file_ne, reload,
        entry?_install_self]
    · have hne := (hapart.1 s hs).symm.file_ne
      rw [ih hapart.2 hs, reload, isOpen_install_of_ne hne]

end

end Workspace
end ElmScope
