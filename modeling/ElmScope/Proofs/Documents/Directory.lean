import ElmScope.Proofs.Disk.Below
import ElmScope.Proofs.Documents.Mirror
import ElmScope.Proofs.Lookup.Imports
import ElmScope.Proofs.Register.Commute
/-!
# Loading a directory

A directory is visited in whatever order the disk lists its files. Each file that can be read is
installed with the text of the disk, and stays open or closed as it was; one that cannot be read is
passed over. So a directory comes to a batch of sources, and a batch of different files with
different modules may be installed in any order.

* `loadDirectory_eq` — loading a directory is installing its batch
* `mem_sourcesBelow_iff` — which files are loaded
* `pairwise_apart` — the files of a directory are different, their modules by assumption
* `loadDirectory_reordered` — the order of the visit does not matter
-/
namespace ElmScope
namespace Workspace

section
variable (parse : Text → Tree) (disk : Disk) (writeable : Bool)

/-- The source that a load from a path installs. There is none if the path cannot be read. -/
def loaded? (path : Text) : Option Source :=
  (disk.readText path).toOption.map fun text =>
    ⟨FileId.ofPath disk.workingDirectory path, text, parse text, writeable, false⟩

/-- The sources that loading a directory installs, in the order of the visit. -/
def batchBelow (root : Text) : List Source :=
  (sourcesBelow disk root).filterMap (loaded? parse disk writeable)

end

variable {parse : Text → Tree} {disk disk' : Disk} {writeable : Bool} {w : Workspace}
  {root path : Text} {paths : List Text} {s : Source} {changes : List Change}

/-! ## A directory as a batch -/

theorem loaded?_of_readText {text : Text} (h : disk.readText path = .ok text) :
    loaded? parse disk writeable path =
      some ⟨FileId.ofPath disk.workingDirectory path, text, parse text, writeable, false⟩ := by
  rw [loaded?, h]
  rfl

theorem loaded?_eq_none {fault : DiskFault} (h : disk.readText path = .error fault) :
    loaded? parse disk writeable path = none := by
  rw [loaded?, h]
  rfl

theorem file_of_loaded? (h : loaded? parse disk writeable path = some s) :
    s.file = FileId.ofPath disk.workingDirectory path := by
  obtain ⟨text, -, rfl⟩ := Option.map_eq_some_iff.1 h
  rfl

/-- Loading some files installs those that can be read. -/
theorem foldl_loadFile_eq (parse : Text → Tree) (writeable : Bool) (paths : List Text)
    (w : Workspace) :
    paths.foldl (fun w path => (w.loadFile parse disk path writeable).workspace) w =
      (paths.filterMap (loaded? parse disk writeable)).foldl reload w := by
  induction paths generalizing w with
  | nil => rfl
  | cons path paths ih =>
    rw [List.foldl_cons, ih]
    cases hread : disk.readText path with
    | error fault =>
      rw [List.filterMap_cons_none (loaded?_eq_none hread)]
      simp only [loadFile, readPath, hread, Except.mapError]
    | ok text =>
      rw [List.filterMap_cons_some (loaded?_of_readText hread), List.foldl_cons]
      simp only [loadFile, readPath, hread, Except.mapError]
      rfl

/-- The files that are loaded are counted. -/
theorem fst_loadEntries (parse : Text → Tree) (writeable : Bool) (entries : List DiskEntry)
    (w : Workspace) : (loadEntries parse disk writeable entries w).1 =
      (entries.filterMap sourcePath?).countP fun path => (disk.readText path).isOk := by
  induction entries generalizing w with
  | nil => rfl
  | cons entry entries ih =>
    cases entry with
    | fault path fault => exact ih w
    | file path =>
      by_cases hsource : isSourcePath path = true
      · have hpath : sourcePath? (.file path) = some path := if_pos hsource
        rw [List.filterMap_cons_some hpath, List.countP_cons]
        cases hread : disk.readText path with
        | error fault =>
          simp [loadEntries, hsource, loadFile, readPath, hread, Except.mapError, ih, Except.isOk,
            Except.toBool]
        | ok text =>
          simp [loadEntries, hsource, loadFile, readPath, hread, Except.mapError, ih, Except.isOk,
            Except.toBool]
      · have hpath : sourcePath? (.file path) = none := if_neg hsource
        rw [List.filterMap_cons_none hpath, ← ih w]
        simp only [loadEntries, hsource, Bool.not_false, if_true]

/-- Loading a directory installs its batch. -/
theorem loadDirectory_eq (w : Workspace) :
    (w.loadDirectory parse disk root writeable).workspace =
      (batchBelow parse disk writeable root).foldl reload w := by
  rw [workspace_loadDirectory, foldl_loadFile_eq, batchBelow]

/-- Loading a directory answers how many of its source files can be read and are text. -/
theorem result_loadDirectory (w : Workspace) :
    (w.loadDirectory parse disk root writeable).result =
      .ok ((sourcesBelow disk root).countP fun path => disk.IsText path) := by
  simp only [Disk.isText_iff_isOk, Bool.decide_eq_true]
  exact congrArg Except.ok (fst_loadEntries parse writeable (disk.visit root) w)

/-! ## Different files -/

theorem sourcePath?_eq_some {entry : DiskEntry} (h : sourcePath? entry = some path) :
    entry = .file path := by
  cases entry with
  | file path' =>
    obtain ⟨-, hpath⟩ := Option.ite_none_right_eq_some.1 h
    exact congrArg DiskEntry.file (Option.some.inj hpath)
  | fault path' fault => exact nomatch h

/-- The source files of a visit are those whose name ends in `.elm`, after something else. -/
theorem mem_sourcesBelow_iff : path ∈ sourcesBelow disk root ↔
    (∃ content, disk.Visits root path content) ∧
      ∃ stem, stem ≠ [] ∧ Path.fileName path = stem ++ ".elm".toList := by
  have hsource : isSourcePath path = true ↔
      ∃ stem, stem ≠ [] ∧ Path.fileName path = stem ++ ".elm".toList := by
    rw [isSourcePath, decide_eq_true_iff, Path.extension?_eq_some_iff (by decide)]
    exact and_iff_right (by decide)
  rw [← Disk.file_mem_visit_iff, ← hsource, sourcesBelow, List.mem_filterMap]
  constructor
  · rintro ⟨entry, hentry, hpath⟩
    obtain rfl := sourcePath?_eq_some hpath
    exact ⟨hentry, (Option.ite_none_right_eq_some.1 hpath).1⟩
  · rintro ⟨hentry, hsource⟩
    exact ⟨_, hentry, if_pos hsource⟩

theorem nodup_sourcesBelow (hd : disk.WellFormed) (root : Text) :
    ((sourcesBelow disk root).map (FileId.ofPath disk.workingDirectory)).Nodup := by
  rw [List.Nodup, List.pairwise_map, sourcesBelow, List.pairwise_filterMap]
  refine (Disk.pairwise_visit hd root).imp fun hne p hp q hq => ?_
  exact hne p q (sourcePath?_eq_some hp) (sourcePath?_eq_some hq)

/-- The sources of a directory may be installed in any order if their modules are different. -/
theorem pairwise_apart (hd : disk.WellFormed)
    (hmodules : ((batchBelow parse disk writeable root).filterMap Source.moduleName?).Nodup) :
    (batchBelow parse disk writeable root).Pairwise Apart := by
  have hfiles : (batchBelow parse disk writeable root).Pairwise fun s t => s.file ≠ t.file := by
    rw [batchBelow, List.pairwise_filterMap]
    have hnodup := nodup_sourcesBelow hd root
    rw [List.Nodup, List.pairwise_map] at hnodup
    refine hnodup.imp fun {p q} hne s hs t ht => ?_
    rw [file_of_loaded? hs, file_of_loaded? ht]
    exact hne
  rw [List.Nodup, List.pairwise_filterMap] at hmodules
  refine (hfiles.and hmodules).imp fun {s t} h => ⟨h.1, fun name hs ht => ?_⟩
  exact h.2 name hs name ht rfl

theorem perm_sourcesBelow (h : Disk.Reordered disk disk') (hd : disk.WellFormed) (root : Text) :
    (sourcesBelow disk' root).Perm (sourcesBelow disk root) := (h.perm_visit hd root).filterMap _

theorem perm_batchBelow (h : Disk.Reordered disk disk') (hd : disk.WellFormed)
    (parse : Text → Tree) (writeable : Bool) (root : Text) :
    (batchBelow parse disk' writeable root).Perm (batchBelow parse disk writeable root) := by
  have hload : loaded? parse disk' writeable = loaded? parse disk writeable := by
    funext path
    rw [loaded?, h.readText_eq hd, h.workingDirectory, loaded?]
  rw [batchBelow, hload]
  exact (perm_sourcesBelow h hd root).filterMap _

/-! ## The files of a directory -/

/-- A file of a directory that reads as a text is installed with it. -/
theorem entry?_loadDirectory_of_readText (hd : disk.WellFormed)
    (hmodules : ((batchBelow parse disk writeable root).filterMap Source.moduleName?).Nodup)
    (hpath : path ∈ sourcesBelow disk root) {text : Text} (hread : disk.readText path = .ok text) :
    let s : Source :=
      ⟨FileId.ofPath disk.workingDirectory path, text, parse text, writeable, false⟩
    entry? (w.loadDirectory parse disk root writeable).workspace s.file =
      some ⟨s, w.isOpen s.file, ModuleHeader.ofSource s⟩ := by
  intro s
  have hs : s ∈ batchBelow parse disk writeable root :=
    List.mem_filterMap.2 ⟨path, hpath, loaded?_of_readText hread⟩
  rw [loadDirectory_eq w]
  exact entry?_foldl_reload_of_mem (pairwise_apart hd hmodules) hs

/-- A file of a directory that does not read as a text is left alone. -/
theorem entry?_loadDirectory_of_fault (hd : disk.WellFormed)
    (hpath : path ∈ sourcesBelow disk root) {fault : DiskFault}
    (hread : disk.readText path = .error fault) :
    entry? (w.loadDirectory parse disk root writeable).workspace
      (FileId.ofPath disk.workingDirectory path) =
      w.entry? (FileId.ofPath disk.workingDirectory path) := by
  rw [loadDirectory_eq w]
  refine entry?_foldl_reload_of_forall_ne fun s hs heq => ?_
  -- No other path of the directory is a path of this file.
  obtain ⟨p, hp, hload⟩ := List.mem_filterMap.1 hs
  rw [file_of_loaded? hload] at heq
  obtain rfl := List.inj_on_of_nodup_map (nodup_sourcesBelow hd root) hpath hp heq
  rw [loaded?_eq_none hread] at hload
  cases hload

end Workspace

namespace Sample

/-- The file of a path from the root, or from a working directory that is the root. -/
def fileAt (path : String) : FileId := FileId.ofPath (some []) path.toList

/-- Before the visit the main file declares the module that another file will declare. -/
def beforeVisit : List Workspace.Change :=
  [.install { shapes with file := fileAt "/src/Main.elm" } true]

/-- Two modules, a source file that is no text and one that cannot be read, a note, and a directory
that cannot be listed. -/
def projectDisk : Disk where
  nodes :=
    [(["src".toList, "Main.elm".toList], .file (.ok (Text.encode importer.text))),
      (["src".toList, "Broken.elm".toList], .file (.ok [0xFF])),
      (["src".toList, "Secret.elm".toList], .file (.error "Permission denied (os error 13)")),
      (["src".toList, "note.txt".toList], .file (.ok (Text.encode "ab".toList))),
      (["src".toList, "locked".toList], .directory (some "Permission denied (os error 13)")),
      (["src".toList, "locked".toList, "Hidden.elm".toList], .file (.ok [])),
      (["src".toList, "Shapes.elm".toList], .file (.ok (Text.encode shapes.text)))]
  workingDirectory := some []

/-- The same disk, visited from the other end. -/
def projectDiskReversed : Disk := { projectDisk with nodes := projectDisk.nodes.reverse }

/-- A parser that knows the texts of two modules. -/
def projectParse (t : Text) : Tree :=
  if t = importer.text then importer.tree else if t = shapes.text then shapes.tree else bareParse t

theorem wellFormed_projectDisk : projectDisk.WellFormed where
  nodup := by decide +kernel
  isName := by decide +kernel
  workingDirectory := by decide +kernel

/-- From a relative root, of the four source files that the visit comes across two are loaded. -/
theorem sourcesBelow_projectDisk :
    (Workspace.sourcesBelow projectDisk "src".toList).map String.ofList =
        ["src/Main.elm", "src/Broken.elm", "src/Secret.elm", "src/Shapes.elm"] ∧
      ((Workspace.sourcesBelow projectDisk "src".toList).countP fun path =>
        projectDisk.IsText path) = 2 ∧
      ((Workspace.batchBelow projectParse projectDisk true
        "src".toList).filterMap Source.moduleName?).Nodup := by
  refine ⟨?_, ?_, ?_⟩
  all_goals decide +kernel

end Sample

namespace Workspace

/-- **The order of the visit does not matter.** If no two of the source files of a directory that
can be read declare the same module, then loading the directory comes to the same whichever way the
disk lists what stands on it: the same number of loaded files, which is the number of those that can
be read and are text, the same entry for every file, and the same files and the same source under
every module name. The source files of the directory are those with `.elm` at the end of their names
that stand behind directories that can be listed; they are different files. Each of them that can
be read and is text is installed with that text, as a file of the project or of a dependency as the
call says, and is open if its entry was before; any other keeps whatever entry it had. The root may
be absolute or relative, and what cannot be visited at all is passed over. -/
theorem loadDirectory_reordered {parse : Text → Tree} {disk disk' : Disk} {writeable : Bool}
    {root : Text} (changes : List Change) (hd : disk.WellFormed) (h : disk.Reordered disk')
    (hmodules : ((batchBelow parse disk writeable root).filterMap Source.moduleName?).Nodup) :
    let w := run changes
    let u := w.loadDirectory parse disk root writeable
    let u' := w.loadDirectory parse disk' root writeable
    let count := (sourcesBelow disk root).countP fun path => disk.IsText path
    u.result = .ok count ∧ u'.result = .ok count ∧
      (∀ f, u'.workspace.entry? f = u.workspace.entry? f) ∧
      (∀ name, u'.workspace.filesOf name = u.workspace.filesOf name ∧
        u'.workspace.module? name = u.workspace.module? name) ∧
      (∀ path, path ∈ sourcesBelow disk root ↔ (∃ content, disk.Visits root path content) ∧
        ∃ stem, stem ≠ [] ∧ Path.fileName path = stem ++ ".elm".toList) ∧
      ((sourcesBelow disk root).map (FileId.ofPath disk.workingDirectory)).Nodup ∧
      ∀ path ∈ sourcesBelow disk root,
        let file := FileId.ofPath disk.workingDirectory path
        (∀ content, disk.Visits root path content →
          disk.read path = content.mapError .refused) ∧
        (∀ text, disk.read path = .ok (Text.encode text) →
          let s : Source := ⟨file, text, parse text, writeable, false⟩
          u.workspace.entry? file =
            some ⟨s, (w.entry? file).any fun e => e.isOpen, ModuleHeader.ofSource s⟩) ∧
        (¬disk.IsText path → u.workspace.entry? file = w.entry? file) := by
  intro w u u' count
  have hperm := perm_batchBelow h hd parse writeable root
  have hagrees : Agrees u.workspace u'.workspace := by
    rw [loadDirectory_eq w, loadDirectory_eq w]
    exact (orderly_run changes).agrees_foldl_reload hperm.symm (pairwise_apart hd hmodules)
  refine ⟨result_loadDirectory w, ?_, hagrees.entry?,
    fun name => ⟨hagrees.filesOf name, hagrees.module? name⟩, fun path => mem_sourcesBelow_iff,
    nodup_sourcesBelow hd root, fun path hpath => ⟨fun content hvisits => hvisits.read_eq hd,
      fun text hread => ?_, fun hfault => ?_⟩⟩
  · rw [result_loadDirectory, (perm_sourcesBelow h hd root).countP_eq]
    simp only [h.isText_iff hd, count]
  · exact entry?_loadDirectory_of_readText hd hmodules hpath (Disk.readText_eq_ok_iff.2 hread)
  · cases hread : disk.readText path with
    | error fault => exact entry?_loadDirectory_of_fault hd hpath hread
    | ok text => exact absurd ⟨text, Disk.readText_eq_ok_iff.1 hread⟩ hfault

/-- The main file gives up the module `Shapes` while another file takes it. -/
theorem loadDirectory_reordered_project :
    let w := run Sample.beforeVisit
    let u := w.loadDirectory Sample.projectParse Sample.projectDisk "src".toList true
    let u' := w.loadDirectory Sample.projectParse Sample.projectDiskReversed "src".toList true
    u.result = .ok 2 ∧ u'.result = .ok 2 ∧
      u.workspace.filesOf "Shapes" = [Sample.fileAt "/src/Shapes.elm"] ∧
      u'.workspace.filesOf "Shapes" = u.workspace.filesOf "Shapes" ∧
      u'.workspace.entry? (Sample.fileAt "/src/Main.elm") =
        u.workspace.entry? (Sample.fileAt "/src/Main.elm") := by
  intro w u u'
  have h : Sample.projectDisk.Reordered Sample.projectDiskReversed := ⟨List.reverse_perm _, rfl⟩
  obtain ⟨-, hcount, hmodules⟩ := Sample.sourcesBelow_projectDisk
  obtain ⟨hresult, hresult', hentries, hfiles, -⟩ :=
    loadDirectory_reordered Sample.beforeVisit Sample.wellFormed_projectDisk h hmodules
  rw [hcount] at hresult hresult'
  exact ⟨hresult, hresult', by decide +kernel, (hfiles "Shapes").1, hentries _⟩

end Workspace
end ElmScope
