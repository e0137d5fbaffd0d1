import ElmScope.Proofs.Documents.Change
/-!
# Open documents and their editors

While an editor has a document open, it holds a text of its own, its buffer. Here the buffer of one
file is followed along a run of calls, next to the workspace: opening the document sets it, every
report of changes that succeeds edits it, closing the document ends it. Loads are no business of
the editor and leave it.

The workspace mirrors the editor when it holds the text of the buffer. Every call keeps this up,
but for a load that brings another text for the file (`Mirrors.after_iff`): a load takes the text
of the disk, whether an editor has the file open or not.

* `text?_loadFile`, `text?_loadDirectory` — what a load does to the text of a file
* `workspace_loadDirectory` — a directory is loaded file by file
* `Session.mirrors_run_iff` — along which runs the workspace mirrors the editor at every point
-/
namespace ElmScope
namespace Workspace

/-- The text of a file. -/
def text? (w : Workspace) (file : FileId) : Option Text := (w.source? file).map Source.text

section
variable {w : Workspace} {s : Source} {isOpen : Bool} {file : FileId}

theorem text?_install : (w.install s isOpen).text? file =
    if s.file = file then some s.text else w.text? file := by
  split
  · next h =>
    subst h
    rw [text?, source?_install_self]
    rfl
  · next h => rw [text?, source?_install_of_ne (Ne.symm h), text?]

@[simp] theorem text?_setOpen {f : FileId} : (w.setOpen f isOpen).text? file = w.text? file := by
  simp [text?]

end

/-! ## What a load brings -/

/-- The text that a load from a path brings for a file: that of the disk, if the path is one of
the file and can be read. -/
def broughtFrom? (disk : Disk) (file : FileId) (path : Text) : Option Text :=
  if FileId.ofPath disk.workingDirectory path = file then (readPath disk path).toOption else none

/-- The path of a source file that a visit comes across. -/
def sourcePath? : DiskEntry → Option Text
  | .file path => if isSourcePath path then some path else none
  | .fault _ _ => none

/-- The paths of the source files that a visit of a directory comes across, in the order of the
visit. -/
def sourcesBelow (disk : Disk) (root : Text) : List Text :=
  (disk.visit root).filterMap sourcePath?

section
variable {parse : Text → Tree} {disk : Disk} {w : Workspace} {file : FileId} {path : Text}
  {writeable : Bool}

theorem text?_loadFile : (w.loadFile parse disk path writeable).workspace.text? file =
    (broughtFrom? disk file path).or (w.text? file) := by
  unfold loadFile broughtFrom?
  cases hread : readPath disk path with
  | error failure => simp [Except.toOption]
  | ok text =>
    simp only [text?_install, Except.toOption]
    split <;> simp

theorem snd_loadEntries (parse : Text → Tree) (writeable : Bool) (entries : List DiskEntry)
    (w : Workspace) : (loadEntries parse disk writeable entries w).2.1 =
      (entries.filterMap sourcePath?).foldl
        (fun w path => (w.loadFile parse disk path writeable).workspace) w := by
  induction entries generalizing w with
  | nil => rfl
  | cons entry entries ih =>
    cases entry with
    | fault path fault => exact ih w
    | file path =>
      by_cases hsource : isSourcePath path = true
      · have hpath : sourcePath? (.file path) = some path := if_pos hsource
        rw [List.filterMap_cons_some hpath, List.foldl_cons, ← ih]
        simp only [loadEntries, hsource, Bool.not_true, Bool.false_eq_true, if_false]
        split <;> rfl
      · have hpath : sourcePath? (.file path) = none := if_neg hsource
        rw [List.filterMap_cons_none hpath, ← ih]
        simp only [loadEntries, hsource, Bool.not_false, if_true]

/-- Loading a directory is loading its source files one by one. -/
theorem workspace_loadDirectory {root : Text} :
    (w.loadDirectory parse disk root writeable).workspace = (sourcesBelow disk root).foldl
      (fun w path => (w.loadFile parse disk path writeable).workspace) w :=
  snd_loadEntries parse writeable (disk.visit root) w

/-- Of the files that are loaded in turn, the last one that brings a text for a file counts. -/
theorem text?_foldl_loadFile (parse : Text → Tree) (writeable : Bool) (paths : List Text) :
    text? (paths.foldl (fun w path => (w.loadFile parse disk path writeable).workspace) w) file =
      (paths.reverse.findSome? (broughtFrom? disk file)).or (w.text? file) := by
  induction paths generalizing w with
  | nil => rfl
  | cons path paths ih =>
    rw [List.foldl_cons, ih, text?_loadFile, List.reverse_cons, List.findSome?_append,
      Option.or_assoc]
    simp

theorem text?_loadDirectory {root : Text} :
    (w.loadDirectory parse disk root writeable).workspace.text? file =
      ((sourcesBelow disk root).reverse.findSome? (broughtFrom? disk file)).or (w.text? file) := by
  rw [workspace_loadDirectory, text?_foldl_loadFile]

end

/-! ## Calls -/

/-- One call of an operation on a workspace by an editor or for the disk. -/
inductive Call where
  | openDocument (uri : String) (text : Text)
  | changeDocument (uri : String) (version : Int) (edits : List Edit)
  | closeDocument (uri : String)
  | loadFile (path : Text) (writeable : Bool)
  | loadDirectory (root : Text) (writeable : Bool)

namespace Call

variable (parse : Text → Tree) (disk : Disk) (w : Workspace) (file : FileId)

/-- The workspace after a call. -/
def apply : Call → Workspace
  | openDocument uri text => (w.openDocument parse uri text).workspace
  | changeDocument uri version edits => (w.changeDocument parse disk uri version edits).workspace
  | closeDocument uri => (w.closeDocument uri).workspace
  | loadFile path writeable => (w.loadFile parse disk path writeable).workspace
  | loadDirectory root writeable => (w.loadDirectory parse disk root writeable).workspace

/-- The text that a call brings for a file from the disk. -/
def brings? : Call → Option Text
  | loadFile path _ => broughtFrom? disk file path
  | loadDirectory root _ => (sourcesBelow disk root).reverse.findSome? (broughtFrom? disk file)
  | _ => none

/-- The editor's buffer for a file after a call, from the one before it. An editor learns whether
a report of changes succeeded, and edits its buffer if so. -/
def bufferAfter (buffer? : Option Text) : Call → Option Text
  | openDocument uri text => if FileId.ofUri uri = file then some text else buffer?
  | changeDocument uri version edits =>
    if FileId.ofUri uri = file ∧ (w.changeDocument parse disk uri version edits).result.isOk then
      buffer?.map fun t => t.afterEdits edits
    else buffer?
  | closeDocument uri => if FileId.ofUri uri = file then none else buffer?
  | loadFile _ _ | loadDirectory _ _ => buffer?

end Call

/-- A workspace, and the buffer that an editor has for one file, if it has the file open. -/
structure Session where
  workspace : Workspace
  buffer? : Option Text

namespace Session

variable (parse : Text → Tree) (file : FileId)

/-- The session after a call, with the disk as it is at the time. -/
def after (σ : Session) (step : Disk × Call) : Session where
  workspace := step.2.apply parse step.1 σ.workspace
  buffer? := step.2.bufferAfter parse step.1 σ.workspace file σ.buffer?

/-- The session after some calls. -/
def run (σ : Session) (steps : List (Disk × Call)) : Session := steps.foldl (after parse file) σ

/-- The workspace holds what the editor has for a file. -/
def Mirrors (σ : Session) : Prop := ∀ t, σ.buffer? = some t → σ.workspace.text? file = some t

/-- Whatever a call brings for a file that an editor has open is what the editor has. -/
def Agrees (σ : Session) (step : Disk × Call) : Prop :=
  ∀ t t', σ.buffer? = some t → step.2.brings? step.1 file = some t' → t' = t

variable {parse file} {σ : Session} {disk : Disk}

theorem Mirrors.openDocument (h : σ.Mirrors file) (uri : String) (text : Text) :
    (σ.after parse file (disk, .openDocument uri text)).Mirrors file := by
  intro t ht
  simp only [after, Call.bufferAfter, Call.apply, Workspace.openDocument, text?_install] at ht ⊢
  split
  · next hf => simpa [hf] using ht
  · next hf => exact h t (by simpa [hf] using ht)

theorem Mirrors.closeDocument (h : σ.Mirrors file) (uri : String) :
    (σ.after parse file (disk, .closeDocument uri)).Mirrors file := by
  intro t ht
  simp only [after, Call.bufferAfter, Call.apply, Workspace.closeDocument, text?_setOpen] at ht ⊢
  split at ht
  · exact nomatch ht
  · exact h t ht

/-- A change of another document leaves the text of a file. -/
theorem text?_changeDocument_of_ne {w : Workspace} {uri : String} {version : Int}
    {edits : List Edit} (hne : FileId.ofUri uri ≠ file) :
    (w.changeDocument parse disk uri version edits).workspace.text? file = w.text? file := by
  simp only [Workspace.changeDocument]
  split
  · rfl
  · split
    · rfl
    · rw [text?_install, if_neg hne]

/-- A change edits buffer and document alike: it is the buffer's text that the edits are tried
on. -/
theorem Mirrors.changeDocument (h : σ.Mirrors file) (uri : String) (version : Int)
    (edits : List Edit) :
    (σ.after parse file (disk, .changeDocument uri version edits)).Mirrors file := by
  intro t ht
  simp only [after, Call.bufferAfter, Call.apply] at ht ⊢
  by_cases hf : FileId.ofUri uri = file
  · cases hb : σ.buffer? with
    | none => simp [hb] at ht
    | some t₀ =>
      have ht₀ := h t₀ hb
      simp only [text?, source?, Option.map_map, Option.map_eq_some_iff] at ht₀
      obtain ⟨e, he, rfl⟩ := ht₀
      rw [← hf] at he
      cases hedit : e.source.text.editAll? edits with
      | none =>
        obtain ⟨hresult, hw⟩ := changeDocument_of_none parse disk version he hedit
        rw [hw]
        simp only [hresult, Except.isOk, Except.toBool, Bool.false_eq_true, and_false, if_false]
          at ht
        exact h t ht
      | some t₁ =>
        obtain ⟨hresult, hw⟩ := changeDocument_of_some parse disk version he hedit
        simp only [hf, hresult, hb, Except.isOk, Except.toBool, and_self, if_true,
          Option.map_some, Option.some.injEq] at ht
        rw [hw, text?_install, changedSource, if_pos hf, Text.editAll?_eq_some hedit]
        exact congrArg some ht
  · rw [text?_changeDocument_of_ne hf]
    simp only [hf, false_and, if_false] at ht
    exact h t ht

/-- Where a call leaves the buffer and takes the text that it brings, the mirror stays if and only
if that text is the buffer's. -/
theorem Mirrors.iff_agrees_of_load (h : σ.Mirrors file) {σ' : Session} {call : Call}
    (hbuffer : σ'.buffer? = σ.buffer?)
    (htext : σ'.workspace.text? file = (call.brings? disk file).or (σ.workspace.text? file)) :
    σ'.Mirrors file ↔ σ.Agrees file (disk, call) := by
  unfold Mirrors Agrees
  rw [hbuffer, htext]
  cases hb : σ.buffer? with
  | none => simp
  | some t =>
    rw [h t hb]
    cases call.brings? disk file <;> simp

/-- A call that finds the workspace mirroring the editor leaves it so, unless it brings another
text from the disk. -/
theorem Mirrors.after_iff (h : σ.Mirrors file) (step : Disk × Call) :
    (σ.after parse file step).Mirrors file ↔ σ.Agrees file step := by
  obtain ⟨disk, call⟩ := step
  cases call with
  | openDocument uri text => exact iff_of_true (h.openDocument uri text) nofun
  | changeDocument uri version edits =>
    exact iff_of_true (h.changeDocument uri version edits) nofun
  | closeDocument uri => exact iff_of_true (h.closeDocument uri) nofun
  | loadFile path writeable => exact h.iff_agrees_of_load rfl text?_loadFile
  | loadDirectory root writeable => exact h.iff_agrees_of_load rfl text?_loadDirectory

theorem Mirrors.forall_run_iff (h : σ.Mirrors file) (steps : List (Disk × Call)) :
    (∀ k, (σ.run parse file (steps.take k)).Mirrors file) ↔
      ∀ k step, steps[k]? = some step → (σ.run parse file (steps.take k)).Agrees file step := by
  induction steps generalizing σ with
  | nil => simpa [run] using h
  | cons step steps ih =>
    constructor
    · intro hall k step' hk
      have hnext : (σ.after parse file step).Mirrors file := hall 1
      cases k with
      | zero =>
        obtain rfl : step = step' := Option.some.inj hk
        exact (h.after_iff step).1 hnext
      | succ k => exact (ih hnext).1 (fun j => hall (j + 1)) k step' hk
    · intro hall k
      have hnext : (σ.after parse file step).Mirrors file :=
        (h.after_iff step).2 (hall 0 step rfl)
      cases k with
      | zero => exact h
      | succ k => exact (ih hnext).2 (fun j step' hj => hall (j + 1) step' hj) k

/-- **When an open document mirrors its editor.** Along a run of calls from any workspace, the
workspace holds the text of the editor's buffer at every point at which the editor has the file
open, if and only if no load, made while the file is open, brings a text for it from the disk
other than the text of the buffer. -/
theorem mirrors_run_iff (parse : Text → Tree) (file : FileId) (w : Workspace)
    (steps : List (Disk × Call)) :
    let σ (k : Nat) : Session := run parse file ⟨w, none⟩ (steps.take k)
    (∀ k t, (σ k).buffer? = some t → (σ k).workspace.text? file = some t) ↔
      ∀ k disk call, steps[k]? = some (disk, call) → ∀ t t', (σ k).buffer? = some t →
        call.brings? disk file = some t' → t' = t := by
  have h : Mirrors file ⟨w, none⟩ := nofun
  refine (h.forall_run_iff steps).trans ⟨fun hall k disk call => hall k (disk, call), ?_⟩
  exact fun hall k step => hall k step.1 step.2

end Session
end Workspace

namespace Sample

def mainUri : String := "file:///src/Main.elm"

/-- A disk with one module. -/
def mainDisk : Disk where
  nodes := [(["src".toList, "Main.elm".toList],
    .file (.ok (Text.encode "module Main exposing (..)\n".toList)))]
  workingDirectory := none

/-- An editor opens the module with a declaration that is not on the disk yet, and the module is
loaded. -/
def openThenLoad : List (Disk × Workspace.Call) :=
  [(mainDisk, .openDocument mainUri "module Main exposing (..)\n\nx = 1\n".toList),
    (mainDisk, .loadFile "/src/Main.elm".toList true)]

end Sample

namespace Workspace.Session

/-- A load takes an open document away from its editor. -/
theorem not_forall_mirrors_run :
    ¬∀ (parse : Text → Tree) (file : FileId) (steps : List (Disk × Call)) (k : Nat) (t : Text),
      (run parse file ⟨∅, none⟩ (steps.take k)).buffer? = some t →
      (run parse file ⟨∅, none⟩ (steps.take k)).workspace.text? file = some t := by
  intro hall
  have hbuffer : (run Sample.bareParse (FileId.ofUri Sample.mainUri) ⟨∅, none⟩
      (Sample.openThenLoad.take 2)).buffer? =
        some "module Main exposing (..)\n\nx = 1\n".toList := by
    decide +kernel
  have htext : (run Sample.bareParse (FileId.ofUri Sample.mainUri) ⟨∅, none⟩
      (Sample.openThenLoad.take 2)).workspace.text? (FileId.ofUri Sample.mainUri) =
        some "module Main exposing (..)\n".toList := by
    decide +kernel
  exact absurd (htext.symm.trans (hall _ _ _ _ _ hbuffer)) (by decide)

end Workspace.Session
end ElmScope
