import ElmScope.Proofs.Documents.Mirror
import ElmScope.Proofs.Register.Order
/-!
# The files of a session

A session is a run of operations on one disk: calls, and changes made directly. Of the workspace, a
call on one file reads the entry of that file only, and it comes to at most one change, of that file
(`Call.change?`); loading a directory is loading its files one by one (`Operation.parts`). So no
file of a session sees the others: its entry is the one it gets when the operations on it run alone.

A source that a call installs has the tree of its own text, whatever the workspace was. It keeps it
until something else is installed for the file.

* `Call.apply_eq` — what a call on one file does to a workspace
* `Operation.entry?_apply_congr` — what an operation makes of an entry hangs on that entry alone
* `session_separate` — the entry of a file after a session
-/
namespace ElmScope
namespace Workspace

/-- One operation of a session. -/
inductive Operation where
  | call (c : Call)
  | change (c : Change)

/-! ## Calls as changes -/

namespace Call

/-- The file that a call is about. A directory is about many. -/
def file? (disk : Disk) : Call → Option FileId
  | openDocument uri _ | changeDocument uri _ _ | closeDocument uri => some (FileId.ofUri uri)
  | loadFile path _ => some (FileId.ofPath disk.workingDirectory path)
  | loadDirectory _ _ => none

section
variable (parse : Text → Tree) (disk : Disk) (w : Workspace)

/-- The change that a call on one file comes to. One that fails comes to none. -/
def change? : Call → Option Change
  | openDocument uri text =>
    let file := FileId.ofUri uri
    some (.install ⟨file, text, parse text, (w.source? file).all Source.writeable, false⟩ true)
  | changeDocument uri _ edits =>
    let file := FileId.ofUri uri
    (w.document disk file).toOption.bind fun d =>
      (d.text.editAll? edits).map fun text =>
        .install ⟨file, text, parse text, d.writeable, false⟩ d.isOpen
  | closeDocument uri => some (.setOpen (FileId.ofUri uri) false)
  | loadFile path writeable =>
    let file := FileId.ofPath disk.workingDirectory path
    (readPath disk path).toOption.map fun text =>
      .install ⟨file, text, parse text, writeable, false⟩ (w.isOpen file)
  | loadDirectory _ _ => none

end

variable {parse : Text → Tree} {disk : Disk} {w w' : Workspace} {c : Call} {d : Change}
  {file : FileId}

/-- A call on one file changes the workspace by the change it comes to, if it comes to one. -/
theorem apply_eq (h : (c.file? disk).isSome) :
    c.apply parse disk w = (c.change? parse disk w).elim w fun d => d.apply w := by
  cases c with
  | openDocument uri text | closeDocument uri => rfl
  | loadDirectory root writeable => exact nomatch h
  | loadFile path writeable =>
    simp only [apply, Workspace.loadFile, change?]
    cases readPath disk path <;> rfl
  | changeDocument uri version edits =>
    simp only [apply, Workspace.changeDocument, change?]
    cases w.document disk (FileId.ofUri uri) with
    | error failure => rfl
    | ok document =>
      simp only [Except.toOption, Option.bind_some]
      cases document.text.editAll? edits <;> rfl

theorem file?_of_change? (h : c.change? parse disk w = some d) :
    c.file? disk = some d.file := by
  cases c with
  | openDocument uri text | closeDocument uri =>
    obtain rfl := Option.some.inj h
    rfl
  | loadDirectory root writeable => exact nomatch h
  | loadFile path writeable =>
    obtain ⟨text, -, rfl⟩ := Option.map_eq_some_iff.1 h
    rfl
  | changeDocument uri version edits =>
    obtain ⟨document, -, h⟩ := Option.bind_eq_some_iff.1 h
    obtain ⟨text, -, rfl⟩ := Option.map_eq_some_iff.1 h
    rfl

/-- What a call comes to hangs on the entry of its file alone. -/
theorem change?_congr (hc : c.file? disk = some file) (h : w'.entry? file = w.entry? file) :
    c.change? parse disk w' = c.change? parse disk w := by
  cases c with
  | openDocument uri text =>
    obtain rfl := Option.some.inj hc
    simp only [change?, source?, h]
  | closeDocument uri => rfl
  | loadDirectory root writeable => cases hc
  | loadFile path writeable =>
    obtain rfl := Option.some.inj hc
    simp only [change?, Workspace.isOpen, h]
  | changeDocument uri version edits =>
    obtain rfl := Option.some.inj hc
    simp only [change?, document, h]

/-- A source that a call installs has the tree of its text. -/
theorem tree_eq_of_change? {s : Source} {isOpen : Bool}
    (h : c.change? parse disk w = some (.install s isOpen)) : s.tree = parse s.text := by
  cases c with
  | openDocument uri text =>
    obtain ⟨rfl, -⟩ := Change.install.inj (Option.some.inj h)
    rfl
  | closeDocument uri => exact nomatch Option.some.inj h
  | loadDirectory root writeable => exact nomatch h
  | loadFile path writeable =>
    obtain ⟨text, -, h⟩ := Option.map_eq_some_iff.1 h
    obtain ⟨rfl, -⟩ := Change.install.inj h
    rfl
  | changeDocument uri version edits =>
    obtain ⟨document, -, h⟩ := Option.bind_eq_some_iff.1 h
    obtain ⟨text, -, h⟩ := Option.map_eq_some_iff.1 h
    obtain ⟨rfl, -⟩ := Change.install.inj h
    rfl

end Call

/-- What a change makes of the entry of its file hangs on that entry alone. -/
theorem entry?_apply_congr {w w' : Workspace} {c : Change}
    (h : w'.entry? c.file = w.entry? c.file) :
    entry? (c.apply w') c.file = entry? (c.apply w) c.file := by
  cases c with
  | install s isOpen =>
    rw [Change.apply, Change.apply, Change.file, entry?_install_self, entry?_install_self]
  | remove file =>
    rw [Change.apply, Change.apply, Change.file, entry?_remove_self, entry?_remove_self]
  | setOpen file isOpen =>
    rw [Change.file] at h
    rw [Change.apply, Change.apply, Change.file]
    cases he : w.entry? file with
    | none => rw [setOpen, h.trans he, setOpen, he]; exact h
    | some e => rw [entry?_setOpen_self he, entry?_setOpen_self (h.trans he)]

/-! ## Operations -/

namespace Operation

/-- The file that an operation is about. -/
def file? (disk : Disk) : Operation → Option FileId
  | call c => c.file? disk
  | change c => some c.file

section
variable (parse : Text → Tree) (disk : Disk) (w : Workspace)

/-- The workspace after an operation. -/
def apply : Operation → Workspace
  | call c => c.apply parse disk w
  | change c => c.apply w

/-- The change that an operation on one file comes to. -/
def change? : Operation → Option Change
  | call c => c.change? parse disk w
  | change c => some c

/-- The operations on one file each that make up an operation. -/
def parts : Operation → List Operation
  | call (.loadDirectory root writeable) =>
    (sourcesBelow disk root).map fun path => call (.loadFile path writeable)
  | op => [op]

end

variable {parse : Text → Tree} {disk : Disk} {w w' : Workspace} {op part : Operation}
  {file : FileId}

theorem apply_eq (h : (op.file? disk).isSome) :
    op.apply parse disk w = (op.change? parse disk w).elim w fun d => d.apply w := by
  cases op with
  | call c => exact Call.apply_eq h
  | change c => rfl

theorem file?_of_change? {d : Change} (h : op.change? parse disk w = some d) :
    op.file? disk = some d.file := by
  cases op with
  | call c => exact Call.file?_of_change? h
  | change c => rw [Option.some.inj h, file?]

theorem entry?_apply_of_ne {f : FileId} (hop : op.file? disk = some f) (hne : file ≠ f) :
    entry? (op.apply parse disk w) file = w.entry? file := by
  rw [apply_eq (by simp [hop])]
  cases hd : op.change? parse disk w with
  | none => rfl
  | some d =>
    obtain rfl := Option.some.inj (hop.symm.trans (file?_of_change? hd))
    exact Workspace.entry?_apply_of_ne hne

theorem entry?_apply_congr (hop : op.file? disk = some file) (h : w'.entry? file = w.entry? file) :
    entry? (op.apply parse disk w') file = entry? (op.apply parse disk w) file := by
  have hchange : op.change? parse disk w' = op.change? parse disk w := by
    cases op with
    | call c => exact Call.change?_congr hop h
    | change c => rfl
  rw [apply_eq (by simp [hop]), apply_eq (by simp [hop]), hchange]
  cases hd : op.change? parse disk w with
  | none => exact h
  | some d =>
    obtain rfl := Option.some.inj (hop.symm.trans (file?_of_change? hd))
    exact Workspace.entry?_apply_congr h

theorem isSome_file?_of_mem_parts (h : part ∈ op.parts disk) :
    (part.file? disk).isSome := by
  unfold parts at h
  split at h
  · obtain ⟨path, -, rfl⟩ := List.mem_map.1 h
    rfl
  · next hop =>
    obtain rfl := List.mem_singleton.1 h
    cases part with
    | change c => rfl
    | call c =>
      cases c with
      | loadDirectory root writeable => exact absurd rfl (hop root writeable)
      | _ => rfl

/-- An operation does what its parts do in turn. -/
theorem foldl_parts : (op.parts disk).foldl (apply parse disk) w = op.apply parse disk w := by
  unfold parts
  split
  · next root writeable =>
    rw [List.foldl_map]
    exact workspace_loadDirectory.symm
  · rfl

end Operation

/-! ## Sessions -/

section
variable (parse : Text → Tree) (disk : Disk)

/-- The workspace after a session, from the one without files. -/
def session (ops : List Operation) : Workspace := ops.foldl (Operation.apply parse disk) ∅

/-- Whether an operation on one file installs a source for a file. -/
def Operation.installs (w : Workspace) (file : FileId) (op : Operation) : Bool :=
  (op.change? parse disk w).any fun
    | .install s _ => s.file = file
    | _ => false

/-- The operation of a run that installed a source for a file last. -/
def lastInstall? (file : FileId) : Workspace → List Operation → Option Operation
  | _, [] => none
  | w, op :: ops =>
    (lastInstall? file (op.apply parse disk w) ops).or
      (if op.installs parse disk w file then some op else none)

end

variable {parse : Text → Tree} {disk : Disk} {w w' : Workspace} {ops steps : List Operation}
  {op : Operation} {file : FileId} {s t : Source}

theorem session_flatMap_parts :
    session parse disk (ops.flatMap (Operation.parts disk)) = session parse disk ops := by
  rw [session, List.foldl_flatMap, session]
  congr 1
  funext w op
  exact Operation.foldl_parts

theorem isSome_file?_of_mem_steps (h : op ∈ ops.flatMap (Operation.parts disk)) :
    (op.file? disk).isSome := by
  obtain ⟨_, -, hpart⟩ := List.mem_flatMap.1 h
  exact Operation.isSome_file?_of_mem_parts hpart

/-- Two runs keep the same entry for a file, one of all operations and one of those on the file. -/
theorem entry?_foldl_filter (hsteps : ∀ op ∈ steps, (op.file? disk).isSome)
    (h : w'.entry? file = w.entry? file) :
    entry? (steps.foldl (Operation.apply parse disk) w') file =
      entry? ((steps.filter (·.file? disk = some file)).foldl (Operation.apply parse disk) w) file := by
  induction steps generalizing w w' with
  | nil => exact h
  | cons op steps ih =>
    obtain ⟨hop, hrest⟩ := List.forall_mem_cons.1 hsteps
    by_cases hfile : op.file? disk = some file
    · rw [List.filter_cons_of_pos (by simpa using hfile), List.foldl_cons, List.foldl_cons]
      exact ih hrest (Operation.entry?_apply_congr hfile h)
    · rw [List.filter_cons_of_neg (by simpa using hfile), List.foldl_cons]
      obtain ⟨f, hf⟩ := Option.isSome_iff_exists.1 hop
      have hne : file ≠ f := fun heq => hfile (heq ▸ hf)
      exact ih hrest ((Operation.entry?_apply_of_ne hf hne).trans h)

/-- A session of operations on one file each is a run of changes. -/
theorem exists_run_eq_session (parse : Text → Tree) (disk : Disk)
    (hsteps : ∀ op ∈ steps, (op.file? disk).isSome) :
    ∃ changes, session parse disk steps = run changes := by
  induction steps using List.reverseRecOn with
  | nil => exact ⟨[], rfl⟩
  | append_singleton steps op ih =>
    obtain ⟨changes, hrun⟩ := ih fun op' h => hsteps op' (List.mem_append_left _ h)
    have hop := hsteps op (List.mem_append_right _ (List.mem_singleton_self op))
    have hlast : session parse disk (steps ++ [op]) = op.apply parse disk (run changes) := by
      rw [session, List.foldl_append, ← hrun]
      rfl
    rw [hlast, Operation.apply_eq hop]
    cases op.change? parse disk (run changes) with
    | none => exact ⟨changes, rfl⟩
    | some c => exact ⟨changes ++ [c], (run_concat changes c).symm⟩

/-! ## Sources and their trees -/

/-- What a file holds after an operation that installs nothing for it, it held before. -/
theorem source?_of_not_installs (hop : (op.file? disk).isSome)
    (h : ¬op.installs parse disk w file = true)
    (ht : (op.apply parse disk w).source? file = some t) : w.source? file = some t := by
  rw [Operation.apply_eq hop] at ht
  rw [Operation.installs] at h
  cases hc : op.change? parse disk w with
  | none => rwa [hc] at ht
  | some c =>
    rw [hc] at ht h
    cases c with
    | install s isOpen =>
      have hne : file ≠ s.file := fun heq => h (decide_eq_true heq.symm)
      exact (source?_install_of_ne hne).symm.trans ht
    | setOpen f isOpen => exact source?_setOpen.symm.trans ht
    | remove f =>
      have hne : file ≠ f := by
        rintro rfl
        rw [Option.elim_some, Change.apply, source?, entry?_remove_self] at ht
        cases ht
      exact (source?_remove_of_ne hne).symm.trans ht

theorem source?_of_lastInstall?_eq_none (hsteps : ∀ op ∈ steps, (op.file? disk).isSome)
    (h : lastInstall? parse disk file w steps = none)
    (ht : (steps.foldl (Operation.apply parse disk) w).source? file = some t) :
    w.source? file = some t := by
  induction steps generalizing w with
  | nil => exact ht
  | cons op steps ih =>
    obtain ⟨hop, hrest⟩ := List.forall_mem_cons.1 hsteps
    obtain ⟨hlater, hhere⟩ := Option.or_eq_none_iff.1 h
    refine source?_of_not_installs hop (fun hin => ?_) (ih hrest hlater ht)
    rw [if_pos hin] at hhere
    exact nomatch hhere

/-- What a call was the last to install has the tree of its text. -/
theorem tree_eq_of_lastInstall? {c : Call} (hsteps : ∀ op ∈ steps, (op.file? disk).isSome)
    (h : lastInstall? parse disk file w steps = some (.call c))
    (ht : (steps.foldl (Operation.apply parse disk) w).source? file = some t) :
    t.tree = parse t.text := by
  induction steps generalizing w with
  | nil => exact nomatch h
  | cons op steps ih =>
    obtain ⟨hop, hrest⟩ := List.forall_mem_cons.1 hsteps
    rcases Option.or_eq_some_iff.1 h with hlater | ⟨hlater, hhere⟩
    · exact ih hrest hlater ht
    · obtain ⟨hin, heq⟩ := Option.ite_none_right_eq_some.1 hhere
      obtain rfl := Option.some.inj heq
      have ht' := source?_of_lastInstall?_eq_none hrest hlater ht
      obtain ⟨d, hd, hinstall⟩ := Option.any_eq_true _ _ |>.1 hin
      rw [Operation.apply_eq hop, hd] at ht'
      cases d with
      | install s isOpen =>
        obtain rfl : s.file = file := of_decide_eq_true hinstall
        obtain rfl := Option.some.inj (source?_install_self.symm.trans ht')
        exact Call.tree_eq_of_change? hd
      | setOpen f isOpen => exact nomatch hinstall
      | remove f => exact nomatch hinstall

end Workspace

namespace Sample

/-- A module is opened, the directory it lies in is loaded, and a note is opened beside it. -/
def busyDay : List Workspace.Operation :=
  [.call (.openDocument mainUri "x = 1\n".toList), .call (.loadDirectory "/src".toList true),
    .call (.openDocument noteUri "ab".toList)]

end Sample

namespace Workspace

/-- **The files of a session do not touch each other.** After any session the entry of a file is the
one it gets when the operations on that file, a directory taken as the files loaded from it, run
alone from the workspace without files. It is an entry of that file with the header of its source,
and if the last operation that installed the file was a call, the tree of the source is that of
exactly its text. -/
theorem session_separate (parse : Text → Tree) (disk : Disk) (ops : List Operation)
    (file : FileId) :
    let steps := ops.flatMap (Operation.parts disk)
    let w := session parse disk ops
    w.entry? file = entry? (session parse disk (steps.filter (·.file? disk = some file))) file ∧
      ∀ e, w.entry? file = some e →
        e.source.file = file ∧ e.header = ModuleHeader.ofSource e.source ∧
          ∀ c, lastInstall? parse disk file ∅ steps = some (.call c) →
            e.source.tree = parse e.source.text := by
  intro steps w
  have hsteps : ∀ op ∈ steps, (op.file? disk).isSome := fun op => isSome_file?_of_mem_steps
  have hw : w = session parse disk steps := session_flatMap_parts.symm
  obtain ⟨changes, hrun⟩ := exists_run_eq_session parse disk hsteps
  rw [hw]
  refine ⟨entry?_foldl_filter hsteps rfl, fun e he => ?_⟩
  have o := orderly_run changes
  rw [← hrun] at o
  obtain ⟨hfile, hheader⟩ := o.entries file e he
  refine ⟨hfile, hheader, fun c hc => tree_eq_of_lastInstall? hsteps hc ?_⟩
  change (session parse disk steps).source? file = some e.source
  rw [source?, he, Option.map_some]

/-- The directory is the last to bring the module, with the text on the disk and its tree. -/
theorem session_separate_busyDay :
    let file := FileId.ofUri Sample.mainUri
    let w := session Sample.bareParse Sample.mainDisk Sample.busyDay
    ∃ e, w.entry? file = some e ∧
      lastInstall? Sample.bareParse Sample.mainDisk file ∅
        (Sample.busyDay.flatMap (Operation.parts Sample.mainDisk)) =
          some (.call (.loadFile "/src/Main.elm".toList true)) ∧
      e.source.tree = Sample.bareParse e.source.text := by
  intro file w
  have hlast : lastInstall? Sample.bareParse Sample.mainDisk file ∅
      (Sample.busyDay.flatMap (Operation.parts Sample.mainDisk)) =
        some (.call (.loadFile "/src/Main.elm".toList true)) := rfl
  have hsome : (w.entry? file).isSome := by decide +kernel
  obtain ⟨e, he⟩ := Option.isSome_iff_exists.1 hsome
  obtain ⟨-, hentries⟩ := session_separate Sample.bareParse Sample.mainDisk Sample.busyDay file
  exact ⟨e, he, hlast, (hentries e he).2.2 _ hlast⟩

end Workspace
end ElmScope
