import ElmScope.Proofs.Register.Step
import ElmScope.Workspace.Update
/-!
# Reports of changes

An editor reports several edits at once. Each range is one of the text that the edits before it
left, so whether an edit can be applied is not known before those are. Here the text after some
edits is spelled out as if every edit applied (`Text.afterEdits`), along with when one does not
(`Text.Refuses`).

A report fails exactly when the text before one of its edits refuses that edit, and then the
workspace is what it was. Otherwise the document has the text after all edits, and its entry is
the one it gets when every edit is reported on its own.

* `Text.editAll?_eq_none_iff`, `Text.editAll?_eq_some` — some edits in turn
* `changeDocument_batch` — a report of some edits
-/
namespace ElmScope

namespace Text

/-- Whether an edit has a range that is no range of a text: one of its lines is not there, or it
ends before it starts. -/
def Refuses (t : Text) (e : Edit) : Prop :=
  ∃ r, e.range? = some r ∧
    (t.lines.length ≤ r.start.line.toNat ∨ t.lines.length ≤ r.stop.line.toNat ∨
      ∃ start stop, t.offsetOf? r.start = some start ∧ t.offsetOf? r.stop = some stop ∧
        stop < start)

/-- The text after an edit that it does not refuse. -/
def afterEdit (t : Text) (e : Edit) : Text :=
  match e.range? with
  | none => e.text
  | some r => t.splice ((t.offsetOf? r.start).getD 0) ((t.offsetOf? r.stop).getD 0) e.text

/-- The text after some edits in turn, if none is refused. -/
def afterEdits (t : Text) (edits : List Edit) : Text := edits.foldl afterEdit t

variable {t t' : Text} {e : Edit} {edits : List Edit} {p : Position}

@[simp] theorem afterEdits_nil : t.afterEdits [] = t := rfl

@[simp] theorem afterEdits_cons :
    t.afterEdits (e :: edits) = (t.afterEdit e).afterEdits edits := rfl

theorem offsetOf?_eq_none_iff : t.offsetOf? p = none ↔ t.lines.length ≤ p.line.toNat := by
  rw [offsetOf?, offsetAt?, Option.map_eq_none_iff, List.getElem?_eq_none_iff]

theorem edit?_eq_none_iff : t.edit? e = none ↔ t.Refuses e := by
  unfold edit? Refuses
  cases hr : e.range? with
  | none => simp
  | some r =>
    simp only [Option.map_eq_none_iff, Option.some.injEq, exists_eq_left', offsetsOf?,
      ← offsetOf?_eq_none_iff]
    cases ha : t.offsetOf? r.start with
    | none => simp
    | some start =>
      cases hb : t.offsetOf? r.stop with
      | none => simp
      | some stop => simp

theorem edit?_of_not_refuses (h : ¬t.Refuses e) : t.edit? e = some (t.afterEdit e) := by
  have hne := mt edit?_eq_none_iff.1 h
  unfold edit? at hne ⊢
  unfold afterEdit
  cases hr : e.range? with
  | none => rfl
  | some r =>
    simp only [hr, offsetsOf?] at hne ⊢
    cases ha : t.offsetOf? r.start with
    | none => simp [ha] at hne
    | some start =>
      cases hb : t.offsetOf? r.stop with
      | none => simp [ha, hb] at hne
      | some stop =>
        simp only [ha, hb] at hne ⊢
        split
        · rfl
        · next hlt => simp [hlt] at hne

theorem edit?_eq_some (h : t.edit? e = some t') : ¬t.Refuses e ∧ t' = t.afterEdit e := by
  have hno : ¬t.Refuses e := fun hr => by simp [edit?_eq_none_iff.2 hr] at h
  rw [edit?_of_not_refuses hno] at h
  exact ⟨hno, (Option.some.inj h).symm⟩

/-- Some edits do not apply exactly when one of them is refused by the text that those before it
leave. -/
theorem editAll?_eq_none_iff : t.editAll? edits = none ↔
    ∃ i e, edits[i]? = some e ∧ (t.afterEdits (edits.take i)).Refuses e := by
  induction edits generalizing t with
  | nil => simp [editAll?]
  | cons e edits ih =>
    rw [editAll?, List.foldlM_cons]
    by_cases hr : t.Refuses e
    · refine iff_of_true ?_ ⟨0, e, rfl, hr⟩
      rw [edit?_eq_none_iff.2 hr]
      rfl
    · rw [edit?_of_not_refuses hr]
      refine ih.trans ⟨fun ⟨i, e', he', hrefused⟩ => ⟨i + 1, e', he', hrefused⟩, ?_⟩
      rintro ⟨i, e', he', hrefused⟩
      cases i with
      | zero =>
        obtain rfl : e = e' := Option.some.inj he'
        exact absurd hrefused hr
      | succ i => exact ⟨i, e', he', hrefused⟩

theorem editAll?_eq_some (h : t.editAll? edits = some t') : t' = t.afterEdits edits := by
  induction edits generalizing t with
  | nil => exact (Option.some.inj h).symm
  | cons e edits ih =>
    rw [editAll?, List.foldlM_cons] at h
    obtain ⟨t₁, h₁, h₂⟩ := Option.bind_eq_some_iff.1 h
    obtain ⟨-, rfl⟩ := edit?_eq_some h₁
    exact ih h₂

end Text

namespace Workspace

variable (parse : Text → Tree) (disk : Disk) (version : Int) {w : Workspace} {uri : String}
  {edits : List Edit} {e : Entry} {t : Text}

/-- The source that a change leaves where its document was. -/
def changedSource (uri : String) (e : Entry) (t : Text) : Source :=
  ⟨FileId.ofUri uri, t, parse t, e.source.writeable, false⟩

theorem document_of_entry (he : w.entry? (FileId.ofUri uri) = some e) :
    w.document disk (FileId.ofUri uri) =
      .ok ⟨e.source.text, e.isOpen, e.source.writeable⟩ := by
  simp only [document, he]

theorem changeDocument_of_none (he : w.entry? (FileId.ofUri uri) = some e)
    (h : e.source.text.editAll? edits = none) :
    (w.changeDocument parse disk uri version edits).result =
        .error (.invalidRange (FileId.ofUri uri)) ∧
      (w.changeDocument parse disk uri version edits).workspace = w := by
  simp [changeDocument, document_of_entry disk he, h]

theorem changeDocument_of_some (he : w.entry? (FileId.ofUri uri) = some e)
    (h : e.source.text.editAll? edits = some t) :
    (w.changeDocument parse disk uri version edits).result = .ok () ∧
      (w.changeDocument parse disk uri version edits).workspace =
        w.install (changedSource parse uri e t) e.isOpen := by
  simp [changeDocument, document_of_entry disk he, h, changedSource]

/-- The entry that a change leaves where its document was. -/
def changedEntry (uri : String) (e : Entry) (t : Text) : Entry :=
  ⟨changedSource parse uri e t, e.isOpen, ModuleHeader.ofSource (changedSource parse uri e t)⟩

/-- A second change forgets the first but for its text. -/
theorem changedEntry_changedEntry (t' : Text) :
    changedEntry parse uri (changedEntry parse uri e t) t' = changedEntry parse uri e t' := rfl

/-- Edits reported one by one, each under a version of its own. -/
def changeEach (uri : String) (w : Workspace)
    (reports : List (Int × Edit)) : Workspace :=
  reports.foldl (fun w r => (w.changeDocument parse disk uri r.1 [r.2]).workspace) w

/-- An edit reported on its own, where the text does not refuse it. -/
theorem changeDocument_single {edit : Edit} (he : w.entry? (FileId.ofUri uri) = some e)
    (h : ¬e.source.text.Refuses edit) :
    (w.changeDocument parse disk uri version [edit]).result = .ok () ∧
      (w.changeDocument parse disk uri version [edit]).workspace.entry? (FileId.ofUri uri) =
        some (changedEntry parse uri e (e.source.text.afterEdit edit)) := by
  have hone : e.source.text.editAll? [edit] = some (e.source.text.afterEdit edit) := by
    simp [Text.editAll?, Text.edit?_of_not_refuses h]
  obtain ⟨hok, hw⟩ := changeDocument_of_some parse disk version he hone
  exact ⟨hok, by rw [hw]; exact entry?_install_self⟩

/-- Edits that are all accepted, reported one by one: every report succeeds, and the entry is
that of the text they leave. -/
theorem changeEach_of_accepted {reports : List (Int × Edit)} (hne : reports ≠ [])
    (he : w.entry? (FileId.ofUri uri) = some e)
    (h : ∀ i edit, (reports.map Prod.snd)[i]? = some edit →
      ¬(e.source.text.afterEdits ((reports.map Prod.snd).take i)).Refuses edit) :
    (∀ i version edit, reports[i]? = some (version, edit) →
      ((changeEach parse disk uri w (reports.take i)).changeDocument parse disk uri version
        [edit]).result = .ok ()) ∧
    entry? (changeEach parse disk uri w reports) (FileId.ofUri uri) =
      some (changedEntry parse uri e (e.source.text.afterEdits (reports.map Prod.snd))) := by
  induction reports generalizing w e with
  | nil => exact absurd rfl hne
  | cons r reports ih =>
    obtain ⟨version, edit⟩ := r
    obtain ⟨hok, hentry⟩ := changeDocument_single parse disk version he (h 0 edit rfl)
    by_cases hlast : reports = []
    · subst hlast
      refine ⟨fun i version' edit' hi => ?_, hentry⟩
      obtain ⟨rfl, rfl, rfl⟩ : i = 0 ∧ version = version' ∧ edit = edit' := by
        cases i <;> simp_all
      exact hok
    · obtain ⟨hresults, hfinal⟩ := ih hlast hentry fun i edit' hi => h (i + 1) edit' hi
      refine ⟨fun i version' edit' hi => ?_, ?_⟩
      · cases i with
        | zero =>
          obtain ⟨rfl, rfl⟩ : version = version' ∧ edit = edit' := by simpa using hi
          exact hok
        | succ i => exact hresults i version' edit' hi
      · rw [changedEntry_changedEntry] at hfinal
        exact hfinal

end Workspace

namespace Sample

/-- A parser that recognises nothing. -/
def bareParse (t : Text) : Tree := Tree.bare t.byteLength

def noteUri : String := "file:///Note.elm"

/-- A document of two lines as an editor opened it. -/
def note : Source := ⟨FileId.ofUri noteUri, "ab\ncd".toList, bareParse "ab\ncd".toList, true, false⟩

/-- The workspace that holds this document alone. -/
def notebook : Workspace := Workspace.install ∅ note true

/-- The second line becomes two, and of these the last is replaced. -/
def noteEdits : List Edit :=
  [⟨some ⟨⟨1, 0⟩, ⟨1, 2⟩⟩, "x\ny".toList⟩, ⟨some ⟨⟨2, 0⟩, ⟨2, 1⟩⟩, "z".toList⟩]

end Sample

namespace Workspace

/-- **A report of edits is all or nothing, and the same as its edits one by one.** For every
document that the workspace holds: the report fails, for a bad range, exactly when the text that
the earlier edits leave refuses one of them, and then nothing changes. Otherwise it succeeds; the
document has the text after all edits with its tree and header, and stays open and writeable as it
was; no other file is touched; and with every edit reported on its own each report succeeds and the
entry comes out the same. -/
theorem changeDocument_batch (parse : Text → Tree) (disk : Disk) (w : Workspace) (uri : String)
    (version : Int) {e : Entry} {edits : List Edit} (he : w.entry? (FileId.ofUri uri) = some e)
    (hne : edits ≠ []) :
    let file := FileId.ofUri uri
    let u := w.changeDocument parse disk uri version edits
    let t := e.source.text.afterEdits edits
    let s : Source := ⟨file, t, parse t, e.source.writeable, false⟩
    ((∃ i edit, edits[i]? = some edit ∧
        (e.source.text.afterEdits (edits.take i)).Refuses edit) →
      u.result = .error (.invalidRange file) ∧ u.workspace = w) ∧
    ((¬∃ i edit, edits[i]? = some edit ∧
        (e.source.text.afterEdits (edits.take i)).Refuses edit) →
      u.result = .ok () ∧
      u.workspace.entry? file = some ⟨s, e.isOpen, ModuleHeader.ofSource s⟩ ∧
      (∀ f, f ≠ file → u.workspace.entry? f = w.entry? f) ∧
      ∀ reports : List (Int × Edit), reports.map Prod.snd = edits →
        (∀ i v edit, reports[i]? = some (v, edit) →
          ((changeEach parse disk uri w (reports.take i)).changeDocument parse disk uri v
            [edit]).result = .ok ()) ∧
        entry? (changeEach parse disk uri w reports) file = u.workspace.entry? file) := by
  intro file u t s
  constructor
  · intro hrefused
    exact changeDocument_of_none parse disk version he (Text.editAll?_eq_none_iff.2 hrefused)
  · intro haccepted
    obtain ⟨t', ht'⟩ := Option.ne_none_iff_exists'.1 (mt Text.editAll?_eq_none_iff.1 haccepted)
    obtain rfl : t' = t := Text.editAll?_eq_some ht'
    obtain ⟨hok, hw⟩ := changeDocument_of_some parse disk version he ht'
    have hentry : u.workspace.entry? file = some (changedEntry parse uri e t) := by
      rw [hw]
      exact entry?_install_self
    refine ⟨hok, hentry, fun f hf => ?_, ?_⟩
    · rw [hw]
      exact entry?_install_of_ne hf
    · rintro reports rfl
      have hreports : reports ≠ [] := by
        rintro rfl
        exact hne rfl
      rw [hentry]
      exact changeEach_of_accepted parse disk hreports he fun i edit hi hrefused =>
        haccepted ⟨i, edit, hi, hrefused⟩

/-- The second edit is about a line that the first one makes. -/
theorem changeDocument_batch_note :
    Sample.notebook.entry? (FileId.ofUri Sample.noteUri) =
        some ⟨Sample.note, true, ModuleHeader.ofSource Sample.note⟩ ∧
      Sample.noteEdits ≠ [] ∧
      (Sample.notebook.changeDocument Sample.bareParse .empty Sample.noteUri 2
        Sample.noteEdits).result = .ok () ∧
      ((Sample.notebook.changeDocument Sample.bareParse .empty Sample.noteUri 2
        Sample.noteEdits).workspace.source? (FileId.ofUri Sample.noteUri)).map Source.text =
          some "ab\nx\nz".toList := by
  have he : Sample.notebook.entry? (FileId.ofUri Sample.noteUri) =
      some ⟨Sample.note, true, ModuleHeader.ofSource Sample.note⟩ := entry?_install_self
  have hne : Sample.noteEdits ≠ [] := List.cons_ne_nil _ _
  have hafter : Sample.note.text.editAll? Sample.noteEdits = some "ab\nx\nz".toList := by
    decide +kernel
  have haccepted : ¬∃ i edit, Sample.noteEdits[i]? = some edit ∧
      (Sample.note.text.afterEdits (Sample.noteEdits.take i)).Refuses edit := by
    rw [← Text.editAll?_eq_none_iff, hafter]
    exact Option.some_ne_none _
  obtain ⟨hok, hentry, -, -⟩ :=
    (changeDocument_batch Sample.bareParse .empty Sample.notebook Sample.noteUri 2 he hne).2
      haccepted
  refine ⟨he, hne, hok, ?_⟩
  rw [source?, hentry, Text.editAll?_eq_some hafter]
  rfl

end Workspace
end ElmScope
