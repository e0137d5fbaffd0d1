import ElmScope.Workspace.Basic
import Mathlib.Tactic.ByContra
/-!
# Runs of changes, and the spells of a file

A workspace comes about by a run of changes: files are installed, marked as open or closed, and
taken out. The register orders the files of a module by their history, so the history is spelled
out here without the register.

A `Slot` is a file together with the module name and the group (project or dependency) it is
installed under. A change *fills* the slot of what it installs, and *vacates* the slots that its
file can no longer be in. The spell of a slot began at the earliest change that filled it and
since which nothing has vacated it.

* `spellFrom_concat_of_idle`, `not_spellFrom_concat_of_vacates`, `spellFrom_concat_of_refill`,
  `spellFrom_concat_of_fill` — what one more change does to a spell
-/
namespace ElmScope
namespace Workspace

/-- One change of a workspace. -/
inductive Change where
  | install (s : Source) (isOpen : Bool)
  | setOpen (file : FileId) (isOpen : Bool)
  | remove (file : FileId)

/-- A file under a module name, in the project or among its dependencies. -/
structure Slot where
  file : FileId
  name : String
  writeable : Bool

namespace Change

/-- The file a change is about. -/
def file : Change → FileId
  | install s _ => s.file
  | setOpen file _ => file
  | remove file => file

/-- The workspace after a change. -/
def apply (w : Workspace) : Change → Workspace
  | install s isOpen => w.install s isOpen
  | setOpen file isOpen => w.setOpen file isOpen
  | remove file => w.remove file

/-- Whether a change installs a file in a slot. -/
def Fills (slot : Slot) : Change → Prop
  | install s _ =>
    s.file = slot.file ∧ s.moduleName? = some slot.name ∧ s.writeable = slot.writeable
  | setOpen _ _ => False
  | remove _ => False

/-- Whether a change takes the file of a slot out of it: by a removal, or by an installation
under another name or in the other group. -/
def Vacates (slot : Slot) : Change → Prop
  | install s _ =>
    s.file = slot.file ∧ ¬(s.moduleName? = some slot.name ∧ s.writeable = slot.writeable)
  | setOpen _ _ => False
  | remove file => file = slot.file

variable {c : Change} {slot : Slot}

theorem Fills.file_eq (h : c.Fills slot) : c.file = slot.file := by
  cases c with
  | install s isOpen => exact h.1
  | setOpen file isOpen => exact h.elim
  | remove file => exact h.elim

theorem Vacates.file_eq (h : c.Vacates slot) : c.file = slot.file := by
  cases c with
  | install s isOpen => exact h.1
  | setOpen file isOpen => exact h.elim
  | remove file => exact h

theorem Fills.not_vacates (h : c.Fills slot) : ¬c.Vacates slot := by
  cases c with
  | install s isOpen => exact fun hv => hv.2 h.2
  | setOpen file isOpen => exact h.elim
  | remove file => exact h.elim

end Change

/-- The workspace after a run of changes, from the one without files. -/
def run (changes : List Change) : Workspace := changes.foldl Change.apply ∅

theorem run_concat (changes : List Change) (c : Change) :
    run (changes ++ [c]) = c.apply (run changes) := by
  simp [run, List.foldl_append]

/-! ## Spells -/

/-- Whether change number `start` fills a slot and none after it vacates the slot. -/
def HeldSince (changes : List Change) (slot : Slot) (start : Nat) : Prop :=
  (∃ c, changes[start]? = some c ∧ c.Fills slot) ∧
    ∀ i c, start < i → changes[i]? = some c → ¬c.Vacates slot

/-- The current spell of a slot began with change number `start`: the slot is held since then,
and since no earlier change. -/
def SpellFrom (changes : List Change) (slot : Slot) (start : Nat) : Prop :=
  HeldSince changes slot start ∧ ∀ i, HeldSince changes slot i → start ≤ i

section
variable {changes : List Change} {slot : Slot} {c : Change} {i j : Nat}

theorem HeldSince.lt_length (h : HeldSince changes slot i) : i < changes.length := by
  obtain ⟨⟨c, hc, -⟩, -⟩ := h
  exact (List.getElem?_eq_some_iff.1 hc).1

theorem not_heldSince_nil : ¬HeldSince [] slot i := fun h => absurd h.lt_length (Nat.not_lt_zero i)

theorem SpellFrom.lt_length (h : SpellFrom changes slot i) : i < changes.length := h.1.lt_length

theorem SpellFrom.start_eq (hi : SpellFrom changes slot i) (hj : SpellFrom changes slot j) :
    i = j :=
  Nat.le_antisymm (hi.2 j hj.1) (hj.2 i hi.1)

/-- No change begins the spells of two files. -/
theorem SpellFrom.file_eq {other : Slot} (h : SpellFrom changes slot i)
    (h' : SpellFrom changes other i) : slot.file = other.file := by
  obtain ⟨c, hc, hf⟩ := h.1.1
  obtain ⟨c', hc', hf'⟩ := h'.1.1
  obtain rfl : c = c' := Option.some.inj (hc.symm.trans hc')
  exact hf.file_eq.symm.trans hf'.file_eq

/-- A file is in one slot at a time: whichever of two slots is filled later, filling it vacates
the other. -/
theorem HeldSince.slot_eq {other : Slot} (h : HeldSince changes slot i)
    (h' : HeldSince changes other j) (hfile : slot.file = other.file) : slot = other := by
  have later : ∀ {a b : Slot} {i j : Nat}, HeldSince changes a i → HeldSince changes b j →
      a.file = b.file → i ≤ j → a = b := by
    intro a b i j ha hb hab hij
    obtain ⟨c, hc, hfill⟩ := hb.1
    cases c with
    | setOpen file isOpen => exact hfill.elim
    | remove file => exact hfill.elim
    | install s isOpen =>
      obtain ⟨hf, hn, hw⟩ := hfill
      by_contra hne
      have hout : ¬(s.moduleName? = some a.name ∧ s.writeable = a.writeable) := by
        rintro ⟨hn', hw'⟩
        rw [hn] at hn'
        cases a; cases b
        simp_all
      rcases Nat.lt_or_eq_of_le hij with hlt | rfl
      · exact ha.2 j _ hlt hc ⟨hf.trans hab.symm, hout⟩
      · obtain ⟨d, hd, hfill'⟩ := ha.1
        obtain rfl := Option.some.inj (hd.symm.trans hc)
        exact hout hfill'.2
  rcases Nat.le_total i j with hij | hji
  · exact later h h' hfile hij
  · exact (later h' h hfile.symm hji).symm

/-- A slot that is held at all has a spell. -/
theorem HeldSince.exists_spellFrom (h : HeldSince changes slot i) :
    ∃ start, SpellFrom changes slot start := by
  induction i using Nat.strongRecOn with
  | _ i ih =>
    by_cases hlt : ∃ j, j < i ∧ HeldSince changes slot j
    · obtain ⟨j, hj, hheld⟩ := hlt
      exact ih j hj hheld
    · exact ⟨i, h, fun j hj => Nat.le_of_not_lt fun hij => hlt ⟨j, hij, hj⟩⟩

/-! ## One more change -/

theorem heldSince_concat :
    HeldSince (changes ++ [c]) slot i ↔
      HeldSince changes slot i ∧ ¬c.Vacates slot ∨ i = changes.length ∧ c.Fills slot := by
  constructor
  · intro h
    have hlen : i < changes.length + 1 := by simpa using h.lt_length
    obtain ⟨⟨d, hd, hfill⟩, hkeep⟩ := h
    rcases Nat.lt_or_ge i changes.length with hi | hi
    · rw [List.getElem?_append_left hi] at hd
      refine .inl ⟨⟨⟨d, hd, hfill⟩, fun k e hk he => ?_⟩, ?_⟩
      · have hklen := (List.getElem?_eq_some_iff.1 he).1
        exact hkeep k e hk (by rw [List.getElem?_append_left hklen, he])
      · exact hkeep changes.length c hi (by simp)
    · have hi : i = changes.length := by omega
      subst hi
      obtain rfl : c = d := by simpa using hd
      exact .inr ⟨rfl, hfill⟩
  · rintro (⟨⟨⟨d, hd, hfill⟩, hkeep⟩, hc⟩ | ⟨rfl, hfill⟩)
    · have hi := (List.getElem?_eq_some_iff.1 hd).1
      refine ⟨⟨d, by rw [List.getElem?_append_left hi, hd], hfill⟩, fun k e hk he => ?_⟩
      rcases Nat.lt_or_ge k changes.length with hlt | hge
      · rw [List.getElem?_append_left hlt] at he
        exact hkeep k e hk he
      · have hk' := (List.getElem?_eq_some_iff.1 he).1
        have hk' : k = changes.length := by simp at hk'; omega
        subst hk'
        obtain rfl : c = e := by simpa using he
        exact hc
    · refine ⟨⟨c, by simp, hfill⟩, fun k e hk he => ?_⟩
      have := (List.getElem?_eq_some_iff.1 he).1
      simp at this; omega

/-- A change that neither fills nor vacates a slot leaves its spell. -/
theorem spellFrom_concat_of_idle (hf : ¬c.Fills slot) (hv : ¬c.Vacates slot) :
    SpellFrom (changes ++ [c]) slot i ↔ SpellFrom changes slot i := by
  simp [SpellFrom, heldSince_concat, hf, hv]

/-- A change that vacates a slot ends its spell. -/
theorem not_spellFrom_concat_of_vacates (hv : c.Vacates slot) :
    ¬SpellFrom (changes ++ [c]) slot i := by
  intro h
  rcases heldSince_concat.1 h.1 with ⟨-, hkeep⟩ | ⟨-, hfill⟩
  · exact hkeep hv
  · exact hfill.not_vacates hv

/-- A slot that is filled again keeps its spell. -/
theorem spellFrom_concat_of_refill (hf : c.Fills slot) (hj : SpellFrom changes slot j) :
    SpellFrom (changes ++ [c]) slot i ↔ SpellFrom changes slot i := by
  have hold : SpellFrom (changes ++ [c]) slot j := by
    refine ⟨heldSince_concat.2 (.inl ⟨hj.1, hf.not_vacates⟩), fun k hk => ?_⟩
    rcases heldSince_concat.1 hk with ⟨hk, -⟩ | ⟨rfl, -⟩
    · exact hj.2 k hk
    · exact Nat.le_of_lt hj.lt_length
  constructor
  · intro h
    rwa [h.start_eq hold]
  · intro h
    rwa [h.start_eq hj]

/-- A slot that was empty begins its spell with the change that fills it. -/
theorem spellFrom_concat_of_fill (hf : c.Fills slot) (hno : ∀ j, ¬SpellFrom changes slot j) :
    SpellFrom (changes ++ [c]) slot i ↔ i = changes.length := by
  have hnone : ∀ k, ¬HeldSince changes slot k := by
    intro k hk
    obtain ⟨start, hstart⟩ := hk.exists_spellFrom
    exact hno start hstart
  have hheld : ∀ k, HeldSince (changes ++ [c]) slot k ↔ k = changes.length := by
    intro k
    simp [heldSince_concat, hnone, hf]
  simp only [SpellFrom, hheld]
  exact ⟨And.left, fun h => ⟨h, fun k hk => by omega⟩⟩

theorem spellFrom_concat_setOpen {file : FileId} {isOpen : Bool} :
    SpellFrom (changes ++ [.setOpen file isOpen]) slot i ↔ SpellFrom changes slot i :=
  spellFrom_concat_of_idle not_false not_false

/-- A change of one file leaves the spells of all others. -/
theorem spellFrom_concat_of_file_ne (hne : slot.file ≠ c.file) :
    SpellFrom (changes ++ [c]) slot i ↔ SpellFrom changes slot i :=
  spellFrom_concat_of_idle (fun h => hne h.file_eq.symm) (fun h => hne h.file_eq.symm)

end

end Workspace
end ElmScope
