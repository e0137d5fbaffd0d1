import ElmScope.Module.Exports
/-!
# The table of exports

The table is filled by two folds over the visible definitions: those that keep what has their
name, then those that replace it. What it says about a name depends on the list of definitions
alone (`get?_ofSource`): the last replacing definition of the name counts, else the first
deferring one. No order of keys is left in that answer; it only shows in `toList`, whose members
are the values of the names (`mem_toList_iff`).
-/
namespace ElmScope

/-! ## Ascending maps -/

namespace NameMap

variable {α : Type} {m : NameMap α} {key : String}

/-- The keys of a map ascend. -/
def Ascending (m : NameMap α) : Prop := m.entries.Pairwise (·.1 < ·.1)

theorem ascending_empty : Ascending (∅ : NameMap α) := List.Pairwise.nil

/-- A change writes the entry of its key and leaves the others. -/
theorem mem_alterList {f : Option α → α} {es : List (String × α)} {e : String × α}
    (h : e ∈ alterList key f es) : (e.1 = key ∧ ∃ old, e.2 = f old) ∨ e ∈ es := by
  induction es with
  | nil =>
    rw [alterList, List.mem_singleton] at h
    subst h
    exact .inl ⟨rfl, none, rfl⟩
  | cons e₀ es ih =>
    obtain ⟨k, v⟩ := e₀
    simp only [alterList] at h
    split at h
    · next heq =>
      rcases List.mem_cons.1 h with rfl | h
      · exact .inl ⟨heq.symm, some v, rfl⟩
      · exact .inr (List.mem_cons_of_mem _ h)
    · split at h
      · rcases List.mem_cons.1 h with rfl | h
        · exact .inl ⟨rfl, none, rfl⟩
        · exact .inr h
      · rcases List.mem_cons.1 h with rfl | h
        · exact .inr List.mem_cons_self
        · exact (ih h).imp_right (List.mem_cons_of_mem _)

theorem Ascending.alter (h : m.Ascending) (f : Option α → α) : (m.alter key f).Ascending := by
  obtain ⟨es⟩ := m
  simp only [Ascending, NameMap.alter] at h ⊢
  induction es with
  | nil => exact List.pairwise_singleton _ _
  | cons e es ih =>
    obtain ⟨k, v⟩ := e
    rw [List.pairwise_cons] at h
    simp only [alterList]
    split
    · exact List.pairwise_cons.2 h
    · next hne =>
      split
      · next hlt =>
        refine List.pairwise_cons.2 ⟨fun e he => ?_, List.pairwise_cons.2 h⟩
        rcases List.mem_cons.1 he with rfl | he
        · exact hlt
        · exact String.lt_trans hlt (h.1 e he)
      · next hge =>
        refine List.pairwise_cons.2 ⟨fun e he => ?_, ih h.2⟩
        rcases mem_alterList he with ⟨heq, -⟩ | he
        · rw [heq]
          exact String.not_le.1 fun hle => hne (String.le_antisymm hle (String.not_lt.1 hge))
        · exact h.1 e he

theorem get?_alter (h : m.Ascending) (f : Option α → α) (name : String) :
    (m.alter key f).get? name = if name = key then some (f (m.get? key)) else m.get? name := by
  split
  · next heq => rw [heq, get?_alter_self m key f h]
  · next hne => exact get?_alter_of_ne m f hne

theorem Ascending.insert (h : m.Ascending) (v : α) : (m.insert key v).Ascending := h.alter _

theorem Ascending.insertIfNew (h : m.Ascending) (v : α) : (m.insertIfNew key v).Ascending :=
  h.alter _

theorem get?_insert (h : m.Ascending) (v : α) (name : String) :
    (m.insert key v).get? name = if name = key then some v else m.get? name :=
  get?_alter h _ name

theorem get?_insertIfNew (h : m.Ascending) (v : α) (name : String) :
    (m.insertIfNew key v).get? name =
      if name = key then some ((m.get? key).getD v) else m.get? name :=
  get?_alter h _ name

theorem get?_of_mem (h : m.Ascending) {v : α} (hv : (key, v) ∈ m.entries) :
    m.get? key = some v := by
  obtain ⟨es⟩ := m
  simp only [Ascending, get?] at h hv ⊢
  induction es with
  | nil => exact absurd hv List.not_mem_nil
  | cons e es ih =>
    rw [List.pairwise_cons] at h
    rcases List.mem_cons.1 hv with rfl | hv
    · simp
    · have hne : e.1 ≠ key := fun heq => String.lt_irrefl _ (heq ▸ h.1 _ hv)
      rw [List.find?_cons_of_neg (by simpa using hne)]
      exact ih h.2 hv

theorem mem_keys_iff : key ∈ m.keys ↔ (m.get? key).isSome := by
  simp [keys, get?, List.find?_isSome]

/-- The values are those of the names. -/
theorem mem_values_iff (h : m.Ascending) {v : α} :
    v ∈ m.values ↔ ∃ name, m.get? name = some v := by
  constructor
  · intro hv
    obtain ⟨e, he, rfl⟩ := List.mem_map.1 hv
    exact ⟨e.1, get?_of_mem h he⟩
  · rintro ⟨name, hget⟩
    obtain ⟨e, he, rfl⟩ := Option.map_eq_some_iff.1 hget
    exact List.mem_map_of_mem (List.mem_of_find?_eq_some he)

end NameMap

namespace Exports

/-! ## Filling the table -/

section
variable {m : NameMap Export} (h : m.Ascending) (es : List Export)
include h

theorem ascending_foldl_insertIfNew :
    (es.foldl (fun m e => m.insertIfNew e.name e) m).Ascending := by
  induction es generalizing m with
  | nil => exact h
  | cons e es ih => exact ih (h.insertIfNew e)

theorem ascending_foldl_insert : (es.foldl (fun m e => m.insert e.name e) m).Ascending := by
  induction es generalizing m with
  | nil => exact h
  | cons e es ih => exact ih (h.insert e)

/-- Definitions that keep what has their name: the first one of a new name counts. -/
theorem get?_foldl_insertIfNew (name : String) :
    (es.foldl (fun m e => m.insertIfNew e.name e) m).get? name =
      (m.get? name).or (es.find? (·.name = name)) := by
  induction es generalizing m with
  | nil => simp
  | cons e es ih =>
    rw [List.foldl_cons, ih (h.insertIfNew e), NameMap.get?_insertIfNew h]
    by_cases hn : name = e.name
    · subst hn
      cases m.get? e.name <;> simp
    · simp [hn, Ne.symm hn]

/-- Definitions that replace what has their name: the last one of a name counts. -/
theorem get?_foldl_insert (name : String) :
    (es.foldl (fun m e => m.insert e.name e) m).get? name =
      (es.reverse.find? (·.name = name)).or (m.get? name) := by
  induction es generalizing m with
  | nil => simp
  | cons e es ih =>
    rw [List.foldl_cons, ih (h.insert e), NameMap.get?_insert h, List.reverse_cons,
      List.find?_append, Option.or_assoc]
    by_cases hn : name = e.name
    · subst hn
      simp
    · simp [hn, Ne.symm hn]

end

variable {s : Source} {name : String} {e : Export}

theorem ascending_ofSource (s : Source) : (ofSource s).table.Ascending :=
  ascending_foldl_insert (ascending_foldl_insertIfNew NameMap.ascending_empty _) _

/-- The table says about a name: its last replacing definition, or else its first deferring
one. -/
theorem get?_ofSource (s : Source) (name : String) :
    (ofSource s).get? name =
      ((replacing s).reverse.find? (·.name = name)).or
        ((deferring s).find? (·.name = name)) := by
  have hempty := NameMap.ascending_empty (α := Export)
  simp only [ofSource, get?]
  rw [get?_foldl_insert (ascending_foldl_insertIfNew hempty _), get?_foldl_insertIfNew hempty]
  rfl

/-- What the table says about a name is a visible definition of that name. -/
theorem get?_ofSource_sound (he : (ofSource s).get? name = some e) :
    (e ∈ replacing s ∨ e ∈ deferring s) ∧ e.name = name := by
  rw [get?_ofSource, Option.or_eq_some_iff] at he
  rcases he with he | ⟨-, he⟩
  · exact ⟨.inl (List.mem_reverse.1 (List.mem_of_find?_eq_some he)),
      by simpa using List.find?_some he⟩
  · exact ⟨.inr (List.mem_of_find?_eq_some he), by simpa using List.find?_some he⟩

/-- The definitions of the table are those it has for their names. -/
theorem mem_toList_iff : e ∈ (ofSource s).toList ↔ (ofSource s).get? e.name = some e := by
  rw [toList, NameMap.mem_values_iff (ascending_ofSource s)]
  constructor
  · rintro ⟨name, he⟩
    rwa [(get?_ofSource_sound he).2]
  · intro he
    exact ⟨e.name, he⟩

end Exports
end ElmScope
