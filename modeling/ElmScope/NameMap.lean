/-!
# Maps from names

A map whose keys are names, kept as a list in ascending order of the keys. Names compare by
code points, which is the order of their octets. Every change goes through `alter`, which
writes one key from what stood there.

* `get?_alter_self`, `get?_alter_of_ne` — what a change does to each key
-/
namespace ElmScope

/-- A map from names, ascending. -/
structure NameMap (α : Type) where
  entries : List (String × α)

namespace NameMap

variable {α : Type}

/-- The map without keys. -/
def empty : NameMap α := ⟨[]⟩

instance : EmptyCollection (NameMap α) := ⟨empty⟩

/-- Write the value of one key from the value it has. -/
def alterList (key : String) (f : Option α → α) : List (String × α) → List (String × α)
  | [] => [(key, f none)]
  | (k, v) :: rest =>
    if key = k then (k, f (some v)) :: rest
    else if key < k then (key, f none) :: (k, v) :: rest
    else (k, v) :: alterList key f rest

/-- Write the value of one key from the value it has. -/
def alter (m : NameMap α) (key : String) (f : Option α → α) : NameMap α :=
  ⟨alterList key f m.entries⟩

/-- Set a key, whatever it had. -/
def insert (m : NameMap α) (key : String) (value : α) : NameMap α := m.alter key fun _ => value

/-- Set a key that has no value yet. -/
def insertIfNew (m : NameMap α) (key : String) (value : α) : NameMap α :=
  m.alter key fun old => old.getD value

/-- The value of a key. -/
def get? (m : NameMap α) (key : String) : Option α := (m.entries.find? (·.1 = key)).map (·.2)

/-- The keys, ascending. -/
def keys (m : NameMap α) : List String := m.entries.map (·.1)

/-- The values, in the order of their keys. -/
def values (m : NameMap α) : List α := m.entries.map (·.2)

/-! ## What a change does -/

theorem get?_alter_self (m : NameMap α) (key : String) (f : Option α → α)
    (sorted : m.entries.Pairwise (·.1 < ·.1)) :
    (m.alter key f).get? key = some (f (m.get? key)) := by
  obtain ⟨es⟩ := m
  simp only [alter, get?]
  induction es with
  | nil => simp [alterList]
  | cons e es ih =>
    obtain ⟨k, v⟩ := e
    simp only [List.pairwise_cons] at sorted
    simp only [alterList]
    split
    · next h => subst h; simp
    · next h =>
      split
      · next hlt =>
        have hnot : (es.find? (·.1 = key)) = none := by
          refine List.find?_eq_none.2 fun e he => ?_
          have := String.lt_trans hlt (sorted.1 e he)
          simp only [decide_eq_true_eq]
          rintro rfl
          exact String.lt_irrefl _ this
        simp [hnot, Ne.symm h]
      · simpa [Ne.symm h] using ih sorted.2

theorem get?_alter_of_ne (m : NameMap α) {key other : String} (f : Option α → α)
    (h : other ≠ key) : (m.alter key f).get? other = m.get? other := by
  obtain ⟨es⟩ := m
  simp only [alter, get?]
  induction es with
  | nil => simp [alterList, Ne.symm h]
  | cons e es ih =>
    obtain ⟨k, v⟩ := e
    simp only [alterList]
    split
    · next hk => subst hk; simp [Ne.symm h]
    · split
      · simp [Ne.symm h]
      · by_cases hk : k = other <;> simp_all

end NameMap
end ElmScope
