/-!
# Lists with keys

A finite map as a list of pairs. The first pair with a key counts; a new key goes to the end,
so the list keeps the order in which keys came in.

* `get?_put_self`, `get?_put_of_ne` — what a write does to each key
* `get?_erase_self`, `get?_erase_of_ne` — what a removal does
-/
namespace ElmScope
namespace Keyed

variable {κ α : Type} [DecidableEq κ]

/-- The value of a key. -/
def get? (m : List (κ × α)) (k : κ) : Option α := (m.find? (·.1 = k)).map (·.2)

/-- Set the value of a key: in its place, or at the end. -/
def put : List (κ × α) → κ → α → List (κ × α)
  | [], k, v => [(k, v)]
  | (k', v') :: m, k, v => if k' = k then (k, v) :: m else (k', v') :: put m k v

/-- Drop a key. -/
def erase (m : List (κ × α)) (k : κ) : List (κ × α) := m.filter (·.1 ≠ k)

@[simp] theorem get?_nil (k : κ) : get? ([] : List (κ × α)) k = none := rfl

@[simp] theorem get?_put_self (m : List (κ × α)) (k : κ) (v : α) : get? (put m k v) k = some v := by
  induction m with
  | nil => simp [put, get?]
  | cons e m ih =>
    obtain ⟨k', v'⟩ := e
    by_cases h : k' = k
    · simp [put, get?, h]
    · simpa [put, get?, h] using ih

theorem get?_put_of_ne (m : List (κ × α)) {k k' : κ} (v : α) (h : k' ≠ k) :
    get? (put m k v) k' = get? m k' := by
  induction m with
  | nil => simp [put, get?, h.symm]
  | cons e m ih =>
    obtain ⟨k₀, v₀⟩ := e
    by_cases h₀ : k₀ = k
    · subst h₀; simp [put, get?, h.symm]
    · by_cases h₁ : k₀ = k' <;> simp_all [put, get?]

@[simp] theorem get?_erase_self (m : List (κ × α)) (k : κ) : get? (erase m k) k = none := by
  simp [get?, erase]

theorem get?_erase_of_ne (m : List (κ × α)) {k k' : κ} (h : k' ≠ k) :
    get? (erase m k) k' = get? m k' := by
  induction m with
  | nil => rfl
  | cons e m ih =>
    obtain ⟨k₀, v₀⟩ := e
    by_cases h₀ : k₀ = k
    · subst h₀; simpa [erase, get?, h.symm] using ih
    · by_cases h₁ : k₀ = k' <;> simp_all [erase, get?]

end Keyed
end ElmScope
