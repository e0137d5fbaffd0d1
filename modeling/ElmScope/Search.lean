import ElmScope.Event
/-!
# Searches

A search may find something and reports events either way. `found` forgets the events: it
takes sequencing to `Option.bind` and alternatives to `Option.or`, so what a search finds can
be reasoned about as an `Option`.

* `found_bind`, `found_orElse`, `found_orReport` — what a composed search finds
-/
namespace ElmScope

/-- What a search found, and the events on the way. -/
structure Search (α : Type) where
  found : Option α
  events : List Event

namespace Search

variable {α β : Type}

/-- A search that needs no looking. -/
def ofOption (x : Option α) : Search α := ⟨x, []⟩

/-- The search without a result and without a report. -/
def nothing : Search α := ⟨none, []⟩

/-- Go on from what was found; what was found nowhere leads nowhere. -/
def bind (x : Search α) (f : α → Search β) : Search β :=
  match x.found with
  | some a =>
    let y := f a
    ⟨y.found, x.events ++ y.events⟩
  | none => ⟨none, x.events⟩

/-- Search on where nothing was found. -/
def orElse (x : Search α) (y : Unit → Search α) : Search α :=
  match x.found with
  | some a => ⟨some a, x.events⟩
  | none =>
    let z := y ()
    ⟨z.found, x.events ++ z.events⟩

/-- Report an event at the end of a search that found nothing. -/
def orReport (x : Search α) (e : Event) : Search α :=
  match x.found with
  | some a => ⟨some a, x.events⟩
  | none => ⟨none, x.events ++ [e]⟩

instance : Monad Search where
  pure a := ofOption (some a)
  bind := bind

instance : OrElse (Search α) := ⟨orElse⟩

@[simp] theorem found_ofOption (x : Option α) : (ofOption x).found = x := rfl

@[simp] theorem found_nothing : (nothing : Search α).found = none := rfl

@[simp] theorem found_pure (a : α) : (pure a : Search α).found = some a := rfl

@[simp] theorem found_bind (x : Search α) (f : α → Search β) :
    (x >>= f).found = x.found.bind fun a => (f a).found := by
  change (bind x f).found = _
  unfold bind
  split <;> simp [*]

@[simp] theorem found_orElse (x : Search α) (y : Unit → Search α) :
    (x.orElse y).found = x.found.or (y ()).found := by
  unfold orElse
  split <;> simp [*]

@[simp] theorem found_orReport (x : Search α) (e : Event) : (x.orReport e).found = x.found := by
  unfold orReport
  split <;> simp [*]

end Search
end ElmScope
