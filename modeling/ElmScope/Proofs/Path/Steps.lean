import ElmScope.Path
import Mathlib.Data.List.Basic
/-!
# The steps of a path

A path comes down to its steps, the components that say where to go, with the slashes it starts
with and a slash at its end. `normalize` keeps these and nothing else, so a path that is normal
already stays as it is.

* `pieces_append_cons`, `pieces_of_not_mem` — the pieces of a text that is put together
* `steps_intercalate`, `steps_intercalate_concat` — steps put together with slashes are those
  steps, also with a path behind them
* `normalize_normalize` — a normal path is its own normal form
* `extension?_eq_some_iff` — the extension is what follows the last dot of a file name
-/
namespace ElmScope

namespace Text

variable {sep : Char} {s t p : Text}

theorem pieces_append_cons (sep : Char) (s t : Text) :
    (s ++ sep :: t).pieces sep = s.pieces sep ++ t.pieces sep := by
  induction s with
  | nil => simp [pieces]
  | cons c s ih =>
    rw [List.cons_append, pieces, pieces, ih]
    split
    · rfl
    · cases hs : pieces sep s with
      | nil => exact absurd hs (pieces_ne_nil sep s)
      | cons p ps => rfl

theorem pieces_of_not_mem (h : sep ∉ t) : t.pieces sep = [t] := by
  induction t with
  | nil => rfl
  | cons c t ih =>
    rw [List.mem_cons, not_or] at h
    rw [pieces, if_neg (Ne.symm h.1), ih h.2]

theorem not_mem_of_mem_pieces (h : p ∈ t.pieces sep) : sep ∉ p := by
  induction t generalizing p with
  | nil =>
    obtain rfl := List.mem_singleton.1 h
    exact List.not_mem_nil
  | cons c t ih =>
    rw [pieces] at h
    split at h
    · rcases List.mem_cons.1 h with rfl | h
      · exact List.not_mem_nil
      · exact ih h
    · next hc =>
      cases hs : pieces sep t with
      | nil => exact absurd hs (pieces_ne_nil sep t)
      | cons q qs =>
        rw [hs] at h ih
        rcases List.mem_cons.1 h with rfl | h
        · rw [List.mem_cons, not_or]
          exact ⟨Ne.symm hc, ih List.mem_cons_self⟩
        · exact ih (List.mem_cons_of_mem _ h)

end Text

namespace Path

/-- The components of a path that say where to go. -/
def steps (t : Text) : List Text := (components t).filter isStep

/-- Whether a text is one step: it says where to go, in one component. -/
def IsStep (p : Text) : Prop := isStep p = true ∧ '/' ∉ p

variable {s t u p : Text} {ps : List Text}

theorem IsStep.ne_nil (h : IsStep p) : p ≠ [] := by
  rintro rfl
  exact absurd h.1 (by decide)

/-! ## Steps -/

@[simp] theorem steps_nil : steps [] = [] := rfl

theorem steps_append_slash (s t : Text) : steps (s ++ '/' :: t) = steps s ++ steps t := by
  rw [steps, components, Text.pieces_append_cons, List.filter_append]
  rfl

theorem steps_slash (t : Text) : steps ('/' :: t) = steps t := steps_append_slash [] t

theorem steps_of_isStep (h : IsStep p) : steps p = [p] := by
  rw [steps, components, Text.pieces_of_not_mem h.2, List.filter_cons_of_pos h.1, List.filter_nil]

theorem isStep_of_mem_steps (h : p ∈ steps t) : IsStep p := by
  obtain ⟨hmem, hstep⟩ := List.mem_filter.1 h
  exact ⟨hstep, Text.not_mem_of_mem_pieces hmem⟩

/-- Steps put together with slashes are those steps. -/
theorem steps_intercalate (h : ∀ p ∈ ps, IsStep p) : steps (List.intercalate ['/'] ps) = ps := by
  induction ps with
  | nil => rfl
  | cons p ps ih =>
    obtain ⟨hp, hps⟩ := List.forall_mem_cons.1 h
    cases ps with
    | nil => rw [List.intercalate_singleton, steps_of_isStep hp]
    | cons q qs =>
      rw [List.intercalate_cons_cons, List.append_assoc, List.singleton_append, steps_append_slash,
        steps_of_isStep hp, ih hps, List.singleton_append]

/-- A path behind some steps has its own steps behind them. -/
theorem steps_intercalate_concat (h : ∀ p ∈ ps, IsStep p) (t : Text) :
    steps (List.intercalate ['/'] (ps ++ [t])) = ps ++ steps t := by
  induction ps with
  | nil => rw [List.nil_append, List.intercalate_singleton, List.nil_append]
  | cons p ps ih =>
    obtain ⟨hp, hps⟩ := List.forall_mem_cons.1 h
    have hne : ps ++ [t] ≠ [] := List.append_ne_nil_of_right_ne_nil ps (List.cons_ne_nil t [])
    rw [List.cons_append, List.intercalate_cons_of_ne_nil hne, List.append_assoc,
      List.singleton_append, steps_append_slash, steps_of_isStep hp, ih hps, List.singleton_append,
      List.cons_append]

theorem intercalate_ne_nil (h : ∀ p ∈ ps, IsStep p) (hne : ps ≠ []) :
    List.intercalate ['/'] ps ≠ [] := by
  intro hnil
  have hsteps := steps_intercalate h
  rw [hnil, steps_nil] at hsteps
  exact hne hsteps.symm

theorem head?_intercalate (h : ∀ p ∈ ps, IsStep p) :
    (List.intercalate ['/'] ps).head? ≠ some '/' := by
  cases ps with
  | nil => exact nofun
  | cons p ps =>
    obtain ⟨hp, -⟩ := List.forall_mem_cons.1 h
    obtain ⟨c, p, rfl⟩ := List.exists_cons_of_ne_nil hp.ne_nil
    have hc : c ≠ '/' := fun heq => hp.2 (heq ▸ List.mem_cons_self)
    cases ps with
    | nil => simpa using hc
    | cons q qs => simpa [List.intercalate_cons_cons] using hc

theorem getLast?_intercalate (h : ∀ p ∈ ps, IsStep p) :
    (List.intercalate ['/'] ps).getLast? ≠ some '/' := by
  induction ps with
  | nil => exact nofun
  | cons p ps ih =>
    obtain ⟨hp, hps⟩ := List.forall_mem_cons.1 h
    cases ps with
    | nil =>
      rw [List.intercalate_singleton]
      exact fun hlast => hp.2 (List.mem_of_getLast? hlast)
    | cons q qs =>
      rw [List.intercalate_cons_cons,
        List.getLast?_append_of_ne_nil _ (intercalate_ne_nil hps (List.cons_ne_nil q qs))]
      exact ih hps

/-! ## Normal forms -/

theorem rootSlashes_cases (t : Text) : rootSlashes t = ['/'] ∨ rootSlashes t = ['/', '/'] := by
  unfold rootSlashes
  split <;> simp

/-- The slashes that are kept are all the slashes of a path that goes on with something else. -/
theorem rootSlashes_append (h : u.head? ≠ some '/') (t : Text) :
    rootSlashes (rootSlashes t ++ u) = rootSlashes t := by
  cases u with
  | nil => rcases rootSlashes_cases t with ht | ht <;> rw [ht] <;> rfl
  | cons c u =>
    have hc : c ≠ '/' := fun heq => h (congrArg some heq)
    rcases rootSlashes_cases t with ht | ht <;> rw [ht] <;> simp [rootSlashes, hc]

theorem steps_rootSlashes (t u : Text) : steps (rootSlashes t ++ u) = steps u := by
  rcases rootSlashes_cases t with ht | ht <;> rw [ht] <;> simp [steps_slash]

/-- What follows the leading slashes of a normal path. -/
def normalRest (t : Text) : Text :=
  List.intercalate ['/'] (steps t) ++ if t.getLast? = some '/' ∧ steps t ≠ [] then ['/'] else []

theorem normalize_eq (t : Text) : normalize t = rootSlashes t ++ normalRest t :=
  List.append_assoc ..

theorem isAbsolute_normalize (t : Text) : isAbsolute (normalize t) = true := by
  rw [normalize_eq]
  rcases rootSlashes_cases t with ht | ht <;> rw [ht] <;> rfl

theorem steps_normalRest (t : Text) : steps (normalRest t) = steps t := by
  have hsteps := steps_intercalate fun p hp => isStep_of_mem_steps (t := t) hp
  rw [normalRest]
  split
  · rw [steps_append_slash, hsteps, steps_nil, List.append_nil]
  · rw [List.append_nil, hsteps]

/-- A normal path has the steps of the path. -/
theorem steps_normalize (t : Text) : steps (normalize t) = steps t := by
  rw [normalize_eq, steps_rootSlashes, steps_normalRest]

theorem head?_normalRest (t : Text) : (normalRest t).head? ≠ some '/' := by
  have hstep : ∀ p ∈ steps t, IsStep p := fun p => isStep_of_mem_steps
  rw [normalRest]
  split
  · next h =>
    rw [List.head?_append_of_ne_nil _ (intercalate_ne_nil hstep h.2)]
    exact head?_intercalate hstep
  · rw [List.append_nil]
    exact head?_intercalate hstep

theorem rootSlashes_normalize (t : Text) : rootSlashes (normalize t) = rootSlashes t := by
  rw [normalize_eq, rootSlashes_append (head?_normalRest t)]

/-- Where there are steps, a normal path ends in a slash just as the path does. -/
theorem getLast?_normalize_iff (h : steps t ≠ []) :
    (normalize t).getLast? = some '/' ↔ t.getLast? = some '/' := by
  have hstep : ∀ p ∈ steps t, IsStep p := fun p => isStep_of_mem_steps
  rw [normalize_eq, normalRest]
  by_cases hlast : t.getLast? = some '/'
  · refine iff_of_true ?_ hlast
    rw [if_pos ⟨hlast, h⟩, ← List.append_assoc, List.getLast?_concat]
  · refine iff_of_false ?_ hlast
    rw [if_neg fun hif => hlast hif.1, List.append_nil,
      List.getLast?_append_of_ne_nil _ (intercalate_ne_nil hstep h)]
    exact getLast?_intercalate hstep

/-- A normal path is its own normal form. -/
theorem normalize_normalize (t : Text) : normalize (normalize t) = normalize t := by
  have hrest : normalRest (normalize t) = normalRest t := by
    rw [normalRest, steps_normalize, normalRest]
    congr 1
    refine if_congr (and_congr_left fun h => getLast?_normalize_iff h) rfl rfl
  rw [normalize_eq, rootSlashes_normalize, hrest, normalize_eq]

/-! ## The end of a file name -/

variable {e : Text}

/-- What stands behind the last dot, read from the end. -/
theorem takeWhile_reverse (h : '.' ∉ e) (stem : Text) :
    (stem ++ '.' :: e).reverse.takeWhile (· ≠ '.') = e.reverse := by
  have hall : ∀ c ∈ e.reverse, decide (c ≠ '.') = true := fun c hc =>
    decide_eq_true fun heq => h (heq ▸ List.mem_reverse.1 hc)
  have hreverse : (stem ++ '.' :: e).reverse = e.reverse ++ '.' :: stem.reverse := by simp
  rw [hreverse, List.takeWhile_append_of_pos hall, List.takeWhile_cons_of_neg (by simp),
    List.append_nil]

/-- A text with a dot has a last one. -/
theorem exists_last_dot {name : Text} (h : '.' ∈ name) :
    ∃ stem e, name = stem ++ '.' :: e ∧ '.' ∉ e := by
  obtain ⟨tail, front, hreverse, htail⟩ := List.eq_append_cons_of_mem (List.mem_reverse.2 h)
  refine ⟨front.reverse, tail.reverse, ?_, fun hmem => htail (List.mem_reverse.1 hmem)⟩
  rw [← List.reverse_reverse name, hreverse]
  simp

/-- A file name has an extension if something stands before its last dot and the extension behind
it. -/
theorem extension?_eq_some_iff {t : Text} (he : e ≠ []) : extension? t = some e ↔
    '.' ∉ e ∧ ∃ stem, stem ≠ [] ∧ fileName t = stem ++ '.' :: e := by
  rw [extension?]
  generalize fileName t = name
  constructor
  · intro h
    obtain ⟨-, h⟩ := Option.ite_none_left_eq_some.1 h
    obtain ⟨hlength, htail⟩ := Option.ite_none_right_eq_some.1 h
    have hdot : '.' ∈ name := by
      by_contra hdot
      have hall : ∀ c ∈ name.reverse, decide (c ≠ '.') = true := fun c hc =>
        decide_eq_true fun heq => hdot (heq ▸ List.mem_reverse.1 hc)
      rw [← List.append_nil name.reverse, List.takeWhile_append_of_pos hall, List.takeWhile_nil,
        List.append_nil, List.length_reverse] at hlength
      omega
    obtain ⟨stem, tail, rfl, htailDot⟩ := exists_last_dot hdot
    rw [takeWhile_reverse htailDot] at hlength htail
    obtain rfl : tail = e := by simpa using htail
    refine ⟨htailDot, stem, ?_, rfl⟩
    rintro rfl
    simp at hlength
  · rintro ⟨hdot, stem, hstem, rfl⟩
    have hstem := List.length_pos_iff.2 hstem
    have he := List.length_pos_iff.2 he
    have hup : stem ++ '.' :: e ≠ ['.', '.'] := by
      intro heq
      have := congrArg List.length heq
      simp only [List.length_append, List.length_cons, List.length_nil] at this
      omega
    have hlength : e.reverse.length + 1 < (stem ++ '.' :: e).length := by
      rw [List.length_reverse, List.length_append, List.length_cons]
      omega
    simp only [if_neg hup, takeWhile_reverse hdot, if_pos hlength, List.reverse_reverse]

end Path
end ElmScope
