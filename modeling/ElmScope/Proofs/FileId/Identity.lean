import ElmScope.FileId.Basic
import ElmScope.Proofs.FileId.Coding
import ElmScope.Proofs.Path.Steps
import Mathlib.Data.List.TakeDrop
import Mathlib.Data.List.TakeWhile
/-!
# One file, one identity

An identity is the normal form of a path, coded. So two paths have one identity exactly if they
have one normal form, and whatever spelling of a path an editor puts into a URI, the identity is
that of the path.

* `ofPath_eq_iff` — which paths have the same identity
* `ofUri_of_spells` — an editor's spelling of a path
* `isReference_ofPath` — an identity is a URI
* `identity_of_path` — all of this together
-/
namespace ElmScope

namespace Uri

variable {stop : Char → Bool} {t : Text}

theorem cutAt_eq (stop : Char → Bool) (t : Text) :
    cutAt stop t = (t.takeWhile fun c => !stop c, t.dropWhile fun c => !stop c) :=
  List.span_eq_takeWhile_dropWhile ..

theorem cutAt_of_forall (h : ∀ c ∈ t, stop c = false) : cutAt stop t = (t, []) := by
  have hkeep : ∀ c ∈ t, (!stop c) = true := fun c hc => by rw [h c hc, Bool.not_false]
  rw [cutAt_eq, List.takeWhile_eq_self_iff.2 hkeep, List.dropWhile_eq_nil_iff.2 hkeep]

/-- The scheme of files, no authority, and a path that starts at the root. -/
theorem isReference_file (hpath : isPath ('/' :: t) = true) (ht : ∀ c ∈ t, c ≠ '?' ∧ c ≠ '#') :
    isReference (FileId.scheme ++ '/' :: t) = true := by
  have hscheme : ∀ c ∈ FileId.scheme ++ ['/'], c ≠ '?' ∧ c ≠ '#' := by
    have hall : (FileId.scheme ++ ['/']).all (fun c => c ≠ '?' && c ≠ '#') = true := by decide
    rw [List.all_eq_true] at hall
    exact fun c hc => by simpa using hall c hc
  have hwhole : ∀ c ∈ FileId.scheme ++ '/' :: t, c ≠ '?' ∧ c ≠ '#' := by
    intro c hc
    rw [List.append_cons] at hc
    exact (List.mem_append.1 hc).elim (hscheme c) (ht c)
  have hfragment : cutAt (· = '#') (FileId.scheme ++ '/' :: t) = (FileId.scheme ++ '/' :: t, []) :=
    cutAt_of_forall fun c hc => decide_eq_false (hwhole c hc).2
  have hquery : cutAt (· = '?') (FileId.scheme ++ '/' :: t) = (FileId.scheme ++ '/' :: t, []) :=
    cutAt_of_forall fun c hc => decide_eq_false (hwhole c hc).1
  have hscheme : scheme? (FileId.scheme ++ '/' :: t) =
      some (['f', 'i', 'l', 'e'], '/' :: '/' :: '/' :: t) := by
    simp only [scheme?, cutAt_eq]
    rfl
  have hhierarchy : isHierarchy ('/' :: '/' :: '/' :: t) = true := by
    simp only [isHierarchy, cutAt_eq]
    exact hpath
  simp only [isReference, hfragment, hquery, hscheme, hhierarchy]
  rfl

end Uri

namespace FileId

variable {p q e : Text} {d d' : Option (List Text)}

/-! ## The text of an identity -/

theorem absolute?_of_isAbsolute (h : Path.isAbsolute p = true) (d : Option (List Text)) :
    Path.absolute? d p = some (Path.normalize p) := by
  rw [Path.absolute?, if_pos h]

theorem isAbsolute_of_absolute? (h : Path.absolute? d p = some q) : Path.isAbsolute q = true := by
  rw [Path.absolute?] at h
  split at h
  · obtain rfl := Option.some.inj h
    exact Path.isAbsolute_normalize p
  · split at h
    · cases h
    · obtain ⟨names, -, rfl⟩ := Option.map_eq_some_iff.1 h
      exact Path.isAbsolute_normalize _

theorem ofPath_of_absolute? (h : Path.absolute? d p = some q) :
    ofPath d p = ⟨.ofList (scheme ++ Percent.encode q)⟩ := by
  obtain ⟨t, rfl⟩ := List.head?_eq_some_iff.1 (of_decide_eq_true (isAbsolute_of_absolute? h))
  have hcoded : Path.isAbsolute (Percent.encode ('/' :: t)) = true := rfl
  simp only [ofPath, h, Option.getD_some, hcoded, if_true]

theorem ofPath_eq (h : Path.isAbsolute p = true) (d : Option (List Text)) :
    ofPath d p = ⟨.ofList (scheme ++ Percent.encode (Path.normalize p))⟩ :=
  ofPath_of_absolute? (absolute?_of_isAbsolute h d)

/-- The path behind a text that starts with the scheme of files. -/
theorem path?_ofList (e : Text) :
    path? ⟨.ofList (scheme ++ e)⟩ = some (Percent.decode e) := by
  simp only [path?, String.toList_ofList]
  rw [if_pos (List.isPrefixOf_iff_prefix.2 (List.prefix_append ..)), List.drop_left]

/-- The identity of a path leads back to the absolute path. -/
theorem path?_ofPath (h : Path.absolute? d p = some q) : (ofPath d p).path? = some q := by
  rw [ofPath_of_absolute? h, path?_ofList, Percent.decode_encode]

/-- Two paths have the same identity exactly if they are the same when made absolute. -/
theorem ofPath_eq_iff {p' q' : Text} (hp : Path.absolute? d p = some p')
    (hq : Path.absolute? d' q = some q') : ofPath d p = ofPath d' q ↔ p' = q' := by
  constructor
  · intro heq
    have hpath := congrArg path? heq
    rwa [path?_ofPath hp, path?_ofPath hq, Option.some.injEq] at hpath
  · rintro rfl
    rw [ofPath_of_absolute? hp, ofPath_of_absolute? hq]

/-! ## Identities of URIs -/

theorem ofUri_of_decode (h : Path.isAbsolute (Percent.decode e) = true)
    (d : Option (List Text)) : ofUri (.ofList (scheme ++ e)) = ofPath d (Percent.decode e) := by
  rw [ofUri, path?_ofList, ofPath_eq h d, ← ofPath_eq h none]
  exact if_pos h

/-- Whichever way a path is spelled in a URI, the identity is that of the path. -/
theorem ofUri_of_spells (hp : Path.isAbsolute p = true) (d : Option (List Text))
    (he : Percent.Spells e (Text.encode p)) : ofUri (.ofList (scheme ++ e)) = ofPath d p := by
  have hdecode := Percent.decode_of_spells he
  rw [ofUri_of_decode (hdecode.symm ▸ hp) d, hdecode]

/-- An identity read as a URI is itself. -/
theorem ofUri_ofPath (hp : Path.isAbsolute p = true) (d : Option (List Text)) :
    ofUri (ofPath d p).uri = ofPath d p := by
  have hnormal := Path.isAbsolute_normalize p
  rw [ofPath_eq hp]
  refine (ofUri_of_spells hnormal d (Percent.spells_encode _)).trans ?_
  rw [ofPath_eq hnormal, Path.normalize_normalize]

/-- A URI that names no absolute path is kept. -/
theorem ofUri_eq_self {uri : String} (h : ∀ e, uri = .ofList (scheme ++ e) →
    Path.isAbsolute (Percent.decode e) = false) : ofUri uri = ⟨uri⟩ := by
  by_cases hscheme : scheme <+: uri.toList
  · obtain ⟨e, he⟩ := hscheme
    have huri : uri = .ofList (scheme ++ e) := by rw [he, String.ofList_toList]
    rw [huri, ofUri, path?_ofList]
    simp only [h e huri, Bool.false_eq_true, if_false]
  · have hnone : path? ⟨uri⟩ = none := by
      rw [path?]
      exact if_neg (mt List.isPrefixOf_iff_prefix.1 hscheme)
    rw [ofUri, hnone]

/-! ## Identities as URIs -/

/-- An identity is a URI. -/
theorem isReference_ofPath (h : Path.absolute? d p = some q) :
    Uri.isReference (ofPath d p).uri.toList = true := by
  obtain ⟨t, rfl⟩ := List.head?_eq_some_iff.1 (of_decide_eq_true (isAbsolute_of_absolute? h))
  have htext : (ofPath d p).uri.toList = scheme ++ '/' :: Percent.encode t := by
    rw [ofPath_of_absolute? h, String.toList_ofList]
    rfl
  rw [htext]
  exact Uri.isReference_file (Percent.isPath_encode ('/' :: t)) fun c => Percent.ne_of_mem_encode

/-- **One file, one identity.** The identity of an absolute path leads back to the normal form of the
path. It is a URI, and read as one it is the same identity. Two paths have the same identity exactly
if they have the same normal form. Every spelling of the octets of the path in a URI leads to the
identity of the path, whichever octets are coded and in whichever case. All of this holds whatever
the working directory is. A URI with another scheme, or one that does not decode to an absolute
path, is kept as it stands. -/
theorem identity_of_path (d : Option (List Text)) :
    (∀ p, Path.isAbsolute p = true →
      (ofPath d p).path? = some (Path.normalize p) ∧
      Uri.isReference (ofPath d p).uri.toList = true ∧ ofUri (ofPath d p).uri = ofPath d p ∧
      (∀ d' q, Path.isAbsolute q = true →
        (ofPath d p = ofPath d' q ↔ Path.normalize p = Path.normalize q)) ∧
      ∀ e, Percent.Spells e (Text.encode p) → ofUri (.ofList (scheme ++ e)) = ofPath d p) ∧
    ∀ uri, (∀ e, uri = .ofList (scheme ++ e) → Path.isAbsolute (Percent.decode e) = false) →
      ofUri uri = ⟨uri⟩ := by
  refine ⟨fun p hp => ?_, fun uri h => ofUri_eq_self h⟩
  have habsolute := absolute?_of_isAbsolute hp d
  refine ⟨path?_ofPath habsolute, isReference_ofPath habsolute, ofUri_ofPath hp d, ?_, ?_⟩
  · exact fun d' q hq => ofPath_eq_iff habsolute (absolute?_of_isAbsolute hq d')
  · exact fun e he => ofUri_of_spells hp d he

end FileId

namespace Sample

/-- A path with an idle component, an accent, a blank and a percent sign. -/
def accented : Text := "/./é %".toList

/-- The way an editor may write it: digits of both cases, and a slash that is coded. -/
def accentedSpelling : Text := "%2f./%C3%a9%20%25".toList

theorem spells_accented : Percent.Spells accentedSpelling (Text.encode accented) := by
  have hoctets : Text.encode accented = [0x2F, 0x2E, 0x2F, 0xC3, 0xA9, 0x20, 0x25] := by
    decide +kernel
  rw [hoctets]
  refine .coded rfl rfl (.plain (c := '.') (by decide) (by decide) ?_)
  refine .plain (c := '/') (by decide) (by decide) (.coded rfl rfl (.coded rfl rfl ?_))
  exact .coded rfl rfl (.coded rfl rfl .nil)

end Sample

namespace FileId

theorem identity_of_path_accented :
    Path.isAbsolute Sample.accented = true ∧
      Percent.Spells Sample.accentedSpelling (Text.encode Sample.accented) ∧
      (ofPath none Sample.accented).path? = some "/é %".toList ∧
      Uri.isReference "file://%2f./%C3%a9%20%25".toList = true ∧
      ofUri "file://%2f./%C3%a9%20%25" = ofPath (some ["src".toList]) Sample.accented ∧
      ofUri "untitled:Untitled-1" = ⟨"untitled:Untitled-1"⟩ := by
  have habsolute : Path.isAbsolute Sample.accented = true := by decide
  obtain ⟨hpath, -⟩ := (identity_of_path none).1 Sample.accented habsolute
  obtain ⟨-, -, -, -, hspelled⟩ :=
    (identity_of_path (some ["src".toList])).1 Sample.accented habsolute
  refine ⟨habsolute, Sample.spells_accented, hpath.trans ?_, ?_, ?_,
    (identity_of_path none).2 _ ?_⟩
  · decide +kernel
  · decide +kernel
  · exact hspelled _ Sample.spells_accented
  · intro e he
    have hhead : "untitled:Untitled-1".toList.head? ≠ some 'f' := by decide
    rw [he, String.toList_ofList] at hhead
    exact absurd rfl hhead

end FileId
end ElmScope
