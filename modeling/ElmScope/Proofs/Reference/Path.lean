import ElmScope.Proofs.Text.Places
import ElmScope.Proofs.Tree.Within
import ElmScope.Reference
/-!
# References in dotted paths

A path is read by its segments: they are collected by kind, the one asked about is found among them
by its number, and what comes before it is written out again with dots. A path as the grammar shapes
it is a list of identifiers with a single dot between any two (`Dotted`), so its segments are its
identifiers, and the text written out again is the text of the path.

* `segments_of_dotted` — the segments of a path are its identifiers
* `inPath?_of_append`, `inPath?_last` — what a segment refers to, by what stands around it
* `ofNode?_path` — the references of a path, segment by segment
-/
namespace ElmScope
namespace Reference

/-! ## Segments of a list -/

section
variable {α : Type} [DecidableEq α] {before after l : List α} {a : α}

theorem takeWhile_ne_append_cons (h : (before ++ a :: after).Nodup) :
    (before ++ a :: after).takeWhile (· ≠ a) = before := by
  have hbefore : ∀ b ∈ before, decide (b ≠ a) = true := by
    intro b hb
    rw [decide_eq_true_eq]
    rintro rfl
    exact (List.nodup_append.1 h).2.2 b hb b List.mem_cons_self rfl
  rw [List.takeWhile_append_of_pos hbefore, List.takeWhile_cons_of_neg (by simp), List.append_nil]

theorem length_takeWhile_ne_getLast (hl : l.Nodup) (h : l.getLast? = some a) :
    (l.takeWhile (· ≠ a)).length + 1 = l.length := by
  obtain ⟨init, rfl⟩ := List.getLast?_eq_some_iff.1 h
  rw [takeWhile_ne_append_cons hl, List.length_append, List.length_singleton]

end

/-! ## Paths as the grammar shapes them -/

/-- Identifiers with a single dot between any two, of which all but the last are upper-case. The
first list holds the nodes, the second the identifiers among them. -/
inductive Dotted (t : Tree) : List Nat → List Nat → Prop
  | last {n : Nat} (hn : t.kind n = "upper_case_identifier" ∨ t.kind n = "lower_case_identifier") :
      Dotted t [n] [n]
  | dot {n d : Nat} {nodes names : List Nat} (hn : t.kind n = "upper_case_identifier")
      (hd : t.kind d = "dot" ∨ t.kind d = ".") (rest : Dotted t nodes names) :
      Dotted t (n :: d :: nodes) (n :: names)

/-- A path that holds identifiers with single dots between them, and no links against the shape of
the tree among these. -/
structure DottedPath (t : Tree) (path : Nat) (names : List Nat) : Prop where
  kind : t.kind path ∈ pathKinds
  nodes : Dotted t (t.children path) names
  links : ∀ m ∈ t.children path,
    t.irregular? .parent m = none ∧ t.irregular? .prevSibling m = none

variable {t : Tree} {s : Source} {path n last a b : Nat} {nodes names before after : List Nat}

theorem Dotted.ne_nil (h : Dotted t nodes names) : names ≠ [] := by
  cases h <;> simp

theorem Dotted.kind_of_mem (h : Dotted t nodes names) (hn : n ∈ names) :
    t.kind n = "upper_case_identifier" ∨ t.kind n = "lower_case_identifier" := by
  induction h with
  | last hk => rwa [List.mem_singleton.1 hn]
  | dot hk _ _ ih =>
    rcases List.mem_cons.1 hn with rfl | hn
    · exact .inl hk
    · exact ih hn

/-- The identifiers are the nodes that are segments by their kinds. -/
theorem Dotted.filter_eq (h : Dotted t nodes names) :
    (nodes.filter fun m =>
      ["upper_case_identifier", "lower_case_identifier"].contains (t.kind m)) = names := by
  induction h with
  | last hk => rcases hk with hk | hk <;> simp [hk]
  | dot hk hd _ ih => rcases hd with hd | hd <;> simpa [hk, hd] using ih

theorem Dotted.nodes_of_singleton (h : Dotted t nodes [n]) : nodes = [n] := by
  cases h with
  | last => rfl
  | dot _ _ rest => exact absurd rfl rest.ne_nil

/-- Before the last of several identifiers stands a dot, and before the dot an upper-case one. -/
theorem Dotted.exists_before_last (h : Dotted t nodes (before ++ [last])) (hne : before ≠ []) :
    ∃ init m d, nodes = init ++ [m, d, last] ∧ t.kind m = "upper_case_identifier" ∧
      (t.kind d = "dot" ∨ t.kind d = ".") := by
  generalize hnames : before ++ [last] = names at h
  induction h generalizing before with
  | last => simp [List.append_eq_singleton_iff, hne] at hnames
  | @dot n d nodes names hn hd rest ih =>
    obtain ⟨before, rfl⟩ : ∃ before', before = n :: before' := by
      cases before with
      | nil => exact absurd rfl hne
      | cons m before => exact ⟨before, by simp_all⟩
    obtain rfl : before ++ [last] = names := by simpa using hnames
    by_cases hbefore : before = []
    · subst hbefore
      exact ⟨[], n, d, by rw [rest.nodes_of_singleton]; rfl, hn, hd⟩
    · obtain ⟨init, m, d', rfl, hm, hd'⟩ := ih hbefore rfl
      exact ⟨n :: d :: init, m, d', rfl, hm, hd'⟩

theorem nodup_segments (t : Tree) (path : Nat) : (segments t path).Nodup :=
  (Tree.nodup_children t path).filter _

theorem segments_of_dotted (h : DottedPath t path names) : segments t path = names :=
  h.nodes.filter_eq

theorem DottedPath.mem_children (h : DottedPath t path names) (hn : n ∈ names) :
    n ∈ t.children path := by
  rw [← segments_of_dotted h] at hn
  exact List.mem_of_mem_filter hn

theorem DottedPath.parent?_eq (h : DottedPath t path names) (hn : n ∈ names) :
    t.parent? n = some path := by
  have hchild := h.mem_children hn
  rw [Tree.parent?_eq_shapeParent? (h.links n hchild).1, Tree.shapeParent?_of_mem_children hchild]

/-- The last of several segments follows a dot. -/
theorem DottedPath.followsDot_last (h : DottedPath t path (before ++ [last])) (hne : before ≠ []) :
    followsDot t last = true := by
  obtain ⟨init, m, d, hchildren, hm, hd⟩ := h.nodes.exists_before_last hne
  have hconcat : t.children path = (init ++ [m]) ++ d :: last :: [] := by simp [hchildren]
  have hlast : t.prevSibling? last = some d :=
    Tree.prevSibling?_of_children (h.links last (by simp [hchildren])).2 hconcat
  have hdot : t.prevSibling? d = some m :=
    Tree.prevSibling?_of_children (h.links d (by simp [hchildren])).2 hchildren
  rw [followsDot, hlast, Option.filter_some, if_pos (by simpa using hd), Option.bind_some, hdot]
  simp [hm]

/-! ## The text of a path -/

/-- Whether some nodes cover the bytes from `a` to `b` one right after the other. -/
def Tiles (t : Tree) : List Nat → Nat → Nat → Prop
  | [], a, b => a = b
  | n :: nodes, a, b => t.start n = a ∧ a ≤ t.stop n ∧ Tiles t nodes (t.stop n) b

instance decidableTiles (t : Tree) : ∀ nodes a b, Decidable (Tiles t nodes a b)
  | [], a, b => inferInstanceAs (Decidable (a = b))
  | n :: nodes, a, b =>
    have := decidableTiles t nodes (t.stop n) b
    inferInstanceAs (Decidable (t.start n = a ∧ a ≤ t.stop n ∧ Tiles t nodes (t.stop n) b))

/-- Whether a path is written without gaps, its dots as dots. -/
def Contiguous (s : Source) (path : Nat) : Prop :=
  Tiles s.tree (s.tree.children path) (s.tree.start path) (s.tree.stop path) ∧
    ∀ d ∈ s.tree.children path, s.tree.kind d = "dot" ∨ s.tree.kind d = "." → s.textOf d = "."

instance (s : Source) (path : Nat) : Decidable (Contiguous s path) :=
  inferInstanceAs (Decidable (_ ∧ ∀ _ ∈ _, _ → _))

theorem Tiles.le (h : Tiles t nodes a b) : a ≤ b := by
  induction nodes generalizing a with
  | nil => exact Nat.le_of_eq h
  | cons n nodes ih => exact Nat.le_trans h.2.1 (ih h.2.2)

/-- The segments of a path written out with dots are the text that the path covers. -/
theorem Dotted.dotted_eq (h : Dotted s.tree nodes names) (htiles : Tiles s.tree nodes a b)
    (hdots : ∀ d ∈ nodes, s.tree.kind d = "dot" ∨ s.tree.kind d = "." → s.textOf d = ".") :
    dotted s names = .ofList (s.text.slice a b) := by
  induction h generalizing a with
  | last =>
    obtain ⟨rfl, -, rfl⟩ := htiles
    simp [dotted, Source.textOf]
  | @dot n d nodes names _ hd rest ih =>
    obtain ⟨rfl, hn, hstart, hle, htiles⟩ := htiles
    have hrest := ih htiles fun d hd => hdots d (by simp [hd])
    have hdot : s.textOf d = "." := hdots d (by simp) hd
    have hne : names.map s.textOf ≠ [] := by simpa using rest.ne_nil
    have hnames : dotted s (n :: names) = s.textOf n ++ s.textOf d ++ dotted s names := by
      rw [dotted, List.map_cons, String.intercalate_cons_of_ne_nil hne, hdot, dotted]
    rw [hnames, hrest, Source.textOf, Source.textOf, hstart, ← String.ofList_append,
      ← String.ofList_append, Text.slice_append _ hn hle,
      Text.slice_append _ (Nat.le_trans hn hle) htiles.le]

theorem dotted_append_singleton (hne : before ≠ []) :
    dotted s (before ++ [n]) = dotted s before ++ "." ++ s.textOf n := by
  have hbefore : before.map s.textOf ≠ [] := by simpa using hne
  rw [dotted, List.map_append, String.intercalate_append_of_ne_nil hbefore (by simp)]
  simp [dotted]

/-! ## References of segments -/

/-- A reference as it is written: the qualifier, a dot and the name. -/
def spelling (r : Reference) : String :=
  match r.qualifier? with
  | some q => q ++ "." ++ r.name
  | none => r.name

/-- The qualifier that some segments before a name make. -/
def qualifierOf? (s : Source) (before : List Nat) : Option String :=
  if before = [] then none else some (dotted s before)

/-- Whether a path is the name of the module in its declaration or in an import of it. -/
def NamesModule (t : Tree) (path : Nat) : Prop :=
  ∃ p ∈ t.parent? path, t.kind p ∈ ["module_declaration", "import_clause"]

/-- Whether a path stands for a type. -/
def NamesType (t : Tree) (path : Nat) : Prop :=
  ∃ p ∈ t.parent? path, t.kind p = "type_ref"

instance (t : Tree) (path : Nat) : Decidable (NamesModule t path) :=
  inferInstanceAs (Decidable (∃ p ∈ t.parent? path, _))

instance (t : Tree) (path : Nat) : Decidable (NamesType t path) :=
  inferInstanceAs (Decidable (∃ p ∈ t.parent? path, _))

theorem spelling_qualifierOf? (namesp : Namespace) :
    spelling ⟨qualifierOf? s before, s.textOf n, namesp⟩ = dotted s (before ++ [n]) := by
  by_cases hne : before = []
  · simp [spelling, qualifierOf?, hne, dotted]
  · simp [spelling, qualifierOf?, hne, dotted_append_singleton]

theorem namespaceOf_lower (hn : t.kind n = "lower_case_identifier") :
    namespaceOf t path n = .value := by
  rw [namespaceOf, if_pos hn]

theorem namespaceOf_upper (hn : t.kind n = "upper_case_identifier") :
    namespaceOf t path n = if NamesModule t path then .module
      else if NamesType t path then .type else .constructor := by
  have hlower : t.kind n ≠ "lower_case_identifier" := by simp [hn]
  rw [namespaceOf, if_neg hlower]
  cases hp : t.parent? path with
  | none => simp [NamesModule, NamesType, hp]
  | some p =>
    simp only [NamesModule, NamesType, hp, Option.map_some, Option.mem_def, Option.some.injEq,
      exists_eq_left']
    split <;> simp_all

theorem identifier?_self (hk : s.tree.kind n ∈ identifierKinds) :
    identifier? s.tree n = some n := by
  simp only [identifierKinds, List.mem_cons, List.not_mem_nil, or_false] at hk
  rcases hk with hk | hk | hk <;> simp [identifier?, hk, pathKinds]

/-- A segment that is not the last one refers to a module, together with those before it. -/
theorem inPath?_of_append (h : segments s.tree path = before ++ n :: after) (hne : after ≠ []) :
    inPath? s path n = some (.unqualified (dotted s (before ++ [n])) .module) := by
  have hbefore := takeWhile_ne_append_cons (h ▸ nodup_segments s.tree path)
  have hlength : before.length + 1 ≠ (before ++ n :: after).length := by
    have := List.length_pos_iff.2 hne
    simp only [List.length_append, List.length_cons]
    omega
  simp only [inPath?, h, hbefore]
  rw [if_neg (by simp), if_pos hlength]

/-- The last segment refers to what its namespace and the segments before it say, if a dot stands
between it and those. -/
theorem inPath?_last (h : segments s.tree path = before ++ [n])
    (hdot : before ≠ [] → followsDot s.tree n = true) :
    inPath? s path n =
      match namespaceOf s.tree path n with
      | .module => some (.unqualified (s.textOf path) .module)
      | namesp => some ⟨qualifierOf? s before, s.textOf n, namesp⟩ := by
  have hbefore := takeWhile_ne_append_cons (h ▸ nodup_segments s.tree path)
  have hqualified : ¬((qualifierOf? s before).isSome && !followsDot s.tree n) = true := by
    by_cases hne : before = []
    · simp [qualifierOf?, hne]
    · simp [hdot hne]
  simp only [inPath?, h, hbefore]
  rw [if_neg (by simp), if_neg (by simp)]
  exact if_neg hqualified

section
variable (h : DottedPath s.tree path names)
include h

theorem DottedPath.identifier?_self (hn : n ∈ names) : identifier? s.tree n = some n := by
  refine Reference.identifier?_self ?_
  rcases h.nodes.kind_of_mem hn with hk | hk <;> simp [hk, identifierKinds]

/-- A segment is read in its path. -/
theorem DottedPath.ofNode?_eq_inPath? (hn : n ∈ names) : ofNode? s n = inPath? s path n := by
  have hkind : s.tree.kind n ∈ identifierKinds := by
    rcases h.nodes.kind_of_mem hn with hk | hk <;> simp [hk, identifierKinds]
  rw [ofNode?, h.identifier?_self hn, Option.bind_some, h.parent?_eq hn, Option.filter_some]
  simp [hkind, h.kind]

end

/-- Nodes that stand for one identifier stand for one reference. -/
theorem ofNode?_congr {m : Nat} (h : identifier? s.tree m = identifier? s.tree n) :
    ofNode? s m = ofNode? s n := by
  rw [ofNode?, ofNode?, h]

section
variable (h : DottedPath s.tree path (before ++ [last]))
include h

theorem DottedPath.lastSegment? : lastSegment? s.tree path = some last := by
  rw [Reference.lastSegment?, segments_of_dotted h, List.getLast?_concat]

theorem DottedPath.identifier?_path : identifier? s.tree path = some last := by
  have hpath : pathKinds.contains (s.tree.kind path) = true := List.contains_iff_mem.2 h.kind
  have hne : s.tree.kind path ≠ "value_expr" := by
    intro hk
    simp [hk, pathKinds] at hpath
  rw [identifier?, if_neg hne, if_pos hpath, h.lastSegment?]

theorem DottedPath.ofNode?_whole : ofNode? s path = ofNode? s last :=
  ofNode?_congr (h.identifier?_path.trans (h.identifier?_self (by simp)).symm)

/-- What the last segment of a path refers to. -/
theorem DottedPath.ofNode?_last : ofNode? s last =
    match namespaceOf s.tree path last with
    | .module => some (.unqualified (s.textOf path) .module)
    | namesp => some ⟨qualifierOf? s before, s.textOf last, namesp⟩ := by
  rw [h.ofNode?_eq_inPath? (by simp)]
  exact inPath?_last (segments_of_dotted h) h.followsDot_last

theorem DottedPath.ofNode?_last_of_ne (hne : namespaceOf s.tree path last ≠ .module) :
    ofNode? s last = some ⟨qualifierOf? s before, s.textOf last, namespaceOf s.tree path last⟩ := by
  rw [h.ofNode?_last]
  split
  · exact absurd ‹_› hne
  · rfl

end

/-! ## The references of a path -/

/-- **References read a dotted path correctly at every segment.** A segment that is not the last
one refers to the module that it names together with the segments before it. The last one refers to
its own text, qualified by the segments before it if there are any, so that qualifier, dot and name
are the path again; it means a value if it is lower-case, else a type where a type is referred to
and a constructor elsewhere. In the declaration or an import of a module an upper-case one refers to
the module that the whole path names. The path itself, and an expression that begins with it, refer
to what the last segment does. -/
theorem ofNode?_path (h : DottedPath s.tree path (before ++ [last])) :
    (∀ init n rest, before = init ++ n :: rest →
      ofNode? s n = some (.unqualified (dotted s (init ++ [n])) .module)) ∧
    (¬NamesModule s.tree path → ∃ r, ofNode? s last = some r ∧
      r.qualifier? = qualifierOf? s before ∧ r.name = s.textOf last ∧
      r.spelling = dotted s (before ++ [last]) ∧
      (Contiguous s path → r.spelling = s.textOf path) ∧
      r.namesp = if s.tree.kind last = "lower_case_identifier" then .value
        else if NamesType s.tree path then .type else .constructor) ∧
    (NamesModule s.tree path → s.tree.kind last = "upper_case_identifier" →
      ofNode? s last = some (.unqualified (s.textOf path) .module)) ∧
    ofNode? s path = ofNode? s last ∧
    ∀ e, s.tree.kind e = "value_expr" → (s.tree.namedChildren e).head? = some path →
      ofNode? s e = ofNode? s last := by
  refine ⟨?modules, ?name, ?module, h.ofNode?_whole, ?expression⟩
  case modules =>
    rintro init n rest rfl
    have hsegments : segments s.tree path = init ++ n :: (rest ++ [last]) := by
      rw [segments_of_dotted h, List.append_assoc, List.cons_append]
    rw [h.ofNode?_eq_inPath? (by simp)]
    exact inPath?_of_append hsegments (by simp)
  case name =>
    intro hmodule
    have hnamesp : namespaceOf s.tree path last =
        if s.tree.kind last = "lower_case_identifier" then .value
        else if NamesType s.tree path then .type else .constructor := by
      rcases h.nodes.kind_of_mem (n := last) (by simp) with hk | hk
      · simp [namespaceOf_upper hk, hmodule, hk]
      · simp [namespaceOf_lower hk, hk]
    have hne : namespaceOf s.tree path last ≠ .module := by
      rw [hnamesp]
      split_ifs <;> simp
    refine ⟨_, h.ofNode?_last_of_ne hne, rfl, rfl, spelling_qualifierOf? _, ?_, hnamesp⟩
    intro hc
    exact (spelling_qualifierOf? _).trans (h.nodes.dotted_eq hc.1 hc.2)
  case module =>
    intro hmodule hupper
    rw [h.ofNode?_last, namespaceOf_upper hupper, if_pos hmodule]
  case expression =>
    intro e he hhead
    refine (ofNode?_congr ?_).trans h.ofNode?_whole
    rw [h.identifier?_path, identifier?, if_pos he, hhead, Option.bind_some, h.lastSegment?]

end Reference

/-! ## A path with two qualifiers -/

namespace Sample

def padNodes : Array TreeNode :=
  #[ ⟨"file", true, none, 0, 55, none⟩,
     ⟨"import_clause", true, none, 0, 13, some 0⟩,
     ⟨"import", true, none, 0, 6, some 1⟩,
     ⟨"upper_case_qid", true, some "moduleName", 7, 13, some 1⟩,
     ⟨"upper_case_identifier", true, none, 7, 9, some 3⟩,
     ⟨"dot", true, none, 9, 10, some 3⟩,
     ⟨".", false, none, 9, 10, some 5⟩,
     ⟨"upper_case_identifier", true, none, 10, 13, some 3⟩,
     ⟨"type_annotation", true, none, 15, 32, some 0⟩,
     ⟨"lower_case_identifier", true, some "name", 15, 18, some 8⟩,
     ⟨"colon", true, none, 19, 20, some 8⟩,
     ⟨"type_expression", true, some "typeExpression", 21, 32, some 8⟩,
     ⟨"type_ref", true, some "part", 21, 32, some 11⟩,
     ⟨"upper_case_qid", true, none, 21, 32, some 12⟩,
     ⟨"upper_case_identifier", true, none, 21, 23, some 13⟩,
     ⟨"dot", true, none, 23, 24, some 13⟩,
     ⟨".", false, none, 23, 24, some 15⟩,
     ⟨"upper_case_identifier", true, none, 24, 27, some 13⟩,
     ⟨"dot", true, none, 27, 28, some 13⟩,
     ⟨".", false, none, 27, 28, some 18⟩,
     ⟨"upper_case_identifier", true, none, 28, 32, some 13⟩,
     ⟨"value_declaration", true, none, 33, 54, some 0⟩,
     ⟨"function_declaration_left", true, some "functionDeclarationLeft", 33, 36, some 21⟩,
     ⟨"lower_case_identifier", true, none, 33, 36, some 22⟩,
     ⟨"eq", true, none, 37, 38, some 21⟩,
     ⟨"value_expr", true, some "body", 43, 54, some 21⟩,
     ⟨"upper_case_qid", true, some "name", 43, 54, some 25⟩,
     ⟨"upper_case_identifier", true, none, 43, 45, some 26⟩,
     ⟨"dot", true, none, 45, 46, some 26⟩,
     ⟨".", false, none, 45, 46, some 28⟩,
     ⟨"upper_case_identifier", true, none, 46, 49, some 26⟩,
     ⟨"dot", true, none, 49, 50, some 26⟩,
     ⟨".", false, none, 49, 50, some 31⟩,
     ⟨"upper_case_identifier", true, none, 50, 54, some 26⟩ ]

/-- A value with an annotation, the type and the constructor qualified by an import. -/
def pad : Source where
  file := ⟨"file:///src/Pad.elm"⟩
  text := "import Ui.Box\n\npad : Ui.Box.Size\npad =\n    Ui.Box.Wide\n".toList
  tree := ⟨padNodes, Tree.subtreeEnds padNodes, [], by decide +kernel⟩
  writeable := true
  isDraft := false

theorem dottedPath_wide : Reference.DottedPath pad.tree 26 [27, 30, 33] where
  kind := by decide
  nodes := by
    have hchildren : pad.tree.children 26 = [27, 28, 30, 31, 33] := by decide +kernel
    rw [hchildren]
    exact .dot rfl (.inl rfl) (.dot rfl (.inl rfl) (.last (.inl rfl)))
  links := by decide +kernel

end Sample

namespace Reference

/-- The body of `pad` is a constructor under the name of its module. -/
theorem ofNode?_path_wide :
    DottedPath Sample.pad.tree 26 ([27, 30] ++ [33]) ∧ ¬NamesModule Sample.pad.tree 26 ∧
      Contiguous Sample.pad 26 ∧
      ofNode? Sample.pad 30 = some (.unqualified "Ui.Box" .module) ∧
      ∃ r, ofNode? Sample.pad 25 = some r ∧ r.qualifier? = some "Ui.Box" ∧ r.name = "Wide" ∧
        r.spelling = "Ui.Box.Wide" ∧ r.namesp = .constructor := by
  have h : DottedPath Sample.pad.tree 26 ([27, 30] ++ [33]) := Sample.dottedPath_wide
  have hmodule : ¬NamesModule Sample.pad.tree 26 := by decide +kernel
  have hcontiguous : Contiguous Sample.pad 26 := by decide +kernel
  obtain ⟨hmodules, hname, -, -, hexpression⟩ := ofNode?_path h
  obtain ⟨r, hr, hqualifier, hrname, -, hspelling, hnamesp⟩ := hname hmodule
  refine ⟨h, hmodule, hcontiguous, ?_, r, ?_, ?_, ?_, ?_, ?_⟩
  · exact (hmodules [27] 30 [] rfl).trans (by decide +kernel)
  · exact (hexpression 25 rfl (by decide +kernel)).trans hr
  · exact hqualifier.trans (by decide +kernel)
  · exact hrname.trans (by decide +kernel)
  · exact (hspelling hcontiguous).trans (by decide +kernel)
  · exact hnamesp.trans (by decide +kernel)

end Reference
end ElmScope
