import ElmScope.Proofs.Exports.View
import ElmScope.Proofs.Tree.Within
/-!
# The contents of the table of exports

What the table says about every name of every file, also where a name is declared more than once
and where a declaration has no name. Five groups of declarations are entered one after the other,
each under its own reading of the exposing list; four keep what has their name and the last one
replaces it. So one declaration of each group counts, and the groups rank: types, by their last
declaration of the name, then functions, ports, operators and aliases, by their first (`Entered`).

* `get?_ofSource_iff` — what the table has under a name, exactly
* `constructor?_eq_some_iff` — the first variant of a name in the first entry that lists one
* `ofSource_contents` — both, when there is something, and the order in which all is listed
-/
namespace ElmScope

namespace Source

/-- The name of a value declaration. -/
def valueName? (s : Source) (d : Nat) : Option String := (s.functionName? d).map s.textOf

end Source

/-- Whether a constructor of a name comes along with a definition. -/
def Export.Lists (e : Export) (name : String) : Prop := ∃ c ∈ e.constructors, c.name = name

namespace Exports

/-- No definition but a type comes with constructors. -/
def plain (_ : String) (_ : Nat) : List ExportedConstructor := []

/-! ## Which declaration of a name counts -/

section
variable (nodes : List Nat) (name? : Nat → Option String) (name : String)

/-- Whether one of some declarations declares a name. -/
def Declared : Prop := ∃ n ∈ nodes, name? n = some name

/-- Whether a node is the first of some declarations that declares a name. -/
def First (d : Nat) : Prop :=
  (d ∈ nodes ∧ name? d = some name) ∧ ∀ n ∈ nodes, name? n = some name → d ≤ n

/-- Whether a node is the last of some declarations that declares a name. -/
def Last (d : Nat) : Prop :=
  (d ∈ nodes ∧ name? d = some name) ∧ ∀ n ∈ nodes, name? n = some name → n ≤ d

end

section
variable (s : Source) (name : String)

/-- Whether a type of a name is visible to other modules. -/
def TypeVisible : Prop :=
  s.exposing.exposesType name = true ∧ Declared s.typeDeclarations s.declaredName? name

/-- What stands in the table under a name, by the rank of its kind: the last type of the name, or
else the first function, port, operator or alias. -/
inductive Entered : DefinitionKind → Nat → Prop
  | type {d : Nat} (hvisible : s.exposing.exposesType name = true)
    (hd : Last s.typeDeclarations s.declaredName? name d) : Entered .type d
  | function {d : Nat} (hvisible : s.exposing.exposes name = true) (htype : ¬TypeVisible s name)
    (hd : First s.valueDeclarations s.valueName? name d) : Entered .function d
  | port {d : Nat} (hvisible : s.exposing.exposes name = true) (htype : ¬TypeVisible s name)
    (hfunction : ¬Declared s.valueDeclarations s.valueName? name)
    (hd : First s.portAnnotations s.declaredName? name d) : Entered .port d
  | operator {d : Nat} (hvisible : s.exposing.exposes name = true) (htype : ¬TypeVisible s name)
    (hfunction : ¬Declared s.valueDeclarations s.valueName? name)
    (hport : ¬Declared s.portAnnotations s.declaredName? name)
    (hd : First s.infixDeclarations s.operatorName? name d) : Entered .operator d
  | typeAlias {d : Nat} (hvisible : s.exposing.exposesType name = true)
    (htype : ¬TypeVisible s name)
    (hfunction : ¬Declared s.valueDeclarations s.valueName? name)
    (hport : ¬Declared s.portAnnotations s.declaredName? name)
    (hoperator : ¬Declared s.infixDeclarations s.operatorName? name)
    (hd : First s.aliasDeclarations s.declaredName? name d) : Entered .typeAlias d

/-- Whether the constructors of a definition are the visible variants of its type, in order and
under their names. Only a type has any. -/
def CarriesVariants (e : Export) : Prop :=
  if e.kind = .type then
    e.constructors.map (·.node) = (s.variants e.node).filter (fun v =>
        (s.declaredName? v).any (s.exposing.exposesConstructor e.name)) ∧
      ∀ c ∈ e.constructors, s.declaredName? c.node = some c.name
  else e.constructors = []

end

variable {s : Source} {name : String} {e : Export} {c : ExportedConstructor}

/-! ## One group -/

section
variable {nodes : List Nat} {name? : Nat → Option String} {admits : String → Bool}
  {kind : DefinitionKind} {constructors : String → Nat → List ExportedConstructor}

theorem find?_visible : (visible nodes name? admits kind constructors).find? (·.name = name) =
    if admits name then
      (nodes.find? fun n => name? n = some name).map fun n => ⟨name, n, kind, constructors name n⟩
    else none := by
  induction nodes with
  | nil => simp [visible]
  | cons n nodes ih =>
    rw [visible] at ih ⊢
    by_cases hn : name? n = some name
    · by_cases ha : admits name
      · simp [hn, ha, Option.filter_some]
      · simpa [hn, ha, Option.filter_some] using ih
    · have hnone : ∀ x, ((name? n).filter admits).map (fun name => (⟨name, n, kind,
          constructors name n⟩ : Export)) = some x → x.name ≠ name := by
        rintro x hx rfl
        obtain ⟨other, hother, rfl⟩ := Option.map_eq_some_iff.1 hx
        exact hn (Option.filter_eq_some_iff.1 hother).1
      rw [List.find?_cons_of_neg (by simpa using hn), ← ih, List.filterMap_cons]
      split
      · rfl
      · next x hx => rw [List.find?_cons_of_neg (by simpa using hnone x hx)]

theorem reverse_visible : (visible nodes name? admits kind constructors).reverse =
    visible nodes.reverse name? admits kind constructors := by
  rw [visible, visible, List.filterMap_reverse]

theorem isSome_find?_visible_iff :
    ((visible nodes name? admits kind constructors).find? (·.name = name)).isSome ↔
      admits name = true ∧ Declared nodes name? name := by
  rw [find?_visible, Declared]
  by_cases ha : admits name <;> simp [ha]

theorem find?_visible_eq_none_iff :
    (visible nodes name? admits kind constructors).find? (·.name = name) = none ↔
      (admits name = true → ¬Declared nodes name? name) := by
  rw [← Option.not_isSome_iff_eq_none, isSome_find?_visible_iff, not_and]

/-- What a group has under a name is what the declaration found first makes of it. -/
theorem find?_visible_eq_some_iff :
    (visible nodes name? admits kind constructors).find? (·.name = name) = some e ↔
      admits name = true ∧ nodes.find? (fun n => name? n = some name) = some e.node ∧
        ⟨name, e.node, kind, constructors name e.node⟩ = e := by
  rw [find?_visible, Option.ite_none_right_eq_some, Option.map_eq_some_iff]
  constructor
  · rintro ⟨ha, n, hn, rfl⟩
    exact ⟨ha, hn, rfl⟩
  · rintro ⟨ha, hn, he⟩
    exact ⟨ha, e.node, hn, he⟩

theorem find?_eq_some_iff_first (h : nodes.Pairwise (· < ·)) {d : Nat} :
    nodes.find? (fun n => name? n = some name) = some d ↔ First nodes name? name d := by
  simp only [find?_eq_some_iff_least h, decide_eq_true_eq, First]

theorem find?_reverse_eq_some_iff_last (h : nodes.Pairwise (· < ·)) {d : Nat} :
    nodes.reverse.find? (fun n => name? n = some name) = some d ↔ Last nodes name? name d := by
  simp only [find?_reverse_eq_some_iff_greatest h, decide_eq_true_eq, Last]

end

/-! ## All groups -/

theorem exposes_of_exposesType (h : s.exposing.exposesType name = true) :
    s.exposing.exposes name = true := by
  rw [Exposing.exposesType, Bool.or_eq_true, Option.any_eq_true] at h
  rw [Exposing.exposes, Bool.or_eq_true]
  exact h.imp id fun ⟨item, hitem, _⟩ => Option.isSome_of_mem hitem

theorem find?_deferring : (deferring s).find? (·.name = name) =
    ((visible s.valueDeclarations s.valueName? s.exposing.exposes .function plain).find?
        fun e => e.name = name).or
      (((visible s.portAnnotations s.declaredName? s.exposing.exposes .port plain).find?
        fun e => e.name = name).or
      (((visible s.infixDeclarations s.operatorName? s.exposing.exposes .operator plain).find?
        fun e => e.name = name).or
      ((visible s.aliasDeclarations s.declaredName? s.exposing.exposesType .typeAlias plain).find?
        fun e => e.name = name))) := by
  simp only [deferring, List.find?_append, Option.or_assoc]
  rfl

theorem find?_replacing_reverse_eq_none_iff :
    (replacing s).reverse.find? (·.name = name) = none ↔ ¬TypeVisible s name := by
  rw [replacing, reverse_visible, find?_visible_eq_none_iff, TypeVisible, Declared, Declared]
  simp only [List.mem_reverse, not_and]

/-- The table has something under a name, if a value or a type declares it and is visible. -/
theorem isSome_get?_ofSource_iff : ((ofSource s).get? name).isSome ↔
    (Declared s.valueDeclarations s.valueName? name ∨
        Declared s.portAnnotations s.declaredName? name ∨
        Declared s.infixDeclarations s.operatorName? name) ∧ s.exposing.exposes name = true ∨
      (Declared s.aliasDeclarations s.declaredName? name ∨
        Declared s.typeDeclarations s.declaredName? name) ∧
          s.exposing.exposesType name = true := by
  have htype : ((replacing s).reverse.find? (·.name = name)).isSome ↔ TypeVisible s name := by
    rw [← not_iff_not, Option.not_isSome_iff_eq_none, find?_replacing_reverse_eq_none_iff]
  simp only [get?_ofSource, find?_deferring, Option.isSome_or, Bool.or_eq_true, htype,
    isSome_find?_visible_iff, TypeVisible]
  constructor
  · rintro (⟨hv, h⟩ | ⟨hv, h⟩ | ⟨hv, h⟩ | ⟨hv, h⟩ | ⟨hv, h⟩)
    exacts [.inr ⟨.inr h, hv⟩, .inl ⟨.inl h, hv⟩, .inl ⟨.inr (.inl h), hv⟩,
      .inl ⟨.inr (.inr h), hv⟩, .inr ⟨.inl h, hv⟩]
  · rintro (⟨h | h | h, hv⟩ | ⟨h | h, hv⟩)
    exacts [.inr (.inl ⟨hv, h⟩), .inr (.inr (.inl ⟨hv, h⟩)), .inr (.inr (.inr (.inl ⟨hv, h⟩))),
      .inr (.inr (.inr (.inr ⟨hv, h⟩))), .inl ⟨hv, h⟩]

/-- What the table has under a name, by the rank of the groups. -/
theorem get?_ofSource_iff : (ofSource s).get? name = some e ↔
    Entered s name e.kind e.node ∧ e.name = name ∧
      e.constructors = if e.kind = .type then visibleConstructors s name e.node else [] := by
  have htypes : s.typeDeclarations.Pairwise (· < ·) := Tree.pairwise_childrenOf ..
  have hvalues : s.valueDeclarations.Pairwise (· < ·) := Tree.pairwise_childrenOf ..
  have hports : s.portAnnotations.Pairwise (· < ·) := Tree.pairwise_childrenOf ..
  have hoperators : s.infixDeclarations.Pairwise (· < ·) := Tree.pairwise_childrenOf ..
  have haliases : s.aliasDeclarations.Pairwise (· < ·) := Tree.pairwise_childrenOf ..
  rw [get?_ofSource, Option.or_eq_some_iff, find?_replacing_reverse_eq_none_iff, replacing,
    reverse_visible, find?_deferring]
  simp only [Option.or_eq_some_iff, find?_visible_eq_none_iff, find?_visible_eq_some_iff,
    find?_reverse_eq_some_iff_last htypes, find?_eq_some_iff_first hvalues,
    find?_eq_some_iff_first hports, find?_eq_some_iff_first hoperators,
    find?_eq_some_iff_first haliases]
  obtain ⟨n, d, k, cs⟩ := e
  dsimp only
  constructor
  · rintro (⟨hv, hd, he⟩ | ⟨htype, ⟨hv, hd, he⟩ | ⟨hf, ⟨hv, hd, he⟩ | ⟨hp, ⟨hv, hd, he⟩ |
      ⟨ho, hv, hd, he⟩⟩⟩⟩) <;>
      (simp only [Export.mk.injEq] at he; obtain ⟨rfl, -, rfl, rfl⟩ := he)
    · exact ⟨.type hv hd, rfl, rfl⟩
    · exact ⟨.function hv htype hd, rfl, rfl⟩
    · exact ⟨.port hv htype (hf hv) hd, rfl, rfl⟩
    · exact ⟨.operator hv htype (hf hv) (hp hv) hd, rfl, rfl⟩
    · have hx := exposes_of_exposesType hv
      exact ⟨.typeAlias hv htype (hf hx) (hp hx) (ho hx) hd, rfl, rfl⟩
  · rintro ⟨hentered, rfl, hcs⟩
    rw [hcs]
    cases hentered with
    | type hv hd => exact .inl ⟨hv, hd, rfl⟩
    | function hv htype hd => exact .inr ⟨htype, .inl ⟨hv, hd, rfl⟩⟩
    | port hv htype hf hd => exact .inr ⟨htype, .inr ⟨fun _ => hf, .inl ⟨hv, hd, rfl⟩⟩⟩
    | operator hv htype hf hp hd =>
      exact .inr ⟨htype, .inr ⟨fun _ => hf, .inr ⟨fun _ => hp, .inl ⟨hv, hd, rfl⟩⟩⟩⟩
    | typeAlias hv htype hf hp ho hd =>
      exact .inr ⟨htype, .inr ⟨fun _ => hf, .inr ⟨fun _ => hp, .inr ⟨fun _ => ho, hv, hd, rfl⟩⟩⟩⟩

/-! ## Constructors -/

theorem map_node_visibleConstructors (s : Source) (typeName : String) (t : Nat) :
    (visibleConstructors s typeName t).map (·.node) = (s.variants t).filter fun v =>
      (s.declaredName? v).any (s.exposing.exposesConstructor typeName) := by
  rw [visibleConstructors]
  induction s.variants t with
  | nil => rfl
  | cons v vs ih =>
    cases hv : s.declaredName? v with
    | none => simp [hv, ih]
    | some other => by_cases hx : s.exposing.exposesConstructor typeName other <;>
        simp [hv, hx, Option.filter_some, ih]

theorem eq_of_declaredName? {cs : List ExportedConstructor}
    (h : ∀ c ∈ cs, s.declaredName? c.node = some c.name) :
    cs = (cs.map (·.node)).filterMap fun v => (s.declaredName? v).map fun name => ⟨name, v⟩ := by
  induction cs with
  | nil => rfl
  | cons c cs ih =>
    rw [List.forall_mem_cons] at h
    rw [List.map_cons, List.filterMap_cons, h.1, Option.map_some, ← ih h.2]

/-- Constructors are known by their nodes, if they go by the names these declare. -/
theorem eq_visibleConstructors_iff {typeName : String} {t : Nat} {cs : List ExportedConstructor} :
    cs = visibleConstructors s typeName t ↔
      cs.map (·.node) = (s.variants t).filter (fun v =>
          (s.declaredName? v).any (s.exposing.exposesConstructor typeName)) ∧
        ∀ c ∈ cs, s.declaredName? c.node = some c.name := by
  have hnames : ∀ c ∈ visibleConstructors s typeName t, s.declaredName? c.node = some c.name :=
    fun c hc => (Source.mem_visibleConstructors_iff.1 hc).2.1
  constructor
  · rintro rfl
    exact ⟨map_node_visibleConstructors s typeName t, hnames⟩
  · rintro ⟨hnodes, hcs⟩
    rw [eq_of_declaredName? hcs, hnodes, ← map_node_visibleConstructors,
      ← eq_of_declaredName? hnames]

theorem carriesVariants_iff : CarriesVariants s e ↔
    e.constructors = if e.kind = .type then visibleConstructors s e.name e.node else [] := by
  rw [CarriesVariants]
  split
  · exact eq_visibleConstructors_iff.symm
  · rfl

/-- The constructors of an entry stand in document order. -/
theorem pairwise_constructors (he : e ∈ (ofSource s).toList) :
    e.constructors.Pairwise (·.node < ·.node) := by
  obtain ⟨-, -, hcs⟩ := get?_ofSource_iff.1 (mem_toList_iff.1 he)
  rw [hcs]
  split
  · rw [← List.pairwise_map (f := ExportedConstructor.node) (R := (· < ·)),
      map_node_visibleConstructors]
    exact (Tree.pairwise_childrenOf s.tree _ _).filter _
  · exact List.Pairwise.nil

/-! ## The list of all entries -/

/-- The entries ascend by their names. -/
theorem pairwise_toList (s : Source) : (ofSource s).toList.Pairwise (·.name < ·.name) := by
  have hasc := ascending_ofSource s
  rw [toList, NameMap.values, List.pairwise_map]
  refine List.Pairwise.imp_of_mem (fun {a b} ha hb hlt => ?_) hasc
  have hname : ∀ a ∈ (ofSource s).table.entries, a.2.name = a.1 := fun a ha =>
    (get?_ofSource_sound (NameMap.get?_of_mem hasc ha)).2
  rwa [hname a ha, hname b hb]

theorem constructor?_eq_bind (x : Exports) (name : String) : x.constructor? name =
    (x.toList.find? fun e => e.constructors.any (·.name = name)).bind fun e =>
      (e.constructors.find? (·.name = name)).map fun c => (e, c) := by
  rw [constructor?, findSome?_eq_bind_find?]
  congr 2
  funext e
  rw [Option.isSome_map, Bool.eq_iff_iff, List.find?_isSome, List.any_eq_true]

/-- A constructor is sought in the entries by their names, and in an entry in document order. -/
theorem constructor?_eq_some_iff : (ofSource s).constructor? name = some (e, c) ↔
    ((e ∈ (ofSource s).toList ∧ e.Lists name) ∧
      ∀ x ∈ (ofSource s).toList, x.Lists name → x = e ∨ e.name < x.name) ∧
    (c ∈ e.constructors ∧ c.name = name) ∧
      ∀ k ∈ e.constructors, k.name = name → k = c ∨ c.node < k.node := by
  have hlists : ∀ x : Export, (x.constructors.any (·.name = name)) = true ↔ x.Lists name := by
    simp [Export.Lists]
  rw [constructor?_eq_bind, Option.bind_eq_some_iff]
  simp only [Option.map_eq_some_iff, Prod.mk.injEq]
  have hentries (e : Export) :
      (ofSource s).toList.find? (fun e => e.constructors.any (·.name = name)) = some e ↔ _ :=
    find?_eq_some_iff_of_pairwise (pairwise_toList s) fun _ _ => String.lt_asymm
  simp only [hlists] at hentries
  constructor
  · rintro ⟨e, he, c, hc, rfl, rfl⟩
    have he := (hentries e).1 he
    rw [find?_eq_some_iff_of_pairwise (pairwise_constructors he.1.1) fun _ _ => Nat.lt_asymm] at hc
    exact ⟨he, by simpa using hc⟩
  · rintro ⟨he, hc⟩
    refine ⟨e, (hentries e).2 he, c, ?_, rfl, rfl⟩
    rw [find?_eq_some_iff_of_pairwise (pairwise_constructors he.1.1) fun _ _ => Nat.lt_asymm]
    simpa using hc

theorem isSome_constructor?_iff : ((ofSource s).constructor? name).isSome ↔
    ∃ e ∈ (ofSource s).toList, e.Lists name := by
  rw [constructor?, List.findSome?_isSome_iff]
  simp [Export.Lists]

/-- **The contents of the table of exports.** In every file, under each name there is something
exactly if a declaration of the name is visible, and then it is the one declaration that ranks
first, with its visible variants if it is a type. A constructor is found exactly if some entry
lists it, and then as the first variant of the name in the entry of the least name. The entries are
listed in ascending order of their names, each once. -/
theorem ofSource_contents (s : Source) :
    (∀ name, ((ofSource s).get? name).isSome ↔
      (Declared s.valueDeclarations s.valueName? name ∨
          Declared s.portAnnotations s.declaredName? name ∨
          Declared s.infixDeclarations s.operatorName? name) ∧ s.exposing.exposes name = true ∨
        (Declared s.aliasDeclarations s.declaredName? name ∨
          Declared s.typeDeclarations s.declaredName? name) ∧
            s.exposing.exposesType name = true) ∧
    (∀ name e, (ofSource s).get? name = some e ↔
      e.name = name ∧ Entered s name e.kind e.node ∧ CarriesVariants s e) ∧
    (∀ name, ((ofSource s).constructor? name).isSome ↔
      ∃ e ∈ (ofSource s).toList, e.Lists name) ∧
    (∀ name e c, (ofSource s).constructor? name = some (e, c) ↔
      ((e ∈ (ofSource s).toList ∧ e.Lists name) ∧
        ∀ x ∈ (ofSource s).toList, x.Lists name → x = e ∨ e.name < x.name) ∧
      (c ∈ e.constructors ∧ c.name = name) ∧
        ∀ k ∈ e.constructors, k.name = name → k = c ∨ c.node < k.node) ∧
    (ofSource s).toList.Pairwise (·.name < ·.name) ∧
      ∀ e, e ∈ (ofSource s).toList ↔ (ofSource s).get? e.name = some e := by
  refine ⟨fun name => isSome_get?_ofSource_iff, fun name e => ?_,
    fun name => isSome_constructor?_iff, fun name e c => constructor?_eq_some_iff,
    pairwise_toList s, fun e => mem_toList_iff⟩
  rw [get?_ofSource_iff, carriesVariants_iff]
  constructor
  · rintro ⟨hentered, rfl, hcs⟩
    exact ⟨rfl, hentered, hcs⟩
  · rintro ⟨rfl, hentered, hcs⟩
    exact ⟨hentered, rfl, hcs⟩

end Exports
end ElmScope
