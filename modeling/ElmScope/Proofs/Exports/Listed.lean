import ElmScope.Proofs.Exports.View
/-!
# What an exposing list names

A written exposing list names types by items of their own kind, and a type named there is meant to
be visible to importers, with its variants if the item has `(..)` and without them if it has nothing.
Whether an item is taken as the item of a type is decided by the first letter of its name, and only
the letters from A to Z count. So a list exposes the types that it names exactly as far as their
names begin with one of those: a type `Éclair` stays hidden, and its variants with it.

* `exposesType_of_item`, `exposesConstructor_of_item` — what an item of the list lets through
* `exported_iff_startsWithCapital` — which of the listed types the table of exports has
-/
namespace ElmScope

/-- Whether a name begins with a capital of ASCII. -/
def StartsWithCapital (name : String) : Prop := ∃ c ∈ name.toList.head?, 'A' ≤ c ∧ c ≤ 'Z'

namespace Source

variable (s : Source)

/-- A file with a written exposing list, in which no name is declared twice among values and types
or among variants, and none is listed twice. -/
structure ListsOnce : Prop where
  explicit : ∃ list, s.exposingList? = some list ∧ s.tree.firstChild? "double_dot" list = none
  names : ((s.declarations .value ++ s.declarations .type).map (·.1)).Nodup
  variants :
    ((s.named (s.typeDeclarations.flatMap s.variants) s.declaredName? .unionConstructor).map
      (·.1)).Nodup
  items : (s.exposing.items.map (·.name)).Nodup

/-- Whether a node is the item of the exposing list for the type of a name. -/
def ListsType (name : String) (item : Nat) : Prop :=
  item ∈ s.exposingItems ∧ s.tree.kind item = "exposed_type" ∧
    ∃ u, s.tree.firstChild? "upper_case_identifier" item = some u ∧ s.textOf u = name

/-- The constructors that the item of a type carries. -/
def carried? (item : Nat) : Option Constructors :=
  (s.tree.firstChild? "exposed_union_constructors" item).map (Exposing.constructorsOf s)

variable {s} {name c : String} {item t v : Nat} {d : Definition} {e : Export}
  {x : ExportedConstructor}

/-! ## Items of the list -/

theorem exposing_of_explicit {list : Nat} (hlist : s.exposingList? = some list)
    (hdots : s.tree.firstChild? "double_dot" list = none) :
    s.exposing = .listed (s.exposingItems.filterMap (Exposing.itemOf? s)) := by
  simp [exposing, exposingItems, Exposing.ofNode, hlist, hdots]

theorem itemOf?_of_listsType (h : s.ListsType name item) :
    Exposing.itemOf? s item = some ⟨name, s.carried? item⟩ := by
  obtain ⟨-, hkind, u, hu, rfl⟩ := h
  simp [Exposing.itemOf?, hkind, hu, carried?]

/-- Where no name is listed twice, the item of a type is the one that its name finds. -/
theorem ListsOnce.item? (once : s.ListsOnce) (h : s.ListsType name item) :
    s.exposing.item? name = some ⟨name, s.carried? item⟩ := by
  obtain ⟨list, hlist, hdots⟩ := once.explicit
  have hmem : (⟨name, s.carried? item⟩ : ExposedItem) ∈ s.exposing.items := by
    rw [exposing_of_explicit hlist hdots]
    exact List.mem_filterMap.2 ⟨item, h.1, itemOf?_of_listsType h⟩
  exact (find?_eq_some_iff_of_nodup once.items).2 ⟨hmem, rfl⟩

theorem ListsOnce.isAll_eq_false (once : s.ListsOnce) : s.exposing.isAll = false := by
  obtain ⟨list, hlist, hdots⟩ := once.explicit
  rw [exposing_of_explicit hlist hdots]
  rfl

theorem isUpper_iff (c : Char) : c.isUpper = true ↔ 'A' ≤ c ∧ c ≤ 'Z' :=
  decide_eq_true_iff

theorem isType_iff_startsWithCapital (item : ExposedItem) :
    item.isType = true ↔ StartsWithCapital item.name := by
  simp only [ExposedItem.isType, StartsWithCapital, Option.any_eq_true, isUpper_iff,
    Option.mem_def]

/-- A listed type is let through if its name begins with a capital of ASCII. -/
theorem exposesType_of_item (once : s.ListsOnce) (h : s.ListsType name item) :
    s.exposing.exposesType name = true ↔ StartsWithCapital name := by
  rw [Exposing.exposesType, once.isAll_eq_false, Bool.false_or, once.item? h, Option.any_some,
    isType_iff_startsWithCapital]

theorem exposesConstructor_of_item (once : s.ListsOnce) (h : s.ListsType name item) :
    s.exposing.exposesConstructor name c = (s.carried? item).any (·.contains c) := by
  rw [Exposing.exposesConstructor, once.isAll_eq_false, Bool.false_or, once.item? h]
  rfl

/-! ## Listed types in the table -/

/-- A declaration of a name is the only one. -/
theorem ListsOnce.eq_of_mem (once : s.ListsOnce) {d' : Definition}
    (h : (name, d) ∈ s.declarations .type)
    (h' : (name, d') ∈ s.declarations .value ∨ (name, d') ∈ s.declarations .type) : d' = d := by
  have find := fun d h => (find?_eq_some_iff_of_nodup (a := (name, d)) once.names).2 ⟨h, rfl⟩
  have hd := find d (List.mem_append_right _ h)
  have hd' := find d' (List.mem_append.2 h')
  exact (Prod.mk.inj (Option.some.inj (hd'.symm.trans hd))).2

/-- The table has a declared type under its name if the list of the module admits it. -/
theorem ListsOnce.get?_iff (once : s.ListsOnce) (h : (name, d) ∈ s.declarations .type) :
    (∃ e, (Exports.ofSource s).get? name = some e ∧ e.node = d.node ∧ e.kind = d.kind) ↔
      s.exposing.exposesType name = true := by
  constructor
  · rintro ⟨e, he, -⟩
    obtain ⟨hd, hadmits⟩ := get?_ofSource_admitted he
    rw [once.eq_of_mem h hd] at hadmits
    exact (admits_type_iff h).1 hadmits
  · intro hexp
    obtain ⟨e, he, rfl⟩ := get?_of_admitted once.names (.inr h) ((admits_type_iff h).2 hexp)
    exact ⟨e, he, rfl, rfl⟩

/-- What the table has for the name of a variant is the variant, along with its type. -/
theorem ListsOnce.constructor?_sound (once : s.ListsOnce) (ht : t ∈ s.typeDeclarations)
    (hv : v ∈ s.variants t) (hc : s.declaredName? v = some c)
    (h : (Exports.ofSource s).constructor? c = some (e, x)) :
    x = ⟨c, v⟩ ∧ e.node = t ∧ s.declaredName? t = some e.name ∧
      s.exposing.exposesType e.name = true ∧ s.exposing.exposesConstructor e.name c = true := by
  obtain ⟨hr, hx, rfl⟩ := constructor?_ofSource_sound h
  obtain ⟨hd, hexp, hctors⟩ := mem_replacing_iff.1 hr
  obtain ⟨-, -, het, hename⟩ := mem_named_iff.1 hd
  rw [hctors] at hx
  obtain ⟨hxv, hxname, hxexp⟩ := mem_visibleConstructors_iff.1 hx
  -- The names of variants are distinct, so the variant found is `v`, and its type is `t`.
  have hmem : ∀ {u t'}, t' ∈ s.typeDeclarations → u ∈ s.variants t' →
      s.declaredName? u = some x.name → (x.name, (⟨u, s, .unionConstructor⟩ : Definition)) ∈
        s.named (s.typeDeclarations.flatMap s.variants) s.declaredName? .unionConstructor :=
    fun ht' hu hname => mem_named_iff.2 ⟨rfl, rfl, List.mem_flatMap.2 ⟨_, ht', hu⟩, hname⟩
  have hfind := (find?_eq_some_iff_of_nodup once.variants).2 ⟨hmem ht hv hc, rfl⟩
  have hfind' := (find?_eq_some_iff_of_nodup once.variants).2 ⟨hmem het hxv hxname, rfl⟩
  have hnode : x.node = v := by
    have heq := Option.some.inj (hfind'.symm.trans hfind)
    exact congrArg (fun p => p.2.node) heq
  have htype : e.node = t := eq_of_mem_variants (hnode ▸ hxv) hv
  refine ⟨?_, htype, htype ▸ hename, hexp, hxexp⟩
  rw [← hnode]

/-- **A written exposing list exposes the types it names, as far as their names begin with a capital
of ASCII.** In a file that declares and lists no name twice, a declared type or alias that an item of
the list names is in the table under its name if and only if the name begins with a letter from A to
Z. With `(..)` in the item, each named variant of the type is found under the same condition; with
nothing there, none is found. -/
theorem exported_iff_startsWithCapital (once : s.ListsOnce)
    (hd : (name, d) ∈ s.declarations .type) (hitem : s.ListsType name item) :
    ((∃ e, (Exports.ofSource s).get? name = some e ∧ e.node = d.node ∧ e.kind = d.kind) ↔
      StartsWithCapital name) ∧
    (d.kind = .type → ∀ v ∈ s.variants d.node, ∀ c, s.declaredName? v = some c →
      (∀ list, s.tree.firstChild? "exposed_union_constructors" item = some list →
        (s.tree.firstChild? "double_dot" list).isSome →
        ((∃ e, (Exports.ofSource s).constructor? c = some (e, ⟨c, v⟩) ∧ e.node = d.node) ↔
          StartsWithCapital name)) ∧
      (s.tree.firstChild? "exposed_union_constructors" item = none →
        (Exports.ofSource s).constructor? c = none)) := by
  refine ⟨(once.get?_iff hd).trans (exposesType_of_item once hitem), fun hk v hv c hc => ?_⟩
  have htype : d.node ∈ s.typeDeclarations ∧ s.declaredName? d.node = some name := by
    rcases List.mem_append.1 hd with h | h
    · exact absurd ((mem_named_iff.1 h).2.1.symm.trans hk) (by decide)
    · exact (mem_named_iff.1 h).2.2
  obtain ⟨ht, hname⟩ := htype
  have sound : ∀ {e x}, (Exports.ofSource s).constructor? c = some (e, x) →
      x = ⟨c, v⟩ ∧ e.node = d.node ∧ s.exposing.exposesType name = true ∧
        s.exposing.exposesConstructor name c = true := by
    intro e x h
    obtain ⟨hx, hnode, hename, hexp, hcexp⟩ := once.constructor?_sound ht hv hc h
    obtain rfl : name = e.name := Option.some.inj (hname.symm.trans hename)
    exact ⟨hx, hnode, hexp, hcexp⟩
  refine ⟨fun list hlist hdots => ?_, fun hnone => ?_⟩
  · rw [← exposesType_of_item once hitem]
    constructor
    · rintro ⟨e, he, -⟩
      exact (sound he).2.2.1
    · intro hexp
      have hcexp : s.exposing.exposesConstructor name c = true := by
        rw [exposesConstructor_of_item once hitem, carried?, hlist, Option.map_some,
          Exposing.constructorsOf, if_pos hdots]
        rfl
      have hmem : (c, (⟨v, s, .unionConstructor⟩ : Definition)) ∈ s.declarations .constructor :=
        List.mem_append_left _ (mem_named_iff.2 ⟨rfl, rfl, List.mem_flatMap.2 ⟨_, ht, hv⟩, hc⟩)
      obtain ⟨e, x, he⟩ := exists_constructor?_of_admitted once.names hmem
        ⟨d.node, ht, hv, name, hname, hexp, hcexp⟩
      obtain ⟨rfl, hnode, -⟩ := sound he
      exact ⟨e, he, hnode⟩
  · rw [Option.eq_none_iff_forall_ne_some]
    rintro ⟨e, x⟩ he
    have hcexp := (sound he).2.2.2
    rw [exposesConstructor_of_item once hitem, carried?, hnone] at hcexp
    exact nomatch hcexp

end Source

/-! ## A list to look at -/

namespace Sample

def menuNodes : Array TreeNode :=
  #[ ⟨"file", true, none, 0, 90, none⟩,
     ⟨"module_declaration", true, some "moduleDeclaration", 0, 40, some 0⟩,
     ⟨"module", true, none, 0, 6, some 1⟩,
     ⟨"upper_case_qid", true, some "name", 7, 11, some 1⟩,
     ⟨"upper_case_identifier", true, none, 7, 11, some 3⟩,
     ⟨"exposing_list", true, some "exposing", 12, 40, some 1⟩,
     ⟨"exposing", true, none, 12, 20, some 5⟩,
     ⟨"(", false, none, 21, 22, some 5⟩,
     ⟨"exposed_type", true, none, 22, 30, some 5⟩,
     ⟨"upper_case_identifier", true, none, 22, 26, some 8⟩,
     ⟨"exposed_union_constructors", true, none, 26, 30, some 8⟩,
     ⟨"(", false, none, 26, 27, some 10⟩,
     ⟨"double_dot", true, none, 27, 29, some 10⟩,
     ⟨")", false, none, 29, 30, some 10⟩,
     ⟨",", false, none, 30, 31, some 5⟩,
     ⟨"exposed_type", true, none, 32, 39, some 5⟩,
     ⟨"upper_case_identifier", true, none, 32, 39, some 15⟩,
     ⟨")", false, none, 39, 40, some 5⟩,
     ⟨"type_declaration", true, none, 42, 63, some 0⟩,
     ⟨"type", true, none, 42, 46, some 18⟩,
     ⟨"upper_case_identifier", true, some "name", 47, 51, some 18⟩,
     ⟨"eq", true, none, 56, 57, some 18⟩,
     ⟨"union_variant", true, some "unionVariant", 58, 63, some 18⟩,
     ⟨"upper_case_identifier", true, some "name", 58, 63, some 22⟩,
     ⟨"type_declaration", true, none, 65, 89, some 0⟩,
     ⟨"type", true, none, 65, 69, some 24⟩,
     ⟨"upper_case_identifier", true, some "name", 70, 77, some 24⟩,
     ⟨"eq", true, none, 82, 83, some 24⟩,
     ⟨"union_variant", true, some "unionVariant", 84, 89, some 24⟩,
     ⟨"upper_case_identifier", true, some "name", 84, 89, some 28⟩ ]

/-- A module that lists a type with its variants, and one whose name begins with an accented
capital. -/
def menu : Source where
  file := ⟨"file:///src/Menu.elm"⟩
  text :=
    ("module Menu exposing (Soup(..), Éclair)\n\ntype Soup\n    = Broth\n\n"
      ++ "type Éclair\n    = Mocha\n").toList
  tree := ⟨menuNodes, Tree.subtreeEnds menuNodes, [], by decide +kernel⟩
  writeable := true
  isDraft := false

theorem listsOnce_menu : menu.ListsOnce where
  explicit := ⟨5, by decide +kernel, by decide +kernel⟩
  names := by decide +kernel
  variants := by decide +kernel
  items := by decide +kernel

theorem mem_declarations_menu : ("Soup", ⟨18, menu, .type⟩) ∈ menu.declarations .type ∧
    ("Éclair", ⟨24, menu, .type⟩) ∈ menu.declarations .type := by
  refine ⟨List.mem_append_right _ (Source.mem_named_iff.2 ⟨rfl, rfl, ?_, ?_⟩),
    List.mem_append_right _ (Source.mem_named_iff.2 ⟨rfl, rfl, ?_, ?_⟩)⟩ <;> decide +kernel

theorem listsType_menu : menu.ListsType "Soup" 8 ∧ menu.ListsType "Éclair" 15 :=
  ⟨⟨by decide +kernel, rfl, 9, by decide +kernel, by decide +kernel⟩,
    ⟨by decide +kernel, rfl, 16, by decide +kernel, by decide +kernel⟩⟩

end Sample

namespace Source

/-- `Soup` is exported with its variant; the variant of `Éclair` is not listed. -/
theorem exported_iff_startsWithCapital_soup :
    (∃ e, (Exports.ofSource Sample.menu).get? "Soup" = some e ∧ e.node = 18 ∧ e.kind = .type) ∧
      (∃ e, (Exports.ofSource Sample.menu).constructor? "Broth" = some (e, ⟨"Broth", 22⟩) ∧
        e.node = 18) ∧
      (Exports.ofSource Sample.menu).constructor? "Mocha" = none := by
  have once := Sample.listsOnce_menu
  obtain ⟨hsoup, heclair⟩ := Sample.mem_declarations_menu
  obtain ⟨htable, hvariants⟩ :=
    exported_iff_startsWithCapital once hsoup Sample.listsType_menu.1
  obtain ⟨-, hvariants'⟩ :=
    exported_iff_startsWithCapital once heclair Sample.listsType_menu.2
  have hcapital : StartsWithCapital "Soup" := ⟨'S', rfl, by decide⟩
  have hdots : (Sample.menu.tree.firstChild? "double_dot" 10).isSome := by decide +kernel
  refine ⟨htable.2 hcapital, ?_, ?_⟩
  · have hbroth := hvariants rfl 22 (by decide +kernel) "Broth" (by decide +kernel)
    exact (hbroth.1 10 (by decide +kernel) hdots).2 hcapital
  · have hmocha := hvariants' rfl 28 (by decide +kernel) "Mocha" (by decide +kernel)
    exact hmocha.2 (by decide +kernel)

/-- `Éclair` is declared and listed, and not exported. -/
theorem not_forall_listed_exported :
    ¬∀ (s : Source) (name : String) (d : Definition) (item : Nat), s.ListsOnce →
      (name, d) ∈ s.declarations .type → s.ListsType name item →
      ∃ e, (Exports.ofSource s).get? name = some e ∧ e.node = d.node ∧ e.kind = d.kind := by
  intro hall
  obtain ⟨e, he, -⟩ := hall Sample.menu "Éclair" _ 15 Sample.listsOnce_menu
    Sample.mem_declarations_menu.2 Sample.listsType_menu.2
  have hnone : ((Exports.ofSource Sample.menu).get? "Éclair").isNone := by decide +kernel
  rw [he] at hnone
  exact nomatch hnone

end Source
end ElmScope
