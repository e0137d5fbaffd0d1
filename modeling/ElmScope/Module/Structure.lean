import ElmScope.Module.Exposing
/-!
# The structure of a module

The parts of a file: its module declaration, its imports, and what it declares. A part that is
missing or half-written is simply not found.

* `valueNamed?` — a value by name, directly declared names before destructured ones
* `implementation?` — the value an operator stands for
* `constructorUses` — where a constructor is used, and not a type or module of its name
-/
namespace ElmScope
namespace Source

variable (s : Source)

/-! ## The declaration of the module -/

/-- The module declaration (`module_declaration`). -/
def moduleDeclaration? : Option Nat := s.tree.firstChild? "module_declaration" Tree.root

/-- The dotted name of the module (`module_name`). -/
def moduleName? : Option String :=
  s.moduleDeclaration?.bind fun d => (s.tree.child? "name" d).map s.textOf

/-- The exposing list of the module (`exposing_list`). -/
def exposingList? : Option Nat :=
  s.moduleDeclaration?.bind fun d =>
    (s.tree.child? "exposing" d).or (s.tree.firstChild? "exposing_list" d)

/-- The items of the module's exposing list (`exposing_list_entries`). -/
def exposingItems : List Nat :=
  (s.exposingList?.map (s.tree.childrenOf Exposing.itemKinds)).getD []

/-- What the module exposes: everything when it has no exposing list (`module::exposing`). -/
def exposing : Exposing := (s.exposingList?.map (Exposing.ofNode s)).getD .all

/-! ## Imports -/

/-- The import clauses (`import_clauses`). -/
def importClauses : List Nat := s.tree.childrenOf ["import_clause"] Tree.root

/-- The last import clause (`last_import_clause`). -/
def lastImportClause? : Option Nat := s.importClauses.getLast?

/-- The module name in an import clause (`import_module_name`). -/
def importedName? (clause : Nat) : Option Nat :=
  (s.tree.child? "moduleName" clause).or (s.tree.firstChild? "upper_case_qid" clause)

/-- The name after `as` in an import clause (`import_alias`). -/
def importAlias? (clause : Nat) : Option Nat :=
  ((s.tree.child? "asClause" clause).or (s.tree.firstChild? "as_clause" clause)).bind fun c =>
    (s.tree.child? "name" c).or (s.tree.firstChild? "upper_case_identifier" c)

/-- The first import clause of a module (`import_clause_by_module_name`). -/
def importClauseOf? (name : String) : Option Nat :=
  s.importClauses.find? fun clause => (s.importedName? clause).any fun n => s.textOf n = name

/-- The first name in the import clauses, written in full or after `as`, that reads `name`
(`import_name_node`). -/
def importNameNode? (name : String) : Option Nat :=
  s.importClauses.findSome? fun clause =>
    ((s.importedName? clause).filter fun n => s.textOf n = name).or
      ((s.importAlias? clause).filter fun n => s.textOf n = name)

/-! ## Declarations -/

/-- Value declarations at the top level (`top_level_function_declarations`). -/
def valueDeclarations : List Nat := s.tree.childrenOf ["value_declaration"] Tree.root

/-- Union type declarations at the top level (`type_declarations`). -/
def typeDeclarations : List Nat := s.tree.childrenOf ["type_declaration"] Tree.root

/-- Type alias declarations at the top level (`type_alias_declarations`). -/
def aliasDeclarations : List Nat := s.tree.childrenOf ["type_alias_declaration"] Tree.root

/-- Port annotations at the top level (`port_annotations`). -/
def portAnnotations : List Nat := s.tree.childrenOf ["port_annotation"] Tree.root

/-- Infix declarations at the top level (`infix_declarations`). -/
def infixDeclarations : List Nat := s.tree.childrenOf ["infix_declaration"] Tree.root

/-- The name identifier of a value declaration (`function_name_node`). -/
def functionName? (declaration : Nat) : Option Nat :=
  (s.tree.child? "functionDeclarationLeft" declaration).bind
    (s.tree.firstChild? "lower_case_identifier")

/-- The parameter patterns of a value declaration: what follows the name, comments aside
(`function_parameters`). -/
def parameters (declaration : Nat) : List Nat :=
  match s.tree.child? "functionDeclarationLeft" declaration with
  | some left => ((s.tree.namedChildren left).drop 1).filter fun m => !Tree.isComment (s.tree.kind m)
  | none => []

/-- The type annotation right before a declaration (`type_annotation_of`). -/
def annotationOf? (declaration : Nat) : Option Nat :=
  (s.tree.namedBefore? declaration).filter fun m => s.tree.kind m = "type_annotation"

/-- The value declarations at the top level without a type annotation
(`top_level_function_declarations_without_signature`). -/
def unannotatedDeclarations : List Nat :=
  s.valueDeclarations.filter fun d => (s.annotationOf? d).isNone

/-- The text of a node's name (`declared_name`). -/
def declaredName? (n : Nat) : Option String := (s.tree.child? "name" n).map s.textOf

/-- The text of an infix declaration's operator. -/
def operatorName? (n : Nat) : Option String := (s.tree.child? "operator" n).map s.textOf

/-- The first of some declarations with a name (`find_named`). -/
def firstNamed? (declarations : List Nat) (name : String) : Option Nat :=
  declarations.find? fun d => s.declaredName? d = some name

/-- The type declaration of a name (`find_type_declaration`). -/
def typeNamed? (name : String) : Option Nat := s.firstNamed? s.typeDeclarations name

/-- The type alias of a name (`find_type_alias_declaration`). -/
def aliasNamed? (name : String) : Option Nat := s.firstNamed? s.aliasDeclarations name

/-- The port of a name (`find_port`). -/
def portNamed? (name : String) : Option Nat := s.firstNamed? s.portAnnotations name

/-- The infix declaration of an operator (part of `find_operator`). -/
def operatorNamed? (symbol : String) : Option Nat :=
  s.infixDeclarations.find? fun d => s.operatorName? d = some symbol

/-- The first lower-case pattern below a node that reads `name` (part of `find_function`). -/
def bindingBelow? (name : String) (pattern : Nat) : Option Nat :=
  (s.tree.descendants "lower_pattern" pattern).find? fun b => s.textOf b = name

/-- The value declaration of a name in a scope: directly in it, or anywhere below
(`find_function`). A declared name is sought first; then the names that destructuring
declarations bind, where the answer is the binding pattern. -/
def valueNamed? (scope : Nat) (name : String) (topLevelOnly : Bool) : Option Nat :=
  let declarations :=
    if topLevelOnly then s.tree.childrenOf ["value_declaration"] scope
    else s.tree.descendants "value_declaration" scope
  (declarations.find? fun d => (s.functionName? d).any fun n => s.textOf n = name).or
    (declarations.findSome? fun d => (s.tree.child? "pattern" d).bind (s.bindingBelow? name))

/-- The node in an infix declaration that names the implementation (part of `find_operator`). -/
def implementationName? (declaration : Nat) : Option Nat :=
  ((s.tree.firstChild? "value_expr" declaration).or (s.tree.child? "functionName" declaration)).or
    (s.tree.namedChildren declaration).getLast?

/-- The value declaration an operator stands for (`find_operator`). -/
def implementation? (symbol : String) : Option Nat :=
  (s.operatorNamed? symbol).bind fun d =>
    (s.implementationName? d).bind fun f => s.valueNamed? Tree.root (s.textOf f) true

/-- The variants of a union type (`union_variants`). -/
def variants (declaration : Nat) : List Nat := s.tree.childrenOf ["union_variant"] declaration

/-- The variant that declares a constructor (`find_union_constructor`). -/
def variantNamed? (name : String) : Option Nat :=
  s.firstNamed? (s.typeDeclarations.flatMap s.variants) name

/-- Whether a dotted upper-case path names a type or a module and no constructor (part of
`find_union_constructor_usages`). -/
def namesTypeOrModule (path : Nat) : Bool :=
  (s.tree.parent? path).any fun p =>
    ["type_ref", "module_declaration", "import_clause"].contains (s.tree.kind p)

/-- The uses of a constructor in expressions and patterns, in document order
(`find_union_constructor_usages`). -/
def constructorUses (name : String) : List Nat :=
  ((s.tree.descendants "upper_case_qid" Tree.root).filter fun q => !s.namesTypeOrModule q).filter
    fun q => (s.tree.childrenOf ["upper_case_identifier"] q).getLast?.any fun n => s.textOf n = name

end Source
end ElmScope
