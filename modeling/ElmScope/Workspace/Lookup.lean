import ElmScope.Definition.Basic
import ElmScope.Module.Exports
import ElmScope.Search
import ElmScope.Workspace.Basic
/-!
# Looking up references

A reference is looked up in the file it is written in. A qualified name goes through the
imports visible under its qualifier. An unqualified name is sought among the file's own
declarations, then in what the imports let through. Either way the other module decides what
it offers.
-/
namespace ElmScope
namespace Source

variable (s : Source)

/-- A declaration at the top level, whatever the module exposes (`local_definition`). -/
def declared? (name : String) (namesp : Namespace) : Option Definition :=
  let define (kind : DefinitionKind) (n : Nat) : Definition := ⟨n, s, kind⟩
  match namesp with
  | .value =>
    ((s.valueNamed? Tree.root name true).map (define .function)).or <|
      ((s.portNamed? name).map (define .port)).or <|
        (s.operatorNamed? name).map (define .operator)
  | .type =>
    ((s.aliasNamed? name).map (define .typeAlias)).or <| (s.typeNamed? name).map (define .type)
  | .constructor =>
    ((s.variantNamed? name).map (define .unionConstructor)).or <|
      (s.aliasNamed? name).map (define .typeAlias)
  | .module => none

/-- What the module offers to other modules under a name (`exposed_definition`). -/
def offered? (name : String) (namesp : Namespace) : Option Definition :=
  let offer := Exports.ofSource s
  let define (e : Export) : Definition := ⟨e.node, s, e.kind⟩
  match namesp with
  | .value =>
    ((offer.get? name).filter fun e =>
      e.kind = .function || e.kind = .port || e.kind = .operator).map define
  | .type => ((offer.get? name).filter (·.kind.isTypeLevel)).map define
  | .constructor =>
    match offer.constructor? name with
    | some (_, c) => some ⟨c.node, s, .unionConstructor⟩
    | none => ((offer.get? name).filter (·.kind = .typeAlias)).map define
  | .module => none

end Source

namespace Exposing

/-- Whether a list could let a name through, seen from the list alone (part of
`resolve_unqualified`). A wildcard of constructors could hold any constructor. -/
def mayExpose (exposing : Exposing) (name : String) : Namespace → Bool
  | .value => exposing.exposes name
  | .type => exposing.exposesType name
  | .constructor =>
    exposing.isAll || exposing.exposesType name
      || exposing.items.any fun e => e.constructors.any fun c => c.contains name
  | .module => false

/-- Whether a list lets a definition of the other module through (part of
`resolve_unqualified`). A constructor comes with its type. -/
def admits (exposing : Exposing) (name : String) (d : Definition) : Bool :=
  if d.kind = .unionConstructor then
    ((d.source.tree.parent? d.node).bind d.source.declaredName?).any fun owner =>
      exposing.exposesConstructor owner name
  else true

end Exposing

namespace Workspace

variable (w : Workspace)

/-- The imports of a source, by the header the workspace has for its file, if it has one
(`Resolver::imports`). -/
def importsOf (s : Source) : List Import :=
  ((w.header? s.file).getD (ModuleHeader.ofSource s)).allImports

/-- The declaration of the module an import means, if the module is there. -/
def declarationOf? (name : String) : Option Definition :=
  (w.module? name).bind fun target => target.moduleDeclaration?.map fun d => ⟨d, target, .module⟩

/-- The module an import clause names: its declaration, or else the clause (`resolve_import`). -/
def importTarget? (s : Source) (clause : Nat) : Option Definition :=
  (s.importedName? clause).map fun name =>
    (w.declarationOf? (s.textOf name)).getD ⟨clause, s, .module⟩

/-- The module a qualifier means: the file's own, or that of the first import visible under the
qualifier, by its declaration or else by the clause that imports it (`resolve_module`). -/
def lookupModule? (s : Source) (qualifier : String) : Option Definition :=
  if s.moduleName? = some qualifier then s.moduleDeclaration?.map fun d => ⟨d, s, .module⟩
  else
    (w.importsOf s).findSome? fun i =>
      if i.qualifier ≠ qualifier then none
      else
        (w.declarationOf? i.moduleName).or <|
          (s.importClauseOf? i.moduleName).map fun clause => ⟨clause, s, .module⟩

/-- What a qualified name means: the first offer among the imports visible under the qualifier
(`resolve_qualified`). -/
def lookupQualified? (s : Source) (qualifier name : String) (namesp : Namespace) :
    Option Definition :=
  ((w.importsOf s).filter (·.qualifier = qualifier)).findSome? fun i =>
    (w.module? i.moduleName).bind fun target => target.offered? name namesp

/-- What an import brings into scope under an unqualified name (part of `resolve_unqualified`). -/
def imported? (i : Import) (name : String) (namesp : Namespace) : Option Definition :=
  if i.exposing.mayExpose name namesp then
    (w.module? i.moduleName).bind fun target =>
      (target.offered? name namesp).filter (i.exposing.admits name)
  else none

/-- What an unqualified name means: a declaration of the file, or what the first import that
brings the name brings (`resolve_unqualified`). -/
def lookupUnqualified? (s : Source) (name : String) (namesp : Namespace) : Option Definition :=
  (s.declared? name namesp).or <| (w.importsOf s).findSome? fun i => w.imported? i name namesp

/-- What a reference means in a source (part of `Resolver::resolve`). -/
def lookup? (s : Source) (r : Reference) : Option Definition :=
  match r.namesp, r.qualifier? with
  | .module, _ => w.lookupModule? s r.name
  | namesp, some qualifier => w.lookupQualified? s qualifier r.name namesp
  | namesp, none => w.lookupUnqualified? s r.name namesp

/-- What a reference means, with a report when it means nothing (`Resolver::resolve`). -/
def lookup (s : Source) (r : Reference) : Search Definition :=
  (Search.ofOption (w.lookup? s r)).orReport (.referenceUnresolved s.file r)

/-- The import clause whose module name holds a node (`importing_clause`). -/
def importingClause? (t : Tree) (n : Nat) : Option Nat :=
  let path? :=
    if t.kind n = "upper_case_qid" then some n
    else (t.parent? n).filter fun p => t.kind p = "upper_case_qid"
  (path?.bind t.parent?).filter fun p => t.kind p = "import_clause"

/-- What the reference at a node means (`resolve_node`). In an import clause that is the module. -/
def lookupAt (s : Source) (n : Nat) : Search Definition :=
  match importingClause? s.tree n with
  | some clause => .ofOption (w.importTarget? s clause)
  | none => (Search.ofOption (Reference.ofNode? s n)).bind (w.lookup s)

end Workspace
end ElmScope
