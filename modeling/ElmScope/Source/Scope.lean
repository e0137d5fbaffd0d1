import ElmScope.Definition.Basic
/-!
# Scopes inside a module

What the scopes around a node bind: parameters of value declarations and of anonymous
functions, patterns of `case` branches, declarations of `let` expressions; and where the
variables of a type are declared. The innermost scope that binds a name decides.
-/
namespace ElmScope
namespace Source

variable (s : Source)

/-- The lower-case pattern in a pattern that binds a name, the pattern itself included
(`binding_in_pattern`). -/
def bindingIn? (name : String) (pattern : Nat) : Option Nat :=
  if s.tree.kind pattern = "lower_pattern" then
    if s.textOf pattern = name then some pattern else none
  else s.bindingBelow? name pattern

/-- What a node binds to a name, if it is a scope and binds it (part of `local_binding`). -/
def boundBy? (name : String) (scope : Nat) : Option Definition :=
  let define (kind : DefinitionKind) (n : Nat) : Definition := ⟨n, s, kind⟩
  match s.tree.kind scope with
  | "value_declaration" =>
    ((s.parameters scope).findSome? (s.bindingIn? name)).map (define .functionParameter)
  | "anonymous_function_expr" =>
    let body := s.tree.child? "expr" scope
    (((s.tree.namedChildren scope).filter fun m => some m ≠ body).findSome?
      (s.bindingIn? name)).map (define .anonymousFunctionParameter)
  | "case_of_branch" =>
    ((s.tree.child? "pattern" scope).bind (s.bindingIn? name)).map (define .casePattern)
  | "let_in_expr" => (s.valueNamed? scope name true).map (define .function)
  | _ => none

/-- What the innermost scope around a node that binds a name binds to it (`local_binding`). -/
def bindingAround? (name : String) (n : Nat) : Option Definition :=
  (s.tree.ancestors n).findSome? (s.boundBy? name)

/-- The declaration of a type variable, in the type or alias it occurs in (`type_variable`). -/
def variableDeclaration? (n : Nat) : Option Definition :=
  ((s.tree.enclosing? "type_alias_declaration" n true).or
      (s.tree.enclosing? "type_declaration" n true)).bind fun owner =>
    ((s.tree.descendants "lower_type_name" owner).find? fun d => s.textOf d = s.textOf n).map
      fun d => ⟨d, s, .typeVariable⟩

end Source
end ElmScope
