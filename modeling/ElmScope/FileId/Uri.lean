import ElmScope.FileId.Percent
/-!
# URI references

Which texts are URI references: a scheme or none, an authority or none, a path, a query or
none, a fragment or none, all in ASCII, with a percent sign only before two hexadecimal
digits. A host in brackets is an address of eight groups; addresses of forms to come and
addresses with a zone are none. Nothing is taken apart beyond what the decision needs.
-/
namespace ElmScope
namespace Uri

/-- ASCII letters. -/
def isAlpha (c : Char) : Bool := c.isAlpha

/-- ASCII digits. -/
def isDigit (c : Char) : Bool := c.isDigit

/-- Hexadecimal digits. -/
def isHex (c : Char) : Bool := (Percent.hexValue? c).isSome

/-- Characters free of meaning in every part. -/
def isUnreserved (c : Char) : Bool :=
  isAlpha c || isDigit c || c = '-' || c = '.' || c = '_' || c = '~'

/-- Characters that may separate inside a part. -/
def isSubDelimiter (c : Char) : Bool :=
  ['!', '$', '&', '\'', '(', ')', '*', '+', ',', ';', '='].contains c

/-- Whether a text consists of allowed characters and coded octets. -/
def isMadeOf (allowed : Char → Bool) : Text → Bool
  | '%' :: a :: b :: t => isHex a && isHex b && isMadeOf allowed t
  | c :: t => c ≠ '%' && allowed c && isMadeOf allowed t
  | [] => true

/-- Characters of a path segment. -/
def isSegmentChar (c : Char) : Bool := isUnreserved c || isSubDelimiter c || c = ':' || c = '@'

/-- A path: segments and slashes. -/
def isPath (t : Text) : Bool := isMadeOf (fun c => isSegmentChar c || c = '/') t

/-- A query or a fragment. -/
def isQuery (t : Text) : Bool := isMadeOf (fun c => isSegmentChar c || c = '/' || c = '?') t

/-- Cut a text before the first character of a class. -/
def cutAt (stop : Char → Bool) (t : Text) : Text × Text := t.span fun c => !stop c

/-! ## Hosts in brackets -/

/-- A decimal octet: up to 255, without a leading zero. -/
def isDecimalOctet (t : Text) : Bool :=
  (t.length = 1 || t.head? ≠ some '0') && t.natural?.any (· ≤ 255)

/-- Four decimal octets with dots between them. -/
def isDottedQuad (t : Text) : Bool :=
  let parts := t.pieces '.'
  parts.length = 4 && parts.all isDecimalOctet

/-- A group of one to four hexadecimal digits. -/
def isGroup (t : Text) : Bool := 0 < t.length && t.length ≤ 4 && t.all isHex

/-- How many 16-bit groups a colon-separated text makes, a dotted quad at the end of it
counting for two. No text makes none. -/
def groupCount? (mayEndDotted : Bool) (t : Text) : Option Nat :=
  if t = [] then some 0
  else
    let parts := t.pieces ':'
    if parts.all isGroup then some parts.length
    else if mayEndDotted && parts.dropLast.all isGroup && (parts.getLast?.any isDottedQuad) then
      some (parts.length + 1)
    else none

/-- The ways to cut a text at a double colon. -/
def doubleColonCuts : Text → List (Text × Text)
  | ':' :: ':' :: t => ([], t) :: (doubleColonCuts (':' :: t)).map fun (a, b) => (':' :: a, b)
  | c :: t => (doubleColonCuts t).map fun (a, b) => (c :: a, b)
  | [] => []

/-- An address of eight groups, a run of at least one of them written as a double colon. -/
def isGroupAddress (t : Text) : Bool :=
  groupCount? true t = some 8
    || (doubleColonCuts t).any fun (a, b) =>
      match groupCount? false a, groupCount? true b with
      | some m, some n => m + n ≤ 7
      | _, _ => false

/-! ## References -/

/-- A colon and a port, or nothing. -/
def isPortSuffix : Text → Bool
  | [] => true
  | c :: t => c = ':' && t.all isDigit

/-- A host, with a port or without. -/
def isHostPort (t : Text) : Bool :=
  match t with
  | '[' :: r =>
    let (address, rest) := cutAt (· = ']') r
    isGroupAddress address
      && match rest with
        | _ :: port => isPortSuffix port
        | [] => false
  | _ =>
    let (host, port) := cutAt (· = ':') t
    isMadeOf (fun c => isUnreserved c || isSubDelimiter c) host && isPortSuffix port

/-- An authority: user information before an at sign, if any, then host and port. -/
def isAuthority (t : Text) : Bool :=
  match cutAt (· = '@') t with
  | (user, _ :: hostPort) =>
    isMadeOf (fun c => isUnreserved c || isSubDelimiter c || c = ':') user && isHostPort hostPort
  | (_, []) => isHostPort t

/-- What follows a scheme, or a whole reference without one: an authority with an absolute
or empty path, or a path. -/
def isHierarchy (t : Text) : Bool :=
  match t with
  | '/' :: '/' :: r =>
    let (authority, path) := cutAt (· = '/') r
    isAuthority authority && isPath path
  | _ => isPath t

/-- The scheme of a reference and what follows its colon. -/
def scheme? (t : Text) : Option (Text × Text) :=
  match cutAt (fun c => c = ':' || c = '/') t with
  | (name, ':' :: rest) =>
    if name.head?.any isAlpha
        && name.all fun c => isAlpha c || isDigit c || c = '+' || c = '-' || c = '.' then
      some (name, rest)
    else none
  | _ => none

/-- Whether the first segment of a path holds a colon, which only a scheme may bring. -/
def startsWithColonSegment (t : Text) : Bool := (cutAt (· = '/') t).1.contains ':'

/-- Whether a text is a URI reference (`lsp_types::Uri`). -/
def isReference (t : Text) : Bool :=
  let (beforeFragment, fragment) := cutAt (· = '#') t
  let (hierarchy, query) := cutAt (· = '?') beforeFragment
  isQuery (fragment.drop 1) && isQuery (query.drop 1)
    && match scheme? hierarchy with
      | some (_, rest) => isHierarchy rest
      | none => !startsWithColonSegment hierarchy && isHierarchy hierarchy

end Uri
end ElmScope
