import CanonicalXml.Text
/-! # Resolution of base URIs

References to resources, split into their five components, and resolved
against a base which may itself be relative.

* `UriParts.split`, `UriParts.text` — from text to components and back.
* `removeDotSegments` — a path without `.` and `..` segments, as far as they
  can be resolved.
* `resolveUri` — a reference resolved against a base.

Everything works on lists of characters; `joinUri` is the same on text.
-/

namespace CanonicalXml

open Text

/-- The components of a reference. A component that is absent differs from an empty one. -/
structure UriParts where
  scheme : Option (List Char)
  authority : Option (List Char)
  path : List Char
  query : Option (List Char)
  fragment : Option (List Char)
deriving DecidableEq

namespace UriParts

/-- The text before the first `mark`, and the text after it if the mark occurs. -/
def cut (mark : Char) (cs : List Char) : List Char × Option (List Char) :=
  match cs.dropWhile (· ≠ mark) with
  | [] => (cs, none)
  | _ :: rest => (cs.takeWhile (· ≠ mark), some rest)

/-- Whether the text may be a scheme: a letter, followed by letters, digits and `+`, `-`, `.`. -/
def isScheme : List Char → Bool
  | [] => false
  | c :: cs => c.isAlpha && cs.all fun c => c.isAlphanum || c = '+' || c = '-' || c = '.'

/-- The scheme and what follows its colon. Without a scheme the text is kept whole. -/
def splitScheme (cs : List Char) : Option (List Char) × List Char :=
  match cut ':' cs with
  | (before, some rest) => if isScheme before then (some before, rest) else (none, cs)
  | (_, none) => (none, cs)

/-- The authority, which two slashes announce, and the path after it. -/
def splitAuthority : List Char → Option (List Char) × List Char
  | '/' :: '/' :: rest => (some (rest.takeWhile (· ≠ '/')), rest.dropWhile (· ≠ '/'))
  | cs => (none, cs)

def split (cs : List Char) : UriParts :=
  let (rest, fragment) := cut '#' cs
  let (rest, query) := cut '?' rest
  let (scheme, rest) := splitScheme rest
  let (authority, path) := splitAuthority rest
  { scheme, authority, path, query, fragment }

/-- The text of a component between its marks, nothing if it is absent. -/
def component (before : List Char) (part : Option (List Char)) (after : List Char) : List Char :=
  match part with
  | none => []
  | some cs => before ++ cs ++ after

def text (parts : UriParts) : List Char :=
  component [] parts.scheme [':'] ++ component ['/', '/'] parts.authority [] ++ parts.path ++
    component ['?'] parts.query [] ++ component ['#'] parts.fragment []

end UriParts

/-- Goes through segments, `kept` being those that stay, last one first. A `..` segment
takes back the one before it. Where there is none it stays in a relative path, and is
dropped from an absolute one. A dot segment at the end leaves an empty segment. -/
def foldSegments (absolute : Bool) (kept : List (List Char)) :
    List (List Char) → List (List Char)
  | [] => kept
  | segment :: rest =>
    if segment = ['.'] then
      foldSegments absolute (if rest.isEmpty then [] :: kept else kept) rest
    -- Only what was kept of a relative path can itself begin with such segments.
    else if segment = ['.', '.'] then
      let kept := match kept with
        | [] => if absolute then [] else [['.', '.']]
        | top :: below =>
          if top ≠ ['.', '.'] then below
          else if absolute then kept
          else ['.', '.'] :: kept
      foldSegments absolute (if rest.isEmpty then [] :: kept else kept) rest
    else foldSegments absolute (segment :: kept) rest

/-- A path without dot segments, except for `..` segments at the beginning of a relative
one. -/
def removeDotSegments : List Char → List Char
  | '/' :: path =>
    '/' :: ['/'].intercalate (foldSegments true [] (segments (· = '/') path)).reverse
  | path => ['/'].intercalate (foldSegments false [] (segments (· = '/') path)).reverse

/-- The path up to its last slash, empty if it has none. -/
def directory (path : List Char) : List Char :=
  (path.reverse.dropWhile (· ≠ '/')).reverse

/-- Whether a base names a directory by ending in a dot segment. -/
def endsInDots (base : List Char) : Bool :=
  base = ['.'] || base = ['.', '.'] || ['/', '.'].isSuffixOf base || ['/', '.', '.'].isSuffixOf base

/-- The path of a reference that is relative to the path of the base. -/
def mergePaths (base reference : UriParts) : List Char :=
  if base.authority.isSome && base.path.isEmpty then '/' :: reference.path
  else directory base.path ++ reference.path

def UriParts.resolve (base reference : UriParts) : UriParts :=
  if reference.scheme.isSome then
    { reference with path := removeDotSegments reference.path }
  else if reference.authority.isSome then
    { reference with scheme := base.scheme, path := removeDotSegments reference.path }
  else if reference.path.isEmpty then
    { base with query := reference.query.or base.query, fragment := reference.fragment }
  else
    let path := if reference.path.head? = some '/' then reference.path
      else mergePaths base reference
    { reference with
      scheme := base.scheme
      authority := base.authority
      path := removeDotSegments path }

/-- A reference resolved against a base. An empty base leaves the reference, an empty
reference the base, and a base that ends in a dot segment counts as a directory. -/
def resolveUri (base reference : List Char) : List Char :=
  if base.isEmpty then reference
  else if reference.isEmpty then base
  else
    let base := if endsInDots base then base ++ ['/'] else base
    ((UriParts.split base).resolve (UriParts.split reference)).text

def joinUri (base reference : String) : String :=
  String.ofList (resolveUri base.toList reference.toList)

end CanonicalXml
