/-! # Faults

Every way an operation of this library can end without an answer.

* `Fault` lists the causes; each carries what its report names.
* `Fault.message` is the only place that words a report.
* `Fault.category` sorts the causes coarsely, for callers that only need to
  know whom to blame.
-/

namespace CanonicalXml

/-- How a byte sequence fails to be UTF-8 text. Offsets count bytes. -/
inductive Utf8Fault where
  /-- The `length` bytes from `index` on cannot begin or continue a character. -/
  | invalid (length index : Nat)
  /-- The input ends inside the character that begins at `index`. -/
  | incomplete (index : Nat)
deriving DecidableEq

def Utf8Fault.message : Utf8Fault → String
  | .invalid length index => s!"invalid utf-8 sequence of {length} bytes from index {index}"
  | .incomplete index => s!"incomplete utf-8 byte sequence from index {index}"

/-- Where a name with an undeclared prefix was found. -/
inductive NameSite where
  /-- In the source text. Rows and columns count from one. -/
  | source (row column : Nat)
  /-- On the start tag being written for the element of this name. -/
  | tag (qname : String)
deriving DecidableEq

def NameSite.message : NameSite → String
  | .source row column => s!"element at {row}:{column}"
  | .tag qname => s!"<{qname}>"

/-- A limit of secure validation that was exceeded. -/
inductive Excess where
  /-- One element carries `count` attributes and declarations. -/
  | attributes (qname : String) (count limit : Nat)
  | depth (limit : Nat)
  | comments (limit : Nat)
  | nodes
  | doctype
deriving DecidableEq

def Excess.message : Excess → String
  | .attributes qname count limit => s!"<{qname}> carries {count} attributes, limit is {limit}"
  | .depth limit => s!"element nesting exceeds {limit} levels"
  | .comments limit => s!"more than {limit} comments"
  | .nodes => "document exceeds the node limit"
  | .doctype => "document type declarations are not allowed"

/-- Why the operating system refuses a path. -/
inductive PathRefusal where
  /-- There is nothing at the path, or no directory on the way to it. -/
  | missing
  /-- The path goes through a file. -/
  | notDirectory
  /-- The path leads to a directory. -/
  | isDirectory
  /-- The path, or a name in it, has too many bytes. -/
  | nameTooLong
  | notPermitted
  | other (reason : String)
deriving DecidableEq

def PathRefusal.message : PathRefusal → String
  | .missing => "No such file or directory (os error 2)"
  | .notDirectory => "Not a directory (os error 20)"
  | .isDirectory => "Is a directory (os error 21)"
  | .nameTooLong => "File name too long (os error 36)"
  | .notPermitted => "Permission denied (os error 13)"
  | .other reason => reason

/-- A failure of a file or of an output. -/
inductive IoFailure where
  /-- The output takes no further bytes. -/
  | closed
  /-- The output cannot be flushed. -/
  | noFlush
  /-- The operating system refused the file at `path`. -/
  | file (path : String) (refusal : PathRefusal)
deriving DecidableEq

def IoFailure.message : IoFailure → String
  | .closed => "closed"
  | .noFlush => "no flush"
  | .file path refusal => s!"{path}: {refusal.message}"

inductive PhysicalRefusal where
  | nodeSet
  | prefixList
deriving DecidableEq

def PhysicalRefusal.message : PhysicalRefusal → String
  | .nodeSet => "physical serialization cannot re-emit a node-set"
  | .prefixList => "physical serialization takes no inclusive prefix list"

/-- Why an operation gave no answer. -/
inductive Fault where
  | unknownAlgorithm (name : String)
  | alreadyRegistered (uri : String)
  /-- The text is not well-formed, namespace-aware XML. -/
  | malformed
  | encoding (fault : Utf8Fault)
  /-- A reference that does not stay in the document. -/
  | foreignReference (reference : String)
  | unknownId (id : String)
  | undeclaredPrefix (nsPrefix : String) (site : NameSite)
  | physical (refusal : PhysicalRefusal)
  | excess (violation : Excess)
  | io (failure : IoFailure)
deriving DecidableEq

namespace Fault

def message : Fault → String
  | .unknownAlgorithm name => s!"unknown canonicalization algorithm: {name}"
  | .alreadyRegistered uri => s!"algorithm already registered: {uri}"
  | .malformed => "XML parsing error"
  | .encoding fault => s!"XML parsing error: invalid UTF-8: {fault.message}"
  | .foreignReference reference =>
    s!"invalid XML structure: not a same-document reference: {reference}"
  | .unknownId id => s!"invalid XML structure: ID not found: {id}"
  | .undeclaredPrefix nsPrefix site =>
    "undeclared namespace prefix `" ++ nsPrefix ++ "` in " ++ site.message
  | .physical refusal => s!"unsupported node type: {refusal.message}"
  | .excess violation => s!"secure validation violation: {violation.message}"
  | .io failure => s!"I/O error: {failure.message}"

/-- Coarse classes of faults. -/
inductive Category where
  /-- An algorithm identifier is unknown or taken. -/
  | configuration
  /-- The tree or the request does not fit together. -/
  | input
  | secureValidation
  | io
  | parse
deriving DecidableEq

def category : Fault → Category
  | .unknownAlgorithm _ | .alreadyRegistered _ => .configuration
  | .foreignReference _ | .unknownId _ | .undeclaredPrefix _ _ | .physical _ => .input
  | .excess _ => .secureValidation
  | .io _ => .io
  | .malformed | .encoding _ => .parse

end Fault

end CanonicalXml
