import CallContract.Association
import CallContract.Reconciliation
import CallContract.Source.Module

/-!
# Contracts of a source text

Every function of a source text gets a contract: its name, what its comment describes, and its
variables. Named types are recorded as their comments come up, so a type is known to the
functions behind its comment; with `hoist` all types of the text are recorded before the first
function is looked at. Texts that are read in turn share their types (`extractInTurn`).
-/

namespace CallContract

/-- The contract of a function. -/
structure Contract where
  name : String
  description : Option String
  vars : Variables

/-- The contract of a declaration beside the comment that documents it, and the warnings. -/
def Contract.ofDeclaration (r : Registry) (doc : Option Doc) (decl : Declaration) :
    Contract × List Warning :=
  let (vars, ws) := (Variables.ofPatterns decl.params).reconcile decl.name doc r
  (⟨decl.name, doc.bind Doc.description, vars⟩, Pattern.allGaps decl.name 0 decl.params ++ ws)

/-- The contracts of a source text, the warnings, and the registry that results. -/
structure Extraction where
  contracts : List Contract
  warnings : List Warning
  registry : Registry

namespace Extraction

/-- The documentation comments among comments. -/
def docsOf (comments : List Source.Comment) : List Doc := comments.filterMap Doc.ofComment?

/-- The contracts of declarations when some documentation comments have been read, others are
still pending, and all up to a cursor have been passed. Comments are read as far as they start
before a declaration stops. -/
def fromDeclarations (docs : List Doc) (pending : List Source.Comment) (r : Registry)
    (cursor : Option Nat) : List Declaration → Extraction
  | [] => ⟨[], [], r.registerDocs (docsOf pending)⟩
  | decl :: decls =>
    let near := pending.takeWhile fun c => c.start < decl.stop
    let docs := docs ++ docsOf near
    let r := r.registerDocs (docsOf near)
    let found := Association.find docs decl cursor
    let (contract, ws) := Contract.ofDeclaration r (found.doc.bind fun i => docs[i]?) decl
    let later := fromDeclarations docs (pending.drop near.length) r found.cursor decls
    ⟨contract :: later.contracts, ws ++ later.warnings, later.registry⟩

/-- The contracts of the functions and the comments of a source text. -/
def ofFile (hoist : Bool) (r : Registry) (file : Source.File) : Extraction :=
  if hoist then
    let docs := docsOf file.comments
    fromDeclarations docs [] (r.registerDocs docs) none file.declarations
  else fromDeclarations [] file.comments r none file.declarations

end Extraction

/-- The contracts of a source text. -/
def extract (hoist : Bool) (r : Registry) (source : String) : Except Source.Error Extraction :=
  (Source.readModule source.toList).map (Extraction.ofFile hoist r)

/-- The contracts of source texts that are read one after another with one registry, and the
registry that results. A text that is refused leaves the registry as it is. -/
def extractInTurn (hoist : Bool) (r : Registry) :
    List String → List (Except Source.Error Extraction) × Registry
  | [] => ([], r)
  | source :: sources =>
    match extract hoist r source with
    | .error e =>
      let (xs, s) := extractInTurn hoist r sources
      (.error e :: xs, s)
    | .ok x =>
      let (xs, s) := extractInTurn hoist x.registry sources
      (.ok x :: xs, s)

/-- The contracts of a source text that stands on its own. -/
def contractsOf (source : String) : Except Source.Error (List Contract) :=
  (extract false .empty source).map Extraction.contracts

end CallContract
