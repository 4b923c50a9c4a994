import Conform.Failure
import Conform.Name.Scope
import Conform.Text.Blank
import Conform.Text.Recent
/-!
# Paths of identity constraints

A path is a union of branches, each a row of steps to children. A branch may begin with a step to
all descendants, and a branch of a field may end with a step to attributes. White space in a path
has no meaning.
-/

namespace Conform.Path

/-- A name test as it is written. -/
inductive WrittenTest where
  /-- `*` -/
  | any
  /-- A name with no prefix. -/
  | plain (base : String)
  /-- A prefix with `*`. -/
  | anyIn (label : String)
  /-- A prefix with a local name. -/
  | within (label base : String)
deriving DecidableEq, Repr

/-- A test of the name of a node. -/
inductive NameTest where
  | any
  | inSpace (space : String)
  | named (name : QName)
deriving DecidableEq, Repr

/-- A step from a node to other nodes. -/
inductive Step (test : Type) where
  /-- To the node itself. -/
  | self
  /-- To the node and its descendants. -/
  | descendants
  | child (t : test)
  | onAttributes (t : test)
deriving DecidableEq, Repr

/-- Whether a name passes the test. -/
def NameTest.passes (t : NameTest) (n : QName) : Bool :=
  match t with
  | any => true
  | inSpace space => n.space = space
  | named m => m = n

/-- The beginning of a name in a path. Paths go by version 16 of the character database. -/
def isNameStart (c : Char) : Bool := Text.isLetter16 c || c = '_'

def isNameChar (c : Char) : Bool :=
  Text.isLetter16 c || Text.isNumeral16 c || c = '_' || c = '.' || c = '-'

/-- A name without a colon, as paths have them. -/
def isName : List Char → Bool
  | [] => false
  | c :: rest => isNameStart c && rest.all isNameChar

/-- The name test that a text writes. -/
def readTest? (cs : List Char) : Option WrittenTest :=
  match Text.cut ':' cs with
  | none =>
    if cs = ['*'] then some .any
    else if isName cs then some (.plain (String.ofList cs))
    else none
  | some (label, base) =>
    if !isName label then none
    else if base = ['*'] then some (.anyIn (String.ofList label))
    else if isName base then some (.within (String.ofList label) (String.ofList base))
    else none

/-- The test after the sign of the attribute axis. -/
def attributeTest? (cs : List Char) : Option (List Char) :=
  (Text.dropStart? ['@'] cs).or (Text.dropStart? "attribute::".toList cs)

/-- The step that a text writes; `last` if it may go to attributes. -/
def readStep? (last : Bool) (cs : List Char) : Option (Step WrittenTest) :=
  if cs = ['.'] then some .self
  else match if last then attributeTest? cs else none with
    | some rest => (readTest? rest).map .onAttributes
    | none => (readTest? (Text.dropStart "child::".toList cs)).map .child

/-- The steps that texts write, the last of them on attributes if it is a `field`. -/
def readSteps? (field : Bool) : List (List Char) → Option (List (Step WrittenTest))
  | [] => some []
  | [last] => (readStep? field last).map ([·])
  | cs :: rest => do return (← readStep? false cs) :: (← readSteps? field rest)

/-- The branch that a text writes. -/
def readBranch? (field : Bool) (cs : List Char) : Option (List (Step WrittenTest)) :=
  match Text.dropStart? ".//".toList cs with
  | some rest => (readSteps? field (rest.splitOn '/')).map (.descendants :: ·)
  | none => readSteps? field (cs.splitOn '/')

/-- The branches that a text writes. -/
def readBranches? (field : Bool) (cs : List Char) : Option (List (List (Step WrittenTest))) :=
  (cs.splitOn '|').mapM (readBranch? field)

/-- The test with its prefix resolved. -/
def WrittenTest.resolve (scope : Scope) : WrittenTest → Except NameFault NameTest
  | any => .ok .any
  | plain base => .ok (.named (QName.plain base))
  | anyIn label =>
    match scope.space? label with
    | some space => .ok (.inSpace space)
    | none => .error (.unmappedPrefix label)
  | within label base =>
    match scope.space? label with
    | some space => .ok (.named ⟨space, base⟩)
    | none => .error (.unmappedPrefix label)

/-- The step with its prefix resolved. -/
def Step.resolve (scope : Scope) : Step WrittenTest → Except NameFault (Step NameTest)
  | self => .ok .self
  | descendants => .ok .descendants
  | child t => return .child (← t.resolve scope)
  | onAttributes t => return .onAttributes (← t.resolve scope)

end Path

/-- A compiled path. -/
structure Path where
  source : String
  branches : List (List (Path.Step Path.NameTest))
deriving DecidableEq, Repr

namespace Path

/-- A path that selects nothing. -/
def nothing : Path := ⟨"", []⟩

instance : Inhabited Path := ⟨nothing⟩

/-- The path that a text writes. The whole text is read before any prefix is looked up. -/
def compile (field : Bool) (role source : String) (scope : Scope) : Except Failure Path :=
  match readBranches? field (source.toList.filter fun c => !Text.isBlank c) with
  | none => .error (.schema (.badPath role source) none)
  | some branches =>
    match branches.mapM fun branch => branch.mapM (Step.resolve scope) with
    | .error fault => .error (.naming fault)
    | .ok branches => .ok ⟨source, branches⟩

/-- The path of a selector, which has no steps to attributes. -/
def compileSelector (source : String) (scope : Scope) : Except Failure Path :=
  compile false "selector" source scope

/-- The path of a field. -/
def compileField (source : String) (scope : Scope) : Except Failure Path :=
  compile true "field" source scope

/-- Whether a branch ends on attributes. -/
def selectsAttributes (p : Path) : Bool :=
  p.branches.any fun steps => match steps.getLast? with
    | some (.onAttributes _) => true
    | _ => false

end Conform.Path
