import AssetPack.Fault
import AssetPack.Json
import AssetPack.Json.Token

/-!
# Reading JSON

A description is one object with gaps around it. Objects and arrays may have a comma behind
their last member. A name that stands twice keeps its first place and gets its last value. At
most `deepestContainer` containers may be open at once within the root.

The reader is a machine that takes one token at a time; the token it has no step for is the one
that is wrong.
-/
namespace AssetPack.Json

/-- The greatest number of containers open at once within the root. -/
def deepestContainer : Nat := 256

/-- A container that is being read, with what it has so far, and what it waits for. -/
inductive Open where
  /-- an item or the closing bracket; the items so far, the last one first -/
  | items (done : List Json)
  /-- a comma or the closing bracket -/
  | afterItem (done : List Json)
  /-- a name or the closing brace -/
  | members (done : Dict Json)
  /-- the colon behind a name -/
  | colon (done : Dict Json) (name : String)
  /-- the value of a name -/
  | field (done : Dict Json) (name : String)
  /-- a comma or the closing brace -/
  | afterMember (done : Dict Json)

/-- Where the machine stands. -/
inductive State where
  | start
  | inside (top : Open) (below : List Open)
  | done (root : Dict Json)

namespace Open

/-- The container with a value put where it waits for one. -/
def put? (j : Json) : Open → Option Open
  | items done => some (afterItem (j :: done))
  | field done name => some (afterMember (done.set name j))
  | _ => none

/-- The value that a closing bracket makes of a container. -/
def closeBracket? : Open → Option Json
  | items done => some (.array done.reverse)
  | afterItem done => some (.array done.reverse)
  | _ => none

/-- The members that a closing brace closes. -/
def closeBrace? : Open → Option (Dict Json)
  | members done => some done
  | afterMember done => some done
  | _ => none

/-- Whether a value may stand here. -/
def waits : Open → Bool
  | items _ => true
  | field _ _ => true
  | _ => false

end Open

/-- The value of a token that is one. -/
def Token.scalar? : Token → Option Json
  | .null => some .null
  | .bool b => some (.bool b)
  | .number numeral => some (.number numeral)
  | .string s => some (.string s)
  | _ => none

namespace State

/-- Put a value into the innermost of these containers. -/
def put? (j : Json) : List Open → Option State
  | [] => none
  | top :: below => (top.put? j).map (inside · below)

/-- Begin a container within these. -/
def enter? (new top : Open) (below : List Open) : Option State :=
  if top.waits ∧ below.length < deepestContainer then some (inside new (top :: below)) else none

/-- What a token leads to inside a container. -/
def stepInside? (top : Open) (below : List Open) (t : Token) : Option State :=
  match t with
  | .openBrace => enter? (.members ∅) top below
  | .openBracket => enter? (.items []) top below
  | .closeBracket => top.closeBracket?.bind (put? · below)
  | .closeBrace => top.closeBrace?.bind fun members =>
    if below.isEmpty then some (done members) else put? (.object members) below
  | .comma => match top with
    | .afterItem held => some (inside (.items held) below)
    | .afterMember held => some (inside (.members held) below)
    | _ => none
  | .colon => match top with
    | .colon held name => some (inside (.field held name) below)
    | _ => none
  | .string s => match top with
    | .members held => some (inside (.colon held s) below)
    | _ => put? (.string s) (top :: below)
  | t => t.scalar?.bind (put? · (top :: below))

/-- What a token leads to. -/
def step? : State → Token → Option State
  | start, .openBrace => some (inside (.members ∅) [])
  | inside top below, t => stepInside? top below t
  | done root, .finish => some (done root)
  | _, _ => none

end State

/-- Take tokens one by one. The answer is the root, or the text that begins with the first token
that is wrong. -/
def runTokens : State → List Lexeme → Except (List Char) (Dict Json)
  | .done root, [] => .ok root
  | _, [] => .error []
  | s, lexeme :: rest =>
    match s.step? lexeme.token with
    | some s => runTokens s rest
    | none => .error lexeme.start

/-- The number of characters shown of the text that is wrong. -/
def excerptLength : Nat := 32

/-- The fault of a text whose part from `rest` on is wrong. -/
def faultAt (text : String) (rest : List Char) : Fault :=
  .badDescription (text.utf8ByteSize - (String.ofList rest).utf8ByteSize)
    (String.ofList (rest.take excerptLength))

/-- The members of the object that a text is. -/
def parse (text : String) : Except Fault (Dict Json) :=
  match runTokens .start (lex text.toList) with
  | .ok root => .ok root
  | .error rest => .error (faultAt text rest)

/-- The dictionary that a text describes. -/
def parseDict (text : String) : Except Fault (Dict Value) :=
  match parse text with
  | .ok root => .ok root.jsonValue
  | .error f => .error f

end AssetPack.Json
