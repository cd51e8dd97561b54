import AssetPack.Json.Escape

/-!
# Tokens

The tokens of a description. Between any two of them there may be a gap: blanks and comments,
those of one line and those that are closed. A token that is cut short or unknown is bad; so is
a comment that is not closed. Each token carries the text that begins with it, which places it.
-/
namespace AssetPack.Json

/-- The smallest pieces of a description. -/
inductive Token where
  | openBrace | closeBrace | openBracket | closeBracket | comma | colon
  | null
  | bool (b : Bool)
  | number (numeral : String)
  | string (s : String)
  /-- the end of the text -/
  | finish
  | bad
  deriving DecidableEq, Repr

/-- A token and the text from its start on. -/
structure Lexeme where
  token : Token
  start : List Char

/-- Where the reading of a gap stands. -/
inductive Gap where
  | between
  | line
  /-- in a comment to be closed, which began here -/
  | comment (start : List Char)

def isSpace (c : Char) : Bool := c == ' ' || c == '\t' || c == '\n' || c == '\x0c' || c == '\r'

/-- The text behind a gap. An unclosed comment is not part of it. -/
def skipGap : Gap → List Char → List Char
  | .between, '/' :: '/' :: rest => skipGap .line rest
  | .between, '/' :: '*' :: rest => skipGap (.comment ('/' :: '*' :: rest)) rest
  | .between, c :: rest => if isSpace c then skipGap .between rest else c :: rest
  | .between, [] => []
  | .line, c :: rest => if c = '\n' || c = '\r' then skipGap .between rest else skipGap .line rest
  | .line, [] => []
  | .comment _, '*' :: '/' :: rest => skipGap .between rest
  | .comment start, _ :: rest => skipGap (.comment start) rest
  | .comment start, [] => start

/-- At least one digit, and the rest. -/
def splitDigits? (text : List Char) : Option (List Char × List Char) :=
  match text.takeWhile Char.isDigit with
  | [] => none
  | digits => some (digits, text.dropWhile Char.isDigit)

/-- A minus at the front, and the rest. -/
def splitMinus : List Char → List Char × List Char
  | '-' :: text => (['-'], text)
  | text => ([], text)

/-- A point with digits behind it at the front, if there is a point, and the rest. -/
def splitFraction? : List Char → Option (List Char × List Char)
  | '.' :: text => (splitDigits? text).map fun (digits, text) => ('.' :: digits, text)
  | text => some ([], text)

/-- A sign of an exponent at the front, and the rest. -/
def splitExponentSign : List Char → List Char × List Char
  | c :: text => if c = '+' || c = '-' then ([c], text) else ([], c :: text)
  | [] => ([], [])

/-- An exponent at the front, if there is its mark, and the rest. -/
def splitExponent? : List Char → Option (List Char × List Char)
  | e :: text =>
    if e = 'e' || e = 'E' then
      let (sign, text) := splitExponentSign text
      (splitDigits? text).map fun (digits, text) => (e :: sign ++ digits, text)
    else some ([], e :: text)
  | [] => some ([], [])

/-- The longest numeral a text begins with, and the rest. A point or an exponent mark that no
digits follow makes it bad. -/
def splitNumeral? (text : List Char) : Option (List Char × List Char) := do
  let (sign, text) := splitMinus text
  let (whole, text) ← splitDigits? text
  let (fraction, text) ← splitFraction? text
  let (exponent, text) ← splitExponent? text
  pure (sign ++ whole ++ fraction ++ exponent, text)

/-- The token of a word. -/
def wordToken (word : String) : Token :=
  if word = "true" then .bool true
  else if word = "false" then .bool false
  else if word = "null" then .null
  else .bad

/-- The token of a punctuation mark. -/
def markToken : Char → Token
  | '\x7b' => .openBrace
  | '\x7d' => .closeBrace
  | '[' => .openBracket
  | ']' => .closeBracket
  | ',' => .comma
  | ':' => .colon
  | _ => .bad

/-- The token a text begins with, and the text behind it. -/
def nextToken (text : List Char) : Token × List Char :=
  match text with
  | [] => (.finish, [])
  | c :: rest =>
    if c = '"' then
      match splitQuoted? rest with
      | some (body, behind) =>
        match unescape? body with
        | some s => (.string (String.ofList s), behind)
        | none => (.bad, rest)
      | none => (.bad, rest)
    else if c = '-' || c.isDigit then
      match splitNumeral? text with
      | some (numeral, rest) => (.number (String.ofList numeral), rest)
      | none => (.bad, rest)
    else if c = 't' || c = 'f' || c = 'n' then
      (wordToken (String.ofList (text.takeWhile Char.isAlphanum)), text.dropWhile Char.isAlphanum)
    else (markToken c, rest)

/-- The tokens of a text up to its end or to a bad one. Each takes a character, so one more
than the length of the text is fuel enough. -/
def lexFrom : (fuel : Nat) → List Char → List Lexeme
  | 0, _ => []
  | fuel + 1, text =>
    let start := skipGap .between text
    let (token, rest) := nextToken start
    ⟨token, start⟩ :: if token = .finish ∨ token = .bad then [] else lexFrom fuel rest

/-- The tokens of a text up to its end or to a bad one. -/
def lex (text : List Char) : List Lexeme := lexFrom (text.length + 1) text

end AssetPack.Json
