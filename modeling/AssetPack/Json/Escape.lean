import AssetPack.Text.Numeral

/-!
# Quoted text

How a text stands between quotes. Written are the short escapes, a numbered escape for every
other character below the space, and all else as it is. Read are also an escaped slash and
numbered escapes of any code unit: a high surrogate escape with a low one right behind it is one
character, and every other surrogate is the replacement character and leaves its neighbour
alone.
-/
namespace AssetPack.Json

/-- The letters that stand behind a backslash for one character. -/
def shortEscape? : Char → Option Char
  | '"' => some '"'
  | '\\' => some '\\'
  | '/' => some '/'
  | 'b' => some '\x08'
  | 'f' => some '\x0c'
  | 'n' => some '\n'
  | 'r' => some '\r'
  | 't' => some '\t'
  | _ => none

/-- A character as it is written between quotes. -/
def escapeChar (c : Char) : List Char :=
  if c = '"' then ['\\', '"']
  else if c = '\\' then ['\\', '\\']
  else if c = '\x08' then ['\\', 'b']
  else if c = '\x0c' then ['\\', 'f']
  else if c = '\n' then ['\\', 'n']
  else if c = '\r' then ['\\', 'r']
  else if c = '\t' then ['\\', 't']
  else if c < ' ' then '\\' :: 'u' :: Text.hexChars 4 c.toNat
  else [c]

/-- A text as it is written between quotes. -/
def escape (text : List Char) : List Char := text.flatMap escapeChar

def isHex (c : Char) : Bool := (Text.hexValue? c).isSome

/-- The code unit that four hexadecimal digits stand for. -/
def codeUnit (digits : List Char) : Nat :=
  digits.foldl (fun n c => 16 * n + (Text.hexValue? c).getD 0) 0

def isHighSurrogate (unit : Nat) : Bool := 0xD800 ≤ unit && unit < 0xDC00

def isLowSurrogate (unit : Nat) : Bool := 0xDC00 ≤ unit && unit < 0xE000

/-- The character that stands for a surrogate alone. -/
def replacement : Char := Char.ofNat 0xFFFD

/-- The character of a code unit. -/
def unitChar (unit : Nat) : Char :=
  if isHighSurrogate unit || isLowSurrogate unit then replacement else Char.ofNat unit

/-- The character that two surrogates encode. -/
def pairChar (high low : Nat) : Char := Char.ofNat (0x10000 + (high - 0xD800) * 0x400 + (low - 0xDC00))

/-- A character between quotes, or a numbered escape by its code unit. -/
inductive Piece where
  | char (c : Char)
  | unit (n : Nat)
  deriving DecidableEq, Repr

/-- The pieces between quotes, if every backslash begins an escape. -/
def pieces? : List Char → Option (List Piece)
  | '\\' :: 'u' :: a :: b :: c :: d :: rest =>
    if isHex a && isHex b && isHex c && isHex d then (pieces? rest).map (.unit (codeUnit [a, b, c, d]) :: ·)
    else none
  | '\\' :: e :: rest => (shortEscape? e).bind fun c => (pieces? rest).map (.char c :: ·)
  | ['\\'] => none
  | c :: rest => (pieces? rest).map (.char c :: ·)
  | [] => some []

/-- The text of pieces. -/
def joinPieces : List Piece → List Char
  | .unit high :: .unit low :: rest =>
    if isHighSurrogate high && isLowSurrogate low then pairChar high low :: joinPieces rest
    else unitChar high :: joinPieces (.unit low :: rest)
  | .unit n :: rest => unitChar n :: joinPieces rest
  | .char c :: rest => c :: joinPieces rest
  | [] => []

/-- The text that stands between quotes as these characters, if every backslash begins an escape. -/
def unescape? (body : List Char) : Option (List Char) := (pieces? body).map joinPieces

/-- Split a text behind an opening quote at the closing one. There must be a closing quote, no
character below the space may stand before it, and every backslash must begin an escape. -/
def splitQuoted? : List Char → Option (List Char × List Char)
  | '"' :: rest => some ([], rest)
  | '\\' :: 'u' :: a :: b :: c :: d :: rest =>
    if isHex a && isHex b && isHex c && isHex d then
      (splitQuoted? rest).map fun (body, rest) => ('\\' :: 'u' :: a :: b :: c :: d :: body, rest)
    else none
  | '\\' :: c :: rest =>
    if (shortEscape? c).isSome then
      (splitQuoted? rest).map fun (body, rest) => ('\\' :: c :: body, rest)
    else none
  | c :: rest =>
    if c = '\\' || c < ' ' then none
    else (splitQuoted? rest).map fun (body, rest) => (c :: body, rest)
  | [] => none

end AssetPack.Json
