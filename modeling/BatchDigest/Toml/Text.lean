import BatchDigest.Text.Hex
import BatchDigest.Toml.Reader

/-!
# TOML strings

Basic strings stand in double quotes and know escapes, literal strings stand in single quotes and
do not. Either kind may stand in three quotes and then run over several lines: a line break right
behind the opening quotes is dropped, every other one is a line feed, and up to two quotes may
stand before the closing ones. Tabs are the only control characters that are allowed as they are.
-/

namespace BatchDigest.Toml

open Reader

/-- A blank within a line. -/
def isBlank (c : Char) : Bool :=
  c == ' ' || c == '\t'

/-- A character that texts and comments may hold as it is. -/
def isPlain (c : Char) : Bool :=
  c == '\t' || (' ' ≤ c && c != '\x7f')

/-- A line break: a line feed, perhaps behind a carriage return. -/
def newline : Reader Unit :=
  char '\n' <|> chars ['\r', '\n']

/-- The value of hexadecimal digits. -/
def hexValue (digits : List Char) : Nat :=
  digits.foldl (fun value c => 16 * value + (Text.hexValue? c).getD 0) 0

/-- The character whose number is written in so many hexadecimal digits. -/
def codePoint (count : Nat) : Reader Char := do
  let digits ← times (satisfy fun c => (Text.hexValue? c).isSome) count
  let value := hexValue digits
  guard (value < 0xd800 || (0xdfff < value && value ≤ 0x10ffff))
  return Char.ofNat value

/-- An escaped character, from the backslash on. -/
def escaped : Reader Char := do
  char '\\'
  match ← satisfy fun _ => true with
  | 'b' => return '\x08'
  | 't' => return '\t'
  | 'n' => return '\n'
  | 'f' => return '\x0c'
  | 'r' => return '\r'
  | '"' => return '"'
  | '\\' => return '\\'
  | 'u' => codePoint 4
  | 'U' => codePoint 8
  | _ => failure

/-- A character that a basic string may hold as it is. -/
def isBasic (c : Char) : Bool :=
  isPlain c && c != '"' && c != '\\'

/-- A character that a literal string may hold. -/
def isLiteral (c : Char) : Bool :=
  isPlain c && c != '\''

/-- A string in double quotes. -/
def basicString : Reader String := do
  char '"'
  let pieces ← many (takeWhile1 isBasic <|> List.singleton <$> escaped)
  char '"'
  return String.ofList pieces.flatten

/-- A string in single quotes. -/
def literalString : Reader String := do
  char '\''
  let text ← takeWhile isLiteral
  char '\''
  return String.ofList text

/-- A backslash at the end of a line, with the break and all blanks and breaks behind it. -/
def continuation : Reader Unit := do
  char '\\'
  let _ ← takeWhile isBlank
  newline
  let _ ← many (newline <|> Functor.discard (takeWhile1 isBlank))

/-- One or two quotes inside a string in three of them. -/
def innerQuotes (quote : Char) : Reader (List Char) := do
  let quotes ← takeWhile1 (· == quote)
  guard (quotes.length < 3)
  return quotes

/-- The closing quotes of a string in three of them, and the quotes before them that belong to the
string. -/
def closingQuotes (quote : Char) : Reader (List Char) := do
  let quotes ← takeWhile (· == quote)
  guard (3 ≤ quotes.length && quotes.length ≤ 5)
  return quotes.drop 3

/-- A string in three quotes whose text is made of the given pieces. -/
def longString (quote : Char) (piece : Reader (List Char)) : Reader String := do
  chars [quote, quote, quote]
  let _ ← optional newline
  let lineFeed := (fun _ => ['\n']) <$> newline
  let pieces ← many (piece <|> lineFeed <|> innerQuotes quote)
  let last ← closingQuotes quote
  return String.ofList (pieces.flatten ++ last)

/-- A basic string that may run over several lines. -/
def longBasicString : Reader String :=
  longString '"'
    (takeWhile1 isBasic <|> (fun _ => []) <$> continuation <|> List.singleton <$> escaped)

/-- A literal string that may run over several lines. -/
def longLiteralString : Reader String :=
  longString '\'' (takeWhile1 isLiteral)

/-- A string of any kind. -/
def anyString : Reader String :=
  longBasicString <|> basicString <|> longLiteralString <|> literalString

end BatchDigest.Toml
