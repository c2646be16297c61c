import BatchDigest.Toml.Document
import BatchDigest.Toml.Number
import BatchDigest.Toml.Text

/-!
# Lines of a document

A line is empty, gives a value to a key, or is a header. A value may run over several lines, as
arrays and long strings do; an inline table may not. A comment may end any line. Nesting of arrays
and inline tables is limited, and so is the number of parts of a key.
-/

namespace BatchDigest.Toml

open Reader

/-- How deep arrays and inline tables may be nested, and the number of parts that a key may have. -/
def deepest : Nat := 79

/-- Blanks, as many as there are. -/
def blanks : Reader Unit :=
  Functor.discard (takeWhile isBlank)

/-- A comment up to the end of its line. -/
def comment : Reader Unit := do
  char '#'
  let _ ← takeWhile isPlain

/-- Blanks, line breaks and comments, as many as there are. -/
def filler : Reader Unit := do
  let _ ← many (Functor.discard (takeWhile1 isBlank) <|> newline <|> comment)

/-- A character of a key without quotes. -/
def isBare (c : Char) : Bool :=
  c.isAlphanum || c == '_' || c == '-'

/-- One part of a key. -/
def simpleKey : Reader String :=
  basicString <|> literalString <|> String.ofList <$> takeWhile1 isBare

/-- A key of one or more parts with dots between them. -/
def key : Reader (List String) := do
  let parts ← separated (blanks *> simpleKey <* blanks) (char '.')
  guard (parts.length ≤ deepest)
  return parts

/-- A character of a number, a boolean or a moment. -/
def isRun (c : Char) : Bool :=
  c.isAlphanum || c == '_' || c == '+' || c == '-' || c == '.' || c == ':'

/-- The time of day that may follow a date behind a space. -/
def spacedTime : Reader Unit := do
  char ' '
  guard (isZonedTime (← takeWhile1 isRun))

/-- A value that no other values are part of. -/
def scalar : Reader Value :=
  .text <$> anyString <|> do
    let text ← takeWhile1 isRun
    if isDate text then
      let _ ← optional spacedTime
    match Value.ofRun? text with
    | some value => return value
    | none => failure

/-- Items in brackets with commas between them, and perhaps one at the end. -/
def array (item : Reader Value) : Reader Value := do
  char '['
  let items ← optional (separated (filler *> item <* filler) (char ','))
  if items.isSome then
    let _ ← optional (char ',')
  filler
  char ']'
  return .array (items.getD [])

/-- A key and its value, with the sign between them. -/
def assignment (item : Reader Value) : Reader Assignment := do
  let path ← key
  char '='
  blanks
  return ⟨path, ← item⟩

/-- Keys and values in braces with commas between them. -/
def inlineTable (item : Reader Value) : Reader Value := do
  char '\x7b'
  let assignments ← optional (separated (assignment item <* blanks) (char ','))
  blanks
  char '\x7d'
  match Entries.assignAll (assignments.getD []) [] with
  | some entries => return .table .inline entries
  | none => failure

/-- A value with at most so many arrays and inline tables around its parts. -/
def value : Nat → Reader Value
  | 0 => scalar
  | depth + 1 => scalar <|> array (value depth) <|> inlineTable (value depth)

/-- A header in brackets. -/
def heading : Reader Heading := do
  char '['
  if (← optional (char '[')).isSome then
    let path ← key
    chars [']', ']']
    return .element path
  else
    let path ← key
    char ']'
    return .table path

/-- A line with what it says, up to and with its end. -/
def line : Reader Line := do
  guard !(← get).isEmpty
  blanks
  let content ← .heading <$> heading <|>
    .assignment <$> assignment (value deepest) <|> return .empty
  blanks
  let _ ← optional comment
  newline <|> atEnd
  return content

/-- All lines of a document. A byte order mark may come first. -/
def document : Reader (List Line) := do
  let _ ← optional (char '\ufeff')
  many line

/-- The table that the text of a document stands for. -/
def Entries.ofText? (text : String) : Option Entries := do
  ofLines? (← readAll? document text.toList)

end BatchDigest.Toml
