/-!
# Reading text

A reader takes characters off the front of a text and gives a value, or fails. An alternative
starts again where the first one started. Repetition is bounded by the characters that are left,
which is no limit on readers that take at least one.
-/

namespace BatchDigest.Toml

/-- A reader of the characters of a text. -/
abbrev Reader := StateT (List Char) Option

namespace Reader

variable {α β : Type}

/-- One character of a class. -/
def satisfy (isIn : Char → Bool) : Reader Char := do
  match ← get with
  | [] => failure
  | c :: rest =>
    if isIn c then
      set rest
      return c
    else failure

/-- One given character. -/
def char (c : Char) : Reader Unit := do
  let _ ← satisfy (· == c)

/-- The given characters. -/
def chars : List Char → Reader Unit
  | [] => return ()
  | c :: rest => do
    char c
    chars rest

/-- All characters of a class up to the first that is not in it. -/
def takeWhile (isIn : Char → Bool) : Reader (List Char) := do
  let text ← get
  set (text.dropWhile isIn)
  return text.takeWhile isIn

/-- One or more characters of a class. -/
def takeWhile1 (isIn : Char → Bool) : Reader (List Char) := do
  let first ← satisfy isIn
  return first :: (← takeWhile isIn)

/-- The given number of values. -/
def times (reader : Reader α) : Nat → Reader (List α)
  | 0 => return []
  | count + 1 => do
    let first ← reader
    return first :: (← times reader count)

/-- At most the given number of values, as many as there are. -/
def upTo (reader : Reader α) : Nat → Reader (List α)
  | 0 => return []
  | count + 1 =>
    (do
      let first ← reader
      return first :: (← upTo reader count)) <|> return []

/-- As many values as there are. -/
def many (reader : Reader α) : Reader (List α) := do
  upTo reader (← get).length

/-- One or more values with separators between them. -/
def separated (reader : Reader α) (separator : Reader β) : Reader (List α) := do
  let first ← reader
  return first :: (← many (separator *> reader))

/-- The end of the text. -/
def atEnd : Reader Unit := do
  guard (← get).isEmpty

/-- The value that a whole text is read as. -/
def readAll? (reader : Reader α) (text : List Char) : Option α :=
  (StateT.run (reader <* atEnd) text).map (·.1)

end Reader

end BatchDigest.Toml
