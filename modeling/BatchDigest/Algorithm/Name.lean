import BatchDigest.Rejection
import BatchDigest.Text.Digits

/-!
# Reading algorithm names

A name is trimmed and its ASCII letters are lowered, then the first dash splits the family from the
width. The families of one width take none, the sponges need one, and the keyed family has 512 bits
when none is given. The result is always a supported algorithm.
-/

namespace BatchDigest.Algorithm

/-- Widths are 32-bit numbers. -/
def widthBound : Nat := 4294967296

/-- Refuses a width that the family does not define. -/
def check (a : Algorithm) : Except Rejection Unit :=
  if a.isSupported then .ok () else .error (.unsupportedWidth a)

/-- The family and, behind the first dash, the width, in lower case and without outer blanks. -/
def splitName (name : String) : List Char × Option (List Char) :=
  let text := (Text.trim name.toList).map Char.toLower
  match text.dropWhile (· != '-') with
  | [] => (text, none)
  | _ :: width => (text.takeWhile (· != '-'), some width)

/-- The width that a name gives, or else the default of the family. -/
def readWidth (name : String) (width : Option (List Char)) (fallback : Option Nat) :
    Except Rejection Nat :=
  match width, fallback with
  | some text, _ =>
    match Text.number? widthBound text with
    | some bits => .ok bits
    | none => .error (.invalidWidth name)
  | none, some bits => .ok bits
  | none, none => .error (.missingWidth name)

/-- An algorithm of one width, which a name must not repeat. -/
def readFixed (a : Algorithm) (width : Option (List Char)) : Except Rejection Algorithm :=
  match width with
  | some _ => .error (.fixedWidth a.family)
  | none => .ok a

/-- The algorithm that a name stands for, before its width is checked. -/
def readName (name : String) : Except Rejection Algorithm :=
  let (family, width) := splitName name
  match String.ofList family with
  | "md2" => readFixed .md2 width
  | "md5" => readFixed .md5 width
  | "sha1" => readFixed .sha1 width
  | "sha256" => readFixed .sha256 width
  | "keccak" => .keccak <$> readWidth name width none
  | "sha3" => .sha3 <$> readWidth name width none
  | "blake2b" => .blake2b <$> readWidth name width (some 512)
  | _ => .error (.unknownAlgorithm name)

/-- The supported algorithm that a name stands for. -/
def ofName (name : String) : Except Rejection Algorithm := do
  let a ← readName name
  a.check
  return a

/-- An algorithm by its name or as it is, with any width. -/
inductive Choice where
  | named (name : String)
  | given (algorithm : Algorithm)

/-- The algorithm that is meant. Only names are checked. -/
def Choice.resolve : Choice → Except Rejection Algorithm
  | named name => ofName name
  | given a => .ok a

/-- Refuses a width that the family does not define and a key that it does not take. The empty key
means that there is none. -/
def checkKey (a : Algorithm) (keyLength : Nat) : Except Rejection Unit := do
  a.check
  if keyLength = 0 then return ()
  if !a.isKeyed then throw (.unexpectedKey a)
  if longestKey < keyLength then throw (.longKey a keyLength)

end BatchDigest.Algorithm
