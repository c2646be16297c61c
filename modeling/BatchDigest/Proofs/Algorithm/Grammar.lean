import BatchDigest.Algorithm.Name
import BatchDigest.Error
import Mathlib.Data.List.TakeWhile

/-!
# The grammar of algorithm names

Names are told here by how they are written, without a reader: a family alone, or a family, a dash
and a width (`Algorithm.Denotes`), in lower case and between blanks that do not count. A width is an
optional plus sign before one or more digits, with as many zeros in front as one likes
(`Text.WritesNumber`). `Algorithm.ofName` accepts exactly what the grammar writes, and gives what it
writes; the name of a supported algorithm is among that (`Algorithm.ofName_grammar`).
-/

namespace BatchDigest

namespace Text

/-! ## Numbers -/

theorem digit?_eq_some_iff {c : Char} {d : Nat} :
    digit? c = some d ↔ c.isDigit = true ∧ d = c.toNat - 48 := by
  have digit : ('0' ≤ c ∧ c ≤ '9') ↔ c.isDigit = true := by
    rw [Char.isDigit, Bool.and_eq_true, decide_eq_true_eq, decide_eq_true_eq]
    exact Iff.rfl
  unfold digit?
  split
  next is => rw [Option.some_inj, eq_comm, and_iff_right (digit.1 is)]
  next no => exact iff_of_false nofun fun both => no (digit.2 both.1)

/-- The value of a run of digits is that of its digits one after the other. -/
theorem digitsFrom?_eq_some_iff {seen n : Nat} {digits : List Char} :
    digitsFrom? seen digits = some n ↔
      (∀ c ∈ digits, c.isDigit = true) ∧ n = Nat.ofDigitChars 10 digits seen := by
  induction digits generalizing seen with
  | nil =>
    show some seen = some n ↔ _
    rw [Option.some_inj, eq_comm, and_iff_right nofun]
    exact Iff.rfl
  | cons c rest ih =>
    unfold digitsFrom?
    rw [Option.bind_eq_some_iff, List.forall_mem_cons, Nat.ofDigitChars_cons]
    constructor
    · rintro ⟨d, digit, rest⟩
      obtain ⟨is, rfl⟩ := digit?_eq_some_iff.1 digit
      obtain ⟨all, rfl⟩ := ih.1 rest
      exact ⟨⟨is, all⟩, by rw [Nat.mul_comm]; rfl⟩
    · rintro ⟨⟨is, all⟩, rfl⟩
      exact ⟨_, digit?_eq_some_iff.2 ⟨is, rfl⟩, ih.2 ⟨all, by rw [Nat.mul_comm]; rfl⟩⟩

/-- A text that writes a number: one or more digits, perhaps behind one plus sign. -/
def WritesNumber (text : List Char) (n : Nat) : Prop :=
  ∃ digits, (text = digits ∨ text = '+' :: digits) ∧ digits ≠ [] ∧
    (∀ c ∈ digits, c.isDigit = true) ∧ n = Nat.ofDigitChars 10 digits 0

theorem digitsValue?_eq_some_iff {digits : List Char} {n : Nat} :
    digitsValue? digits = some n ↔ digits ≠ [] ∧ (∀ c ∈ digits, c.isDigit = true) ∧
      n = Nat.ofDigitChars 10 digits 0 := by
  cases digits with
  | nil => exact iff_of_false nofun fun all => all.1 rfl
  | cons c rest =>
    show digitsFrom? 0 (c :: rest) = some n ↔ _
    rw [digitsFrom?_eq_some_iff, and_iff_right (List.cons_ne_nil c rest)]

/-- **A number is read from the texts that write it**, below the bound. -/
theorem number?_eq_some_iff {bound n : Nat} {text : List Char} :
    number? bound text = some n ↔ WritesNumber text n ∧ n < bound := by
  unfold number?
  dsimp only
  rw [Option.filter_eq_some_iff, decide_eq_true_eq]
  refine and_congr_left fun _ => ?_
  unfold WritesNumber
  split
  next rest =>
    rw [digitsValue?_eq_some_iff]
    constructor
    · exact fun written => ⟨rest, .inr rfl, written⟩
    · rintro ⟨digits, rfl | same, written⟩
      · -- A plus sign is no digit.
        exact absurd (written.2.1 '+' List.mem_cons_self) (by decide)
      · cases same
        exact written
  next unsigned =>
    rw [digitsValue?_eq_some_iff]
    constructor
    · exact fun written => ⟨text, .inl rfl, written⟩
    · rintro ⟨digits, rfl | same, written⟩
      · exact written
      · exact absurd same (unsigned digits)

/-- The decimal digits of a number write it. -/
theorem writesNumber_toDigits (n : Nat) : WritesNumber (Nat.toDigits 10 n) n :=
  ⟨_, .inl rfl, Nat.toDigits_ne_nil,
    fun _ mem => Nat.isDigit_of_mem_toDigits (by decide) (by decide) mem,
    Nat.ofDigitChars_ten_toDigits.symm⟩

/-! ## Trimmed texts -/

/-- What is left of a text without the blanks at both ends. -/
structure Trims (text inner : List Char) : Prop where
  split : ∃ front back, text = front ++ inner ++ back ∧
    (∀ c ∈ front, isBlank c = true) ∧ ∀ c ∈ back, isBlank c = true
  first : ∀ c ∈ inner.head?, isBlank c = false
  last : ∀ c ∈ inner.getLast?, isBlank c = false

/-- Blanks in front of something else. -/
private theorem dropWhile_blank {blanks rest : List Char} (all : ∀ c ∈ blanks, isBlank c = true)
    (first : ∀ c ∈ rest.head?, isBlank c = false) : (blanks ++ rest).dropWhile isBlank = rest := by
  rw [List.dropWhile_append_of_pos all]
  cases rest with
  | nil => rfl
  | cons c rest => exact List.dropWhile_cons_of_neg (by simp [first c rfl])

/-- Without the blanks in front a text starts with something else. -/
private theorem head?_dropWhile_blank {text : List Char} :
    ∀ c ∈ (text.dropWhile isBlank).head?, isBlank c = false := by
  intro c mem
  have first := List.head?_dropWhile_not isBlank text
  rw [Option.mem_def.1 mem] at first
  exact first

/-- **Trimming leaves what is between the blanks**, and nothing else is between them. -/
theorem trims_iff {text inner : List Char} : Trims text inner ↔ inner = trim text := by
  constructor
  · rintro ⟨⟨front, back, rfl, fronts, backs⟩, first, last⟩
    unfold trim
    rw [List.append_assoc]
    cases inner with
    | nil =>
      have all : ∀ c ∈ front ++ ([] ++ back), isBlank c = true := by
        simpa [or_imp, forall_and] using ⟨fronts, backs⟩
      rw [List.dropWhile_eq_nil_iff.2 all]
      rfl
    | cons c rest =>
      rw [← List.head?_reverse] at last
      rw [@dropWhile_blank front (c :: rest ++ back) fronts first, List.reverse_append,
        dropWhile_blank (fun b mem => backs b (List.mem_reverse.1 mem)) last, List.reverse_reverse]
  · rintro rfl
    have front := List.takeWhile_append_dropWhile (p := isBlank) (l := text)
    have back : trim text ++ ((text.dropWhile isBlank).reverse.takeWhile isBlank).reverse =
        text.dropWhile isBlank := by
      unfold trim
      rw [← List.reverse_append, List.takeWhile_append_dropWhile, List.reverse_reverse]
    refine ⟨⟨text.takeWhile isBlank, ((text.dropWhile isBlank).reverse.takeWhile isBlank).reverse,
      ?_, fun c mem => List.mem_takeWhile_imp mem,
      fun c mem => List.mem_takeWhile_imp (List.mem_reverse.1 mem)⟩, fun c mem => ?_, ?_⟩
    · rw [List.append_assoc, back, front]
    · -- What is first in the end was first before the blanks behind it went.
      refine @head?_dropWhile_blank text c ?_
      rw [← back, List.head?_append, Option.mem_def.1 mem]
      rfl
    · unfold trim
      rw [List.getLast?_reverse]
      exact head?_dropWhile_blank

/-- A text without blanks is left as it is. -/
theorem trim_of_filled {text : List Char} (filled : ∀ c ∈ text, isBlank c = false) :
    trim text = text :=
  (trims_iff.1 ⟨⟨[], [], by simp, nofun, nofun⟩, fun c mem => filled c (List.mem_of_head? mem),
    fun c mem => filled c (List.mem_of_getLast? mem)⟩).symm

end Text

namespace Algorithm

open Text

variable {name : String} {a : Algorithm}

/-- What a name says: its text between the blanks, in lower case. -/
def plainText (name : String) : List Char :=
  (trim name.toList).map Char.toLower

/-- The algorithm that a plain text writes. -/
inductive Denotes : List Char → Algorithm → Prop
  | md2 : Denotes "md2".toList .md2
  | md5 : Denotes "md5".toList .md5
  | sha1 : Denotes "sha1".toList .sha1
  | sha256 : Denotes "sha256".toList .sha256
  /-- The keyed family has 512 bits when no width is written. -/
  | blake2b : Denotes "blake2b".toList (.blake2b 512)
  | keccakWidth {width : List Char} {bits : Nat} (written : WritesNumber width bits)
      (supported : (keccak bits).isSupported) :
      Denotes ("keccak".toList ++ '-' :: width) (.keccak bits)
  | sha3Width {width : List Char} {bits : Nat} (written : WritesNumber width bits)
      (supported : (sha3 bits).isSupported) :
      Denotes ("sha3".toList ++ '-' :: width) (.sha3 bits)
  | blake2bWidth {width : List Char} {bits : Nat} (written : WritesNumber width bits)
      (supported : (Algorithm.blake2b bits).isSupported) :
      Denotes ("blake2b".toList ++ '-' :: width) (.blake2b bits)

/-! ## Reading -/

/-- A family and a width behind a dash, if there is one. -/
def joined (family : List Char) (width : Option (List Char)) : List Char :=
  family ++ width.elim [] ('-' :: ·)

@[simp] theorem joined_none (family : List Char) : joined family none = family :=
  List.append_nil family

@[simp] theorem joined_some (family width : List Char) :
    joined family (some width) = family ++ '-' :: width :=
  rfl

/-- **A name is split at its first dash.** -/
theorem splitName_eq_iff {family : List Char} {width : Option (List Char)} :
    splitName name = (family, width) ↔
      plainText name = joined family width ∧ ∀ c ∈ family, (c != '-') = true := by
  have parts := List.takeWhile_append_dropWhile (p := (· != '-')) (l := plainText name)
  have fronts : ∀ c ∈ (plainText name).takeWhile (· != '-'), (c != '-') = true :=
    fun c mem => List.mem_takeWhile_imp (p := (· != '-')) mem
  unfold splitName
  rw [show (Text.trim name.toList).map Char.toLower = plainText name from rfl]
  dsimp only
  constructor
  · intro same
    cases rest : (plainText name).dropWhile (· != '-') with
    | nil =>
      rw [rest] at same parts
      cases same
      rw [List.append_nil] at parts
      rw [parts] at fronts
      exact ⟨(List.append_nil _).symm, fronts⟩
    | cons dash behind =>
      rw [rest] at same parts
      cases same
      have first := List.head?_dropWhile_not (· != '-') (plainText name)
      rw [rest] at first
      have dash : dash = '-' := by simpa using first
      subst dash
      exact ⟨parts.symm, fronts⟩
  · rintro ⟨text, apart⟩
    rw [text]
    unfold joined
    rw [List.dropWhile_append_of_pos apart, List.takeWhile_append_of_pos apart]
    cases width with
    | none => simp
    | some width => simp

theorem check_eq_ok_iff (a : Algorithm) : a.check = .ok () ↔ a.isSupported = true := by
  unfold check
  split
  next supported => exact iff_of_true rfl supported
  next unsupported => exact iff_of_false nofun unsupported

theorem readFixed_eq_ok_iff {b : Algorithm} {width : Option (List Char)} :
    readFixed b width = .ok a ↔ width = none ∧ b = a := by
  cases width with
  | none => exact ⟨fun same => ⟨rfl, Except.ok.inj same⟩, fun both => congrArg _ both.2⟩
  | some text => exact iff_of_false nofun nofun

theorem readWidth_eq_ok_iff {width : Option (List Char)} {fallback : Option Nat} {bits : Nat} :
    readWidth name width fallback = .ok bits ↔
      (∃ text, width = some text ∧ WritesNumber text bits ∧ bits < widthBound) ∨
        width = none ∧ fallback = some bits := by
  cases width with
  | some text =>
    unfold readWidth
    dsimp only
    cases read : number? widthBound text with
    | some n => simp [← number?_eq_some_iff, read]
    | none => simp [← number?_eq_some_iff, read]
  | none =>
    cases fallback with
    | some n => simp [readWidth]
    | none => simp [readWidth]

/-- A supported width is below the bound on widths. -/
theorem width_lt_widthBound (supported : a.isSupported) : a.width < widthBound := by
  have widths : ∀ bits ∈ keccakWidths ++ sha3Widths, bits < widthBound := by decide
  cases a with
  | md2 | md5 | sha1 | sha256 => decide
  | keccak bits => exact widths bits (List.mem_append_left _ (List.contains_iff_mem.1 supported))
  | sha3 bits => exact widths bits (List.mem_append_right _ (List.contains_iff_mem.1 supported))
  | blake2b bits =>
    simp only [isSupported, Bool.and_eq_true, decide_eq_true_eq] at supported
    exact supported.1.2.trans_lt (by decide)

theorem map_eq_ok_iff {e : Except Rejection Nat} {f : Nat → Algorithm} :
    f <$> e = .ok a ↔ ∃ bits, e = .ok bits ∧ f bits = a := by
  cases e with
  | error r => exact iff_of_false nofun nofun
  | ok bits => exact ⟨fun same => ⟨bits, rfl, Except.ok.inj same⟩, by rintro ⟨_, ⟨⟩, rfl⟩; rfl⟩

/-- A name that is read, with a width that its family defines, writes the algorithm. -/
theorem denotes_of_readName (read : readName name = .ok a) (supported : a.isSupported) :
    Denotes (plainText name) a := by
  obtain ⟨family, width, split⟩ : ∃ family width, splitName name = (family, width) := ⟨_, _, rfl⟩
  have spelled {s : String} (is : String.ofList family = s) : family = s.toList := by
    rw [← is, String.toList_ofList]
  rw [(splitName_eq_iff.1 split).1]
  unfold readName at read
  rw [split] at read
  dsimp only at read
  split at read
  next is =>
    obtain ⟨rfl, rfl⟩ := readFixed_eq_ok_iff.1 read
    rw [joined_none, spelled is]
    exact .md2
  next is =>
    obtain ⟨rfl, rfl⟩ := readFixed_eq_ok_iff.1 read
    rw [joined_none, spelled is]
    exact .md5
  next is =>
    obtain ⟨rfl, rfl⟩ := readFixed_eq_ok_iff.1 read
    rw [joined_none, spelled is]
    exact .sha1
  next is =>
    obtain ⟨rfl, rfl⟩ := readFixed_eq_ok_iff.1 read
    rw [joined_none, spelled is]
    exact .sha256
  next is =>
    obtain ⟨bits, width, rfl⟩ := map_eq_ok_iff.1 read
    obtain ⟨text, rfl, written, -⟩ | ⟨-, ⟨⟩⟩ := readWidth_eq_ok_iff.1 width
    rw [joined_some, spelled is]
    exact .keccakWidth written supported
  next is =>
    obtain ⟨bits, width, rfl⟩ := map_eq_ok_iff.1 read
    obtain ⟨text, rfl, written, -⟩ | ⟨-, ⟨⟩⟩ := readWidth_eq_ok_iff.1 width
    rw [joined_some, spelled is]
    exact .sha3Width written supported
  next is =>
    obtain ⟨bits, width, rfl⟩ := map_eq_ok_iff.1 read
    obtain ⟨text, rfl, written, -⟩ | ⟨rfl, ⟨⟩⟩ := readWidth_eq_ok_iff.1 width
    · rw [joined_some, spelled is]
      exact .blake2bWidth written supported
    · rw [joined_none, spelled is]
      exact .blake2b
  next => exact nomatch read

theorem Denotes.isSupported {text : List Char} (denotes : Denotes text a) : a.isSupported := by
  cases denotes with
  | md2 | md5 | sha1 | sha256 | blake2b => rfl
  | keccakWidth _ supported | sha3Width _ supported | blake2bWidth _ supported => exact supported

/-- What a name writes is read. -/
theorem readName_of_denotes (denotes : Denotes (plainText name) a) : readName name = .ok a := by
  generalize plain : plainText name = text at denotes
  have split {family : List Char} {width : Option (List Char)} (whole : text = joined family width)
      (apart : ∀ c ∈ family, (c != '-') = true) : splitName name = (family, width) :=
    splitName_eq_iff.2 ⟨plain.trans whole, apart⟩
  have read {width : List Char} {bits : Nat} {fallback : Option Nat}
      (written : WritesNumber width bits) (bounded : bits < widthBound) :
      readWidth name (some width) fallback = .ok bits :=
    readWidth_eq_ok_iff.2 (.inl ⟨_, rfl, written, bounded⟩)
  unfold readName
  cases denotes with
  | md2 | md5 | sha1 | sha256 | blake2b =>
    rw [split (joined_none _).symm (List.all_eq_true.1 (by decide))]
    rfl
  | keccakWidth written supported | sha3Width written supported
  | blake2bWidth written supported =>
    rw [split (joined_some _ _).symm (List.all_eq_true.1 (by decide))]
    exact map_eq_ok_iff.2 ⟨_, read written (width_lt_widthBound supported), rfl⟩

/-- A name is accepted when it is read and its family defines the width. -/
theorem ofName_eq_ok_iff_readName :
    ofName name = .ok a ↔ readName name = .ok a ∧ a.isSupported := by
  rw [← check_eq_ok_iff]
  unfold ofName
  cases readName name with
  | error r => exact iff_of_false nofun nofun
  | ok b =>
    show (b.check >>= fun _ => Except.ok b) = .ok a ↔ Except.ok b = .ok a ∧ _
    cases checked : b.check with
    | error r =>
      refine iff_of_false nofun fun both => ?_
      cases both.1
      rw [checked] at both
      exact nomatch both.2
    | ok u => exact ⟨fun same => ⟨same, by cases same; exact checked⟩, And.left⟩

/-- **A name is accepted when its plain text writes an algorithm**, which is then the one read. -/
theorem ofName_eq_ok_iff : ofName name = .ok a ↔ Denotes (plainText name) a := by
  rw [ofName_eq_ok_iff_readName]
  exact ⟨fun both => denotes_of_readName both.1 both.2,
    fun denotes => ⟨readName_of_denotes denotes, denotes.isSupported⟩⟩

/-! ## Names -/

/-- A character that is neither trimmed nor lowered. -/
def IsPlain (c : Char) : Prop :=
  isBlank c = false ∧ c.toLower = c

instance (c : Char) : Decidable (IsPlain c) :=
  inferInstanceAs (Decidable (_ ∧ _))

theorem IsPlain.of_isDigit {c : Char} (digit : c.isDigit = true) : IsPlain c := by
  simp only [Char.isDigit, Bool.and_eq_true, decide_eq_true_eq, ge_iff_le, UInt32.le_iff_toNat_le]
    at digit
  change 48 ≤ c.toNat ∧ c.toNat ≤ 57 at digit
  constructor
  · simp only [isBlank, Ranges.has, blanks, List.any_eq_false]
    simp
    omega
  · unfold Char.toLower
    split
    next upper =>
      simp only [ge_iff_le, UInt32.le_iff_toNat_le] at upper
      change 65 ≤ c.toNat ∧ c.toNat ≤ 90 at upper
      omega
    next => rfl

/-- The characters of a text are looked at one after the other. -/
theorem forall_isPlain {text : List Char} (all : text.all (IsPlain ·) = true) :
    ∀ c ∈ text, IsPlain c :=
  fun c mem => of_decide_eq_true (List.all_eq_true.1 all c mem)

theorem plainText_of_plain (plain : ∀ c ∈ name.toList, IsPlain c) :
    plainText name = name.toList := by
  unfold plainText
  rw [trim_of_filled fun c mem => (plain c mem).1]
  exact (List.map_congr_left fun c mem => (plain c mem).2).trans (List.map_id' _)

/-- A family that is written plainly, and a width behind its dash. -/
theorem plainText_append_width (family : String) (plain : ∀ c ∈ family.toList, IsPlain c)
    (bits : Nat) : plainText (family ++ "-" ++ toString bits) =
      family.toList ++ '-' :: Nat.toDigits 10 bits := by
  have text : (family ++ "-" ++ toString bits).toList =
      family.toList ++ '-' :: Nat.toDigits 10 bits := by
    rw [String.toList_append, String.toList_append, Nat.toString_eq_ofList_toDigits,
      List.append_assoc, String.toList_ofList (l := Nat.toDigits 10 bits)]
    rfl
  rw [plainText_of_plain, text]
  rw [text, List.forall_mem_append, List.forall_mem_cons]
  exact ⟨plain, by decide, fun c mem => .of_isDigit <|
    Nat.isDigit_of_mem_toDigits (by decide) (by decide) mem⟩

/-- **The name of a supported algorithm writes it.** -/
theorem denotes_plainText_name (supported : a.isSupported) : Denotes (plainText a.name) a := by
  cases a with
  | md2 => rw [plainText_of_plain (forall_isPlain (by decide))]; exact .md2
  | md5 => rw [plainText_of_plain (forall_isPlain (by decide))]; exact .md5
  | sha1 => rw [plainText_of_plain (forall_isPlain (by decide))]; exact .sha1
  | sha256 => rw [plainText_of_plain (forall_isPlain (by decide))]; exact .sha256
  | keccak bits =>
    have text := plainText_append_width "keccak" (forall_isPlain (by decide)) bits
    exact text ▸ .keccakWidth (writesNumber_toDigits bits) supported
  | sha3 bits =>
    have text := plainText_append_width "sha3" (forall_isPlain (by decide)) bits
    exact text ▸ .sha3Width (writesNumber_toDigits bits) supported
  | blake2b bits =>
    have text := plainText_append_width "blake2b" (forall_isPlain (by decide)) bits
    exact text ▸ .blake2bWidth (writesNumber_toDigits bits) supported

/-- **Names are read by their grammar.** Of every text one inner text is left between the blanks at
its ends. The name is accepted when this writes an algorithm in lower case, and that algorithm is
read: one whose width its family defines, and whose own name is read as it again. Every other name
is refused as an invalid configuration. -/
theorem ofName_grammar (name : String) :
    ∃ inner, (∀ other, Trims name.toList other ↔ other = inner) ∧
      (∀ a, ofName name = .ok a ↔ Denotes (inner.map Char.toLower) a) ∧
      (∀ a, Denotes (inner.map Char.toLower) a → a.check = .ok () ∧ ofName a.name = .ok a) ∧
      ((∀ a, ¬Denotes (inner.map Char.toLower) a) → ∃ r, ofName name = .error r ∧
        (Error.rejected r).message? = some ("Invalid configuration: " ++ r.reason)) := by
  refine ⟨trim name.toList, fun _ => trims_iff, fun a => ofName_eq_ok_iff, fun a denotes => ?_,
    fun none => ?_⟩
  · have supported := denotes.isSupported
    exact ⟨(check_eq_ok_iff a).2 supported,
      ofName_eq_ok_iff.2 (denotes_plainText_name supported)⟩
  · cases read : ofName name with
    | error r => exact ⟨r, rfl, rfl⟩
    | ok a => exact absurd (ofName_eq_ok_iff.1 read) (none a)

end Algorithm

end BatchDigest
