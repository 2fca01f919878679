/-!
# Scanning JSON text

The settings are the only JSON that is read here, so nothing builds a tree: a scanner takes the characters of a text and
returns what it found together with the characters after it, or nothing where the text breaks the grammar. Values that
nobody asks for are skipped to their end, however deep they are nested.
-/

set_option autoImplicit false

namespace Bytemark.Json

/-- The four characters that may stand between tokens. -/
def isBlank (char : Char) : Bool := char == ' ' || char == '\n' || char == '\t' || char == '\r'

/-- The text from its first token on. -/
def skipBlank (text : List Char) : List Char := text.dropWhile isBlank

/-- The text after a given word. -/
def skipWord? (word : String) (text : List Char) : Option (List Char) :=
  if word.toList.isPrefixOf text then some (text.drop word.length) else none

/-- The text after one or more decimal digits. -/
def skipDigits? (text : List Char) : Option (List Char) :=
  match text with
  | char :: rest => if char.isDigit then some (rest.dropWhile Char.isDigit) else none
  | [] => none

/-- The text after the digits of a whole number, which start with 0 only if they are 0. -/
def skipWhole? (text : List Char) : Option (List Char) :=
  match text with
  | '0' :: rest => if (skipDigits? rest).isNone then some rest else none
  | text => skipDigits? text

/-- The text after a fraction, if there is one. -/
def skipFraction? (text : List Char) : Option (List Char) :=
  match text with
  | '.' :: rest => skipDigits? rest
  | text => some text

/-- The text after an exponent, if there is one. -/
def skipExponent? (text : List Char) : Option (List Char) :=
  let skipSigned (text : List Char) := match text with
    | '+' :: rest => skipDigits? rest
    | '-' :: rest => skipDigits? rest
    | text => skipDigits? text
  match text with
  | 'e' :: rest => skipSigned rest
  | 'E' :: rest => skipSigned rest
  | text => some text

/-- The text after a number. -/
def skipNumber? (text : List Char) : Option (List Char) := do
  let text := match text with
    | '-' :: rest => rest
    | text => text
  skipExponent? (← skipFraction? (← skipWhole? text))

/-- A number written with digits alone, and the text after it. -/
def natural? (text : List Char) : Option (Nat × List Char) := do
  let start := skipBlank text
  let rest ← skipWhole? start
  match rest with
  | '.' :: _ => none
  | 'e' :: _ => none
  | 'E' :: _ => none
  | rest => some (Nat.ofDigitChars 10 (start.takeWhile Char.isDigit) 0, rest)

/-- The value of a hexadecimal digit. -/
def hexDigit? (char : Char) : Option Nat :=
  if '0' ≤ char ∧ char ≤ '9' then some (char.toNat - 48)
  else if 'a' ≤ char ∧ char ≤ 'f' then some (char.toNat - 87)
  else if 'A' ≤ char ∧ char ≤ 'F' then some (char.toNat - 55)
  else none

/-- The number of four hexadecimal digits, and the text after them. -/
def hex4? (text : List Char) : Option (Nat × List Char) :=
  match text with
  | a :: b :: c :: d :: rest => do
    some (((← hexDigit? a) * 16 + (← hexDigit? b)) * 256 + (← hexDigit? c) * 16 + (← hexDigit? d), rest)
  | _ => none

/-- The character of a `u` escape, and the text after it. A code point past 16 bits takes two escapes in a row, the
halves of a surrogate pair; a half alone is no character. -/
def unicodeEscape? (text : List Char) : Option (Char × List Char) := do
  let (code, rest) ← hex4? text
  if code < 0xD800 ∨ 0xE000 ≤ code then
    some (Char.ofNat code, rest)
  else if 0xDC00 ≤ code then
    none
  else
    match rest with
    | '\\' :: 'u' :: rest => do
      let (low, rest) ← hex4? rest
      if 0xDC00 ≤ low ∧ low < 0xE000 then
        some (Char.ofNat (0x10000 + (code - 0xD800) * 0x400 + (low - 0xDC00)), rest)
      else
        none
    | _ => none

/-- The character of an escape, given what follows the backslash, and the text after it. -/
def escape? (text : List Char) : Option (Char × List Char) :=
  match text with
  | '"' :: rest => some ('"', rest)
  | '\\' :: rest => some ('\\', rest)
  | '/' :: rest => some ('/', rest)
  | 'b' :: rest => some (Char.ofNat 8, rest)
  | 'f' :: rest => some (Char.ofNat 12, rest)
  | 'n' :: rest => some ('\n', rest)
  | 'r' :: rest => some ('\r', rest)
  | 't' :: rest => some ('\t', rest)
  | 'u' :: rest => unicodeEscape? rest
  | _ => none

/-- The text after an escape that nobody decodes: a `u` escape may be half a character. -/
def skipEscape? (text : List Char) : Option (List Char) :=
  match text with
  | 'u' :: rest => (hex4? rest).map fun found => found.2
  | text => (escape? text).map fun found => found.2

/-- The rest of a string whose first quote and the characters of `done`, last first, are behind. -/
def stringFrom? : (bound : Nat) → (done : List Char) → List Char → Option (String × List Char)
  | 0, _, _ => none
  | _ + 1, _, [] => none
  | _ + 1, done, '"' :: rest => some (String.ofList done.reverse, rest)
  | bound + 1, done, '\\' :: rest => do
    let (char, rest) ← escape? rest
    stringFrom? bound (char :: done) rest
  | bound + 1, done, char :: rest =>
    if char.toNat < 0x20 then none else stringFrom? bound (char :: done) rest

/-- A string, and the text after it. -/
def string? (text : List Char) : Option (String × List Char) :=
  match text with
  | '"' :: rest => stringFrom? text.length [] rest
  | _ => none

/-- The text after a string whose first quote is behind. -/
def skipStringFrom? : (bound : Nat) → List Char → Option (List Char)
  | 0, _ => none
  | _ + 1, [] => none
  | _ + 1, '"' :: rest => some rest
  | bound + 1, '\\' :: rest => do skipStringFrom? bound (← skipEscape? rest)
  | bound + 1, char :: rest => if char.toNat < 0x20 then none else skipStringFrom? bound rest

/-- The text after a string that nobody decodes. -/
def skipString? (text : List Char) : Option (List Char) :=
  match text with
  | '"' :: rest => skipStringFrom? text.length rest
  | _ => none

/-- The text after the colon of a member. -/
def skipColon? (text : List Char) : Option (List Char) :=
  match skipBlank text with
  | ':' :: rest => some rest
  | _ => none

/-- The text after the key and the colon of a member. -/
def skipKey? (text : List Char) : Option (List Char) := do
  skipColon? (← skipString? (skipBlank text))

/-- The text after a value without parts. -/
def skipScalar? (text : List Char) : Option (List Char) :=
  match text with
  | '"' :: _ => skipString? text
  | 'n' :: _ => skipWord? "null" text
  | 't' :: _ => skipWord? "true" text
  | 'f' :: _ => skipWord? "false" text
  | text => skipNumber? text

/-- What a scanner stands in. -/
inductive Bracket
  | array | object

/-- Where a scanner stands: before a value, or after one. -/
inductive Place
  | value | after

/-- The text after the outermost value. Each step takes a character, the last one aside. -/
def skipFrom? : (bound : Nat) → Place → List Bracket → List Char → Option (List Char)
  | 0, _, _, _ => none
  | bound + 1, .value, nesting, text =>
    match skipBlank text with
    | '[' :: rest =>
      match skipBlank rest with
      | ']' :: rest => skipFrom? bound .after nesting rest
      | rest => skipFrom? bound .value (.array :: nesting) rest
    | '{' :: rest =>
      match skipBlank rest with
      | '}' :: rest => skipFrom? bound .after nesting rest
      | rest => do skipFrom? bound .value (.object :: nesting) (← skipKey? rest)
    | text => do skipFrom? bound .after nesting (← skipScalar? text)
  | _ + 1, .after, [], text => some text
  | bound + 1, .after, bracket :: nesting, text =>
    match bracket, skipBlank text with
    | .array, ',' :: rest => skipFrom? bound .value (.array :: nesting) rest
    | .array, ']' :: rest => skipFrom? bound .after nesting rest
    | .object, ',' :: rest => do skipFrom? bound .value (.object :: nesting) (← skipKey? rest)
    | .object, '}' :: rest => skipFrom? bound .after nesting rest
    | _, _ => none

/-- The text after a value. -/
def skipValue? (text : List Char) : Option (List Char) := skipFrom? (text.length + 1) .value [] text

/-- Folds the members of an object whose brace is behind, at most `bound` of them; `member` reads a value. -/
def membersFrom? {α : Type} (member : String → α → List Char → Option (α × List Char)) :
    (bound : Nat) → α → List Char → Option (α × List Char)
  | 0, _, _ => none
  | bound + 1, found, text => do
    let (key, rest) ← string? (skipBlank text)
    let (found, rest) ← member key found (← skipColon? rest)
    match skipBlank rest with
    | ',' :: rest => membersFrom? member bound found rest
    | '}' :: rest => some (found, rest)
    | _ => none

/-- Folds the members of an object whose brace is behind. -/
def members? {α : Type} (member : String → α → List Char → Option (α × List Char)) (start : α)
    (text : List Char) : Option (α × List Char) :=
  match skipBlank text with
  | '}' :: rest => some (start, rest)
  | text => membersFrom? member text.length start text

/-- Folds the items of an array, at most `bound` of them, from the one at `place` on. -/
def itemsFrom? {α : Type} (item : Nat → α → List Char → Option (α × List Char)) :
    (bound place : Nat) → α → List Char → Option (α × List Char)
  | 0, _, _, _ => none
  | bound + 1, place, found, text => do
    let (found, rest) ← item place found text
    match skipBlank rest with
    | ',' :: rest => itemsFrom? item bound (place + 1) found rest
    | ']' :: rest => some (found, rest)
    | _ => none

/-- Folds the items of an array whose bracket is behind; `item` reads the item at a place. -/
def items? {α : Type} (item : Nat → α → List Char → Option (α × List Char)) (start : α)
    (text : List Char) : Option (α × List Char) :=
  match skipBlank text with
  | ']' :: rest => some (start, rest)
  | text => itemsFrom? item text.length 0 start text

end Bytemark.Json
