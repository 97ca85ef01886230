/-!
# The tokens of JSON documents

A document is cut into marks, words, numbers and strings. Blanks between them are the four of the
standard; there are no comments, and no byte order mark is taken for a blank.

Two things are kept apart that a reader of values needs apart. A number is a natural number written
in digits alone, or some other number. A string is a text, unless it holds half of a surrogate pair
on its own, which the standard allows and which is no text.

All readers here are loops, so the length of a document is not limited by the depth of a recursion.

Results:
* `readDigits_ne_nil`, `append_of_readDigits`: what is read as digits is one digit or more, and
  nothing is lost.
-/
namespace ContentAutomata.Json

/-- A token of a document. -/
inductive Token where
  | openList | closeList
  | openObject | closeObject
  | comma | colon
  | null
  | bool (value : Bool)
  /-- A number written in digits alone. -/
  | natural (value : Nat)
  /-- Any other number. -/
  | number
  /-- A string; `none` if it holds half of a surrogate pair on its own. -/
  | string (value : Option String)
  deriving DecidableEq, Repr

namespace Token

/-- What is left of a text is read from the front: a value and the rest. -/
abbrev Reader (α : Type) := List Char → Option (α × List Char)

/-- Whether a character may stand between tokens. -/
def isBlank (c : Char) : Bool := c == ' ' || c == '\t' || c == '\n' || c == '\r'

/-! ## Strings -/

/-- The value of a hexadecimal digit. -/
def hexDigit? (c : Char) : Option Nat :=
  let n := c.toNat
  if 0x30 ≤ n ∧ n ≤ 0x39 then some (n - 0x30)
  else if 0x41 ≤ n ∧ n ≤ 0x46 then some (n - 0x41 + 10)
  else if 0x61 ≤ n ∧ n ≤ 0x66 then some (n - 0x61 + 10)
  else none

/-- The value of four hexadecimal digits. -/
def hexUnit? (a b c d : Char) : Option Nat := do
  return ((← hexDigit? a) * 16 + (← hexDigit? b)) * 256 + (← hexDigit? c) * 16 + (← hexDigit? d)

/-- The code of the character that a one-letter escape stands for. -/
def escape? : Char → Option Nat
  | '"' => some 0x22
  | '\\' => some 0x5C
  | '/' => some 0x2F
  | 'b' => some 0x08
  | 'f' => some 0x0C
  | 'n' => some 0x0A
  | 'r' => some 0x0D
  | 't' => some 0x09
  | _ => none

/-- Reads the rest of a string after its opening quote, the codes of whose first characters are
`done`, last one first: all codes, last one first, where an escape by number gives the number as it
stands. -/
def readCodes (done : List Nat) : Reader (List Nat)
  | [] => none
  | '"' :: cs => some (done, cs)
  | '\\' :: 'u' :: a :: b :: c :: d :: cs =>
    match hexUnit? a b c d with
    | some code => readCodes (code :: done) cs
    | none => none
  | '\\' :: e :: cs =>
    match escape? e with
    | some code => readCodes (code :: done) cs
    | none => none
  | c :: cs =>
    if c.toNat < 0x20 ∨ c = '\\' then none
    else readCodes (c.toNat :: done) cs

/-- Whether a code is the first half of a surrogate pair. -/
def isHighSurrogate (code : Nat) : Bool := 0xD800 ≤ code && code ≤ 0xDBFF

/-- Whether a code is the second half of a surrogate pair. -/
def isLowSurrogate (code : Nat) : Bool := 0xDC00 ≤ code && code ≤ 0xDFFF

/-- The characters that codes stand for, given last one first, in front of `rest`; the halves of a
pair are taken together, and there is no answer if a half stands on its own. -/
def charsOfCodes (rest : List Char) : List Nat → Option (List Char)
  | [] => some rest
  | low :: high :: codes =>
    if isLowSurrogate low then
      if isHighSurrogate high then
        charsOfCodes (Char.ofNat (0x10000 + (high - 0xD800) * 0x400 + (low - 0xDC00)) :: rest) codes
      else none
    else if isHighSurrogate low then none
    else charsOfCodes (Char.ofNat low :: rest) (high :: codes)
  | [code] =>
    if isHighSurrogate code || isLowSurrogate code then none else some (Char.ofNat code :: rest)

/-- Reads the rest of a string after its opening quote. -/
def readString : Reader Token := fun cs =>
  (readCodes [] cs).map fun (codes, cs) => (string ((charsOfCodes [] codes).map String.ofList), cs)

/-! ## Numbers -/

/-- Reads one or more digits. -/
def readDigits : Reader (List Char) := fun cs =>
  match cs.takeWhile Char.isDigit with
  | [] => none
  | d :: ds => some (d :: ds, cs.dropWhile Char.isDigit)

theorem readDigits_ne_nil {cs ds rest : List Char} (h : readDigits cs = some (ds, rest)) :
    ds ≠ [] := by
  unfold readDigits at h
  split at h
  · cases h
  · cases h
    exact List.cons_ne_nil _ _

theorem append_of_readDigits {cs ds rest : List Char} (h : readDigits cs = some (ds, rest)) :
    cs = ds ++ rest ∧ ∀ d ∈ ds, d.isDigit = true := by
  unfold readDigits at h
  split at h
  · cases h
  · rename_i d ds' hd
    cases h
    rw [← hd]
    exact ⟨List.takeWhile_append_dropWhile.symm, List.all_eq_true.1 List.all_takeWhile⟩

/-- The number written in digits. -/
def naturalOfDigits (ds : List Char) : Nat := ds.foldl (fun n d => n * 10 + (d.toNat - 48)) 0

/-- Reads the digits after a point, if there is one; whether there was. -/
def readFraction : Reader Bool
  | '.' :: cs => (readDigits cs).map fun (_, cs) => (true, cs)
  | cs => some (false, cs)

/-- Passes over a sign. -/
def skipSign : List Char → List Char
  | '+' :: cs => cs
  | '-' :: cs => cs
  | cs => cs

/-- Reads an exponent, if there is one; whether there was. -/
def readExponent : Reader Bool
  | c :: cs =>
    if c = 'e' ∨ c = 'E' then (readDigits (skipSign cs)).map fun (_, cs) => (true, cs)
    else some (false, c :: cs)
  | [] => some (false, [])

/-- Reads a number without a sign. Its integral part has no leading zero. -/
def readUnsigned : Reader Token := fun cs => do
  let (ds, cs) ← readDigits cs
  if ds.head? = some '0' ∧ ds.length ≠ 1 then none
  else
    let (hasFraction, cs) ← readFraction cs
    let (hasExponent, cs) ← readExponent cs
    return (if hasFraction || hasExponent then number else natural (naturalOfDigits ds), cs)

/-- Reads a number. -/
def readNumber : Reader Token
  | '-' :: cs => (readUnsigned cs).map fun (_, cs) => (number, cs)
  | cs => readUnsigned cs

/-! ## Whole documents -/

/-- Reads the rest of a word. -/
def readWord (word : List Char) (token : Token) : Reader Token := fun cs =>
  if word.isPrefixOf cs then some (token, cs.drop word.length) else none

/-- Reads a token that begins with the first character. -/
def read : Reader Token
  | '[' :: cs => some (openList, cs)
  | ']' :: cs => some (closeList, cs)
  | '\x7b' :: cs => some (openObject, cs)
  | '\x7d' :: cs => some (closeObject, cs)
  | ',' :: cs => some (comma, cs)
  | ':' :: cs => some (colon, cs)
  | '"' :: cs => readString cs
  | 'n' :: cs => readWord "ull".toList null cs
  | 't' :: cs => readWord "rue".toList (bool true) cs
  | 'f' :: cs => readWord "alse".toList (bool false) cs
  | cs => readNumber cs

/-- Reads all tokens, of which the first ones are `done`, last one first: all of them, last one
first. There are at most `fuel` more characters. -/
def scan : (fuel : Nat) → (done : List Token) → List Char → Option (List Token)
  | _, done, [] => some done
  | 0, _, _ :: _ => none
  | fuel + 1, done, c :: cs =>
    if isBlank c then scan fuel done cs
    else
      match read (c :: cs) with
      | some (token, cs) => scan fuel (token :: done) cs
      | none => none

/-- The tokens of a document, in order. Every step of the scan takes at least one character. -/
def ofText? (text : String) : Option (List Token) :=
  let cs := text.toList
  (scan cs.length [] cs).map List.reverse

end Token

end ContentAutomata.Json
