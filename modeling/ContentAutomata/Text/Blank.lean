/-!
# Blank characters and the words between them

A namespace attribute is a list of tokens set apart by blank characters. Blank means the Unicode
property White_Space, which is wider than ASCII blank: it takes in the no-break space, the
ideographic space and the two separators U+2028 and U+2029, but not the zero width space and none
of the control characters U+001C to U+001F.

Results:
* `isBlank_of_isWhitespace`: every ASCII blank is blank.
-/
namespace ContentAutomata.Text

/-- Whether a character has the Unicode property White_Space. -/
def isBlank (c : Char) : Bool :=
  let n := c.toNat
  (0x09 ≤ n && n ≤ 0x0D) || n == 0x20 || n == 0x85 || n == 0xA0 || n == 0x1680 ||
    (0x2000 ≤ n && n ≤ 0x200A) || n == 0x2028 || n == 0x2029 || n == 0x202F || n == 0x205F ||
    n == 0x3000

theorem isBlank_of_isWhitespace {c : Char} (h : c.isWhitespace = true) : isBlank c = true := by
  simp only [Char.isWhitespace, Bool.or_eq_true, decide_eq_true_eq] at h
  rcases h with ((rfl | rfl) | rfl) | rfl <;> decide

/-! ## Words -/

/-- Splits at blank characters; `word` holds the characters of the word being read, last first. -/
def splitWords (word : List Char) : List Char → List (List Char)
  | [] => if word.isEmpty then [] else [word.reverse]
  | c :: cs =>
    if isBlank c then
      if word.isEmpty then splitWords [] cs else word.reverse :: splitWords [] cs
    else splitWords (c :: word) cs

/-- The maximal runs of characters that are not blank, in order. -/
def words (cs : List Char) : List (List Char) := splitWords [] cs

/-! ## The core of a text -/

/-- The text without the blank characters at its two ends. -/
def strip (cs : List Char) : List Char :=
  ((cs.dropWhile isBlank).reverse.dropWhile isBlank).reverse

end ContentAutomata.Text
