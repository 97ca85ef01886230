import ContentAutomata.Document.Token

/-!
# Reading JSON documents

A strict reader of documents from their tokens: no trailing commas, nothing after the value. It
reports only whether a document is well formed, not where it is not.

The reader keeps what has been read so far (`Reading`) and takes one token after the other, so lists
and objects may nest to any depth. A `Frame` is a list or an object around the value that is read,
with the part of it that comes before.

Fields of an object are kept in order, with repetitions.

Results:
* `run_none`: a token that does not fit is not made good by later ones;
* `run_finished`: a document ends with its value.
-/
namespace ContentAutomata

/-- A JSON value. -/
inductive Json where
  | null
  | bool (value : Bool)
  /-- A number written in digits alone. -/
  | natural (value : Nat)
  /-- Any other number. -/
  | number
  /-- A string; `none` if it holds half of a surrogate pair on its own. -/
  | string (value : Option String)
  | list (items : List Json)
  | object (fields : List (Option String × Json))
  deriving Repr, Inhabited

namespace Json

/-- A list or an object around a value, up to that value; what comes before is in reverse. -/
inductive Frame where
  | item (before : List Json)
  | field (before : List (Option String × Json)) (key : Option String)

/-- What has been read of a document, and so what may come next. The frames are those around the
next value, innermost first. -/
inductive Reading where
  /-- A value. -/
  | value (frames : List Frame)
  /-- A value or the end of a list that was just opened. -/
  | firstItem (frames : List Frame)
  /-- A comma or the end of a list with these items. -/
  | afterItem (items : List Json) (frames : List Frame)
  /-- A key or the end of an object that was just opened. -/
  | firstKey (frames : List Frame)
  /-- Another key, after these fields. -/
  | nextKey (fields : List (Option String × Json)) (frames : List Frame)
  /-- A colon, after a key. -/
  | afterKey (fields : List (Option String × Json)) (key : Option String) (frames : List Frame)
  /-- A comma or the end of an object with these fields. -/
  | afterField (fields : List (Option String × Json)) (frames : List Frame)
  /-- Nothing. -/
  | finished (value : Json)

namespace Reading

/-- What comes after a value. -/
def complete (value : Json) : List Frame → Reading
  | [] => finished value
  | .item before :: frames => afterItem (value :: before) frames
  | .field before key :: frames => afterField ((key, value) :: before) frames

/-- Takes the first token of a value. -/
def start (frames : List Frame) : Token → Option Reading
  | .null => some (complete null frames)
  | .bool b => some (complete (bool b) frames)
  | .natural n => some (complete (natural n) frames)
  | .number => some (complete number frames)
  | .string s => some (complete (string s) frames)
  | .openList => some (firstItem frames)
  | .openObject => some (firstKey frames)
  | _ => none

/-- Takes a token. -/
def step : Reading → Token → Option Reading
  | value frames, token => start frames token
  | firstItem frames, .closeList => some (complete (list []) frames)
  | firstItem frames, token => start (.item [] :: frames) token
  | afterItem items frames, .comma => some (value (.item items :: frames))
  | afterItem items frames, .closeList => some (complete (list items.reverse) frames)
  | firstKey frames, .closeObject => some (complete (object []) frames)
  | firstKey frames, .string key => some (afterKey [] key frames)
  | nextKey fields frames, .string key => some (afterKey fields key frames)
  | afterKey fields key frames, .colon => some (value (.field fields key :: frames))
  | afterField fields frames, .comma => some (nextKey fields frames)
  | afterField fields frames, .closeObject => some (complete (object fields.reverse) frames)
  | _, _ => none

/-- Takes tokens one after the other, as long as they fit. -/
def run (r : Option Reading) (tokens : List Token) : Option Reading :=
  tokens.foldl (fun r token => r.bind (·.step token)) r

theorem run_none (tokens : List Token) : run none tokens = none := by
  induction tokens with
  | nil => rfl
  | cons t ts ih => exact ih

theorem run_finished (v : Json) (token : Token) (tokens : List Token) :
    run (some (finished v)) (token :: tokens) = none := run_none tokens

end Reading

/-- The value that tokens are the whole of. -/
def ofTokens? (tokens : List Token) : Option Json :=
  match Reading.run (some (.value [])) tokens with
  | some (.finished v) => some v
  | _ => none

/-- The value of a whole document. -/
def ofText? (text : String) : Option Json := (Token.ofText? text).bind ofTokens?

end Json

end ContentAutomata
