import ContentAutomata.SchemaError
import ContentAutomata.Text.Blank
import ContentAutomata.Wildcard.NamespaceSet

/-!
# Namespace constraints

A wildcard admits elements by their namespace. Its constraint admits every namespace, every
namespace but the target namespace and the absent one, the namespaces of a list, or all but those
of a list. Having no namespace counts as the empty string throughout.

A constraint is read from the value of a `namespace` or `notNamespace` attribute: a list of tokens
set apart by blanks, where `##local` stands for the empty string and `##targetNamespace` for the
target namespace of the schema (the empty string if it has none). Any other token that begins with
`##` is refused, and so is anything beside `##any` or `##other`, which stand alone.

Results:
* `allows_other`, `allows_listed`, `allows_excluded`: what each form admits;
* `overlaps_comm`: sharing a namespace does not depend on the order of the two constraints.
-/
namespace ContentAutomata

/-- The form of a wildcard's namespace constraint. Mirrors `WildcardKind`. -/
inductive ConstraintKind where
  | any | other | locals | list | exclusion
  deriving DecidableEq, Repr

/-- Which namespaces a wildcard admits. -/
inductive NamespaceConstraint where
  /-- Every namespace, and no namespace. -/
  | any
  /-- Every namespace but the given target namespace; never the absent one. -/
  | other (target : Option String)
  /-- The namespaces of a set. -/
  | listed (spaces : NamespaceSet)
  /-- All namespaces but those of a set. -/
  | excluded (spaces : NamespaceSet)
  deriving DecidableEq, Repr

namespace NamespaceConstraint

/-- The constraint of a wildcard that states none. -/
instance : Inhabited NamespaceConstraint := ⟨any⟩

/-- Admits only elements without a namespace. -/
def locals : NamespaceConstraint := listed (.singleton "")

/-! ## Reading an attribute -/

/-- Whether a token begins with two number signs, as the keywords do. -/
def hasKeywordForm (token : String) : Bool := ['#', '#'].isPrefixOf token.toList

/-- The namespace that a token of an attribute's list stands for. -/
def readToken (attributeName : String) (target : Option String) (token : String) :
    Except SchemaFault String :=
  if token = "##local" then .ok ""
  else if token = "##targetNamespace" then .ok (target.getD "")
  else if hasKeywordForm token then .error (.unknownKeyword token attributeName)
  else .ok token

/-- The namespaces that a list of tokens stands for; the first unknown keyword is refused. -/
def readTokens (attributeName : String) (target : Option String) :
    List String → Except SchemaFault (List String)
  | [] => .ok []
  | t :: ts =>
    match readToken attributeName target t with
    | .error e => .error e
    | .ok x =>
      match readTokens attributeName target ts with
      | .error e => .error e
      | .ok xs => .ok (x :: xs)

/-- The tokens of an attribute's value. -/
def tokens (value : String) : List String := (Text.words value.toList).map String.ofList

/-- The set of namespaces that an attribute's value lists. Mirrors `parse_namespace_list`. -/
def readList (attributeName : String) (target : Option String) (value : String) :
    Except SchemaFault NamespaceSet :=
  (readTokens attributeName target (tokens value)).map .ofList

/-- Reads the value of a `namespace` attribute in a schema with the given target namespace. Mirrors
`from_namespace_attr`. -/
def ofNamespaceAttribute (value : String) (target : Option String) :
    Except SchemaFault NamespaceConstraint :=
  let core := String.ofList (Text.strip value.toList)
  if core = "##any" then .ok any
  else if core = "##other" then .ok (other target)
  else (readList "namespace" target value).map listed

/-- Reads the value of a `notNamespace` attribute in a schema with the given target namespace.
Mirrors `from_not_namespace_attr`. -/
def ofNotNamespaceAttribute (value : String) (target : Option String) :
    Except SchemaFault NamespaceConstraint :=
  (readList "notNamespace" target value).map excluded

/-! ## Admission -/

/-- The form of the constraint; a list that holds just the empty string has a name of its own. -/
def kind : NamespaceConstraint → ConstraintKind
  | any => .any
  | other _ => .other
  | listed spaces => if spaces = .singleton "" then .locals else .list
  | excluded _ => .exclusion

/-- Whether an element in the given namespace is admitted. Mirrors `is_allowed`. -/
def allows (c : NamespaceConstraint) (space : Option String) : Bool :=
  let s := space.getD ""
  match c with
  | any => true
  | other target => s != "" && target != some s
  | listed spaces => spaces.contains s
  | excluded spaces => !spaces.contains s

/-- Whether no namespace at all is admitted because the list is empty. Mirrors `is_void`. -/
def isVoid : NamespaceConstraint → Bool
  | listed spaces => spaces.isEmpty
  | _ => false

/-- Whether two constraints admit a common namespace. Two exclusions always do, since there are
infinitely many namespaces. Mirrors `NamespaceConstraint.overlaps`. -/
def overlaps : NamespaceConstraint → NamespaceConstraint → Bool
  | any, c => !c.isVoid
  | c, any => !c.isVoid
  | listed s, listed t => s.meets t
  | listed s, c => s.items.any fun x => c.allows (some x)
  | c, listed s => s.items.any fun x => c.allows (some x)
  | other _, other _ => true
  | other _, excluded _ => true
  | excluded _, other _ => true
  | excluded _, excluded _ => true

@[simp] theorem allows_any (space : Option String) : any.allows space = true := rfl

theorem allows_other {target space : Option String} :
    (other target).allows space = true ↔ space.getD "" ≠ "" ∧ target ≠ some (space.getD "") := by
  simp [allows]

theorem allows_listed {spaces : NamespaceSet} {space : Option String} :
    (listed spaces).allows space = true ↔ space.getD "" ∈ spaces := by
  simp [allows]

theorem allows_excluded {spaces : NamespaceSet} {space : Option String} :
    (excluded spaces).allows space = true ↔ space.getD "" ∉ spaces := by
  simp [allows, ← NamespaceSet.contains_iff]

theorem meets_comm (s t : NamespaceSet) : s.meets t = t.meets s := by
  rw [Bool.eq_iff_iff, NamespaceSet.meets_iff, NamespaceSet.meets_iff]
  exact exists_congr fun x => and_comm

theorem overlaps_comm (c d : NamespaceConstraint) : c.overlaps d = d.overlaps c := by
  cases c <;> cases d <;> simp [overlaps, isVoid, meets_comm]

/-! ## Written form -/

/-- The members of a set, the empty string written `##local`. -/
def listText (spaces : NamespaceSet) : String :=
  " ".intercalate (spaces.items.map fun s => if s = "" then "##local" else s)

/-- How a constraint is written. -/
def text : NamespaceConstraint → String
  | any => "##any"
  | other (some target) => "##other:" ++ target
  | other none => "##other"
  | listed spaces => listText spaces
  | excluded spaces => "not " ++ listText spaces

end NamespaceConstraint

end ContentAutomata
