import ContentAutomata.Builder

/-!
# Complex types

Of a complex type only what its children are validated against matters here: the kind of its
content and its particle. A type compiles its content model when it is first asked for it and keeps
the answer, one for each purpose. Only a failure is not kept.

An exact model that was compiled to find ambiguities serves for validation as well, and is kept for
it unless there is an answer already. An approximate one never is.

Results:
* `contentModel_of_cached`: an answer that was kept is given again, and nothing is compiled;
* `contentModel_failed`: a failure changes nothing about the type.
-/
namespace ContentAutomata

/-- What an element may contain. Mirrors `ContentTypeLabel`. -/
inductive ContentKind where
  /-- Nothing. -/
  | empty
  /-- Text. -/
  | simple
  /-- Elements. -/
  | elementOnly
  /-- Elements and text. -/
  | mixed
  deriving DecidableEq, Repr

namespace ContentKind

/-- Whether elements may be contained. Mirrors `has_particles`. -/
def hasParticles : ContentKind → Bool
  | elementOnly => true
  | mixed => true
  | _ => false

/-- How a kind of content is written. -/
def text : ContentKind → String
  | empty => "empty"
  | simple => "simple"
  | elementOnly => "element-only"
  | mixed => "mixed"

end ContentKind

/-- A complex type and the content models it keeps. Mirrors `XsdComplexType`. -/
structure ComplexType where
  name : Option Name
  content : ContentKind
  particle : Option Particle
  /-- The answer kept for validation, if there is one; a type without elements has no model. -/
  forValidation : Option (Option Model)
  /-- The answer kept for finding ambiguities, if there is one. -/
  forAttribution : Option (Option Model)

namespace ComplexType

/-- A type that keeps no model yet. Mirrors `XsdComplexType.new`. -/
def new (name : Option Name) (content : ContentKind) (particle : Option Particle) : ComplexType :=
  ⟨name, content, particle, none, none⟩

/-- The type without a name and without content. -/
def default : ComplexType := new none .empty none

instance : Inhabited ComplexType := ⟨default⟩

/-- What comes of asking a type for its content model. -/
structure Reply where
  /-- The model, if elements are allowed. -/
  model : Except Error (Option Model)
  /-- The type afterwards. -/
  type : ComplexType
  /-- The builder afterwards. -/
  builder : Builder
  /-- What compiling the particle came to, if it was compiled. -/
  compiled : Option (Except Error Compilation)

/-- What is said while a type is asked, up to the given level of detail. -/
def Reply.journal (level : Level) (reply : Reply) : List Event :=
  match reply.compiled with
  | some outcome => Builder.buildJournal level (outcome, reply.builder)
  | none => []

/-- The content model of a type, compiled whatever is kept. Mirrors `CmBuilder.content_model`. -/
def compile (t : ComplexType) (b : Builder) (purpose : Purpose) : Reply :=
  if t.content.hasParticles then
    match t.particle with
    | some p =>
      let (outcome, b) := b.build p purpose
      ⟨outcome.map fun c => some c.model, t, b, some outcome⟩
    | none => ⟨.ok (some .empty), t, b, none⟩
  else ⟨.ok none, t, b, none⟩

/-- The answer kept for a purpose. -/
def cached (t : ComplexType) : Purpose → Option (Option Model)
  | .validation => t.forValidation
  | .attribution => t.forAttribution

/-- Keeps an answer for validation, unless there is one. -/
def publish (t : ComplexType) (model : Option Model) : ComplexType :=
  match t.forValidation with
  | some _ => t
  | none => { t with forValidation := some model }

/-- Whether an answer given for finding ambiguities serves for validation too. -/
def isExact (model : Option Model) : Bool := !model.any Model.isApproximate

/-- Keeps an answer given for a purpose. -/
def keep (t : ComplexType) (purpose : Purpose) (model : Option Model) : ComplexType :=
  match purpose with
  | .validation => { t with forValidation := some model }
  | .attribution => { t with forAttribution := some model }

/-- Publishes an answer given for finding ambiguities, if it serves for validation too. -/
def publishExact (t : ComplexType) (purpose : Purpose) (model : Option Model) : ComplexType :=
  match purpose with
  | .validation => t
  | .attribution => if isExact model then t.publish model else t

/-- The content model of a type, which is compiled unless an answer is kept. Mirrors
`XsdComplexType.content_model`. -/
def contentModel (t : ComplexType) (b : Builder) (purpose : Purpose) : Reply :=
  match t.cached purpose with
  | some model => ⟨.ok model, t.publishExact purpose model, b, none⟩
  | none =>
    let reply := t.compile b purpose
    match reply.model with
    | .ok model => { reply with type := (t.keep purpose model).publishExact purpose model }
    | .error _ => reply

/-- The model kept for validation, if there is one. Mirrors `cached_content_model`. -/
def cachedModel (t : ComplexType) : Option Model := t.forValidation.join

theorem compile_type (t : ComplexType) (b : Builder) (purpose : Purpose) :
    (t.compile b purpose).type = t := by
  unfold compile
  split
  · split <;> rfl
  · rfl

theorem contentModel_of_cached {t : ComplexType} {purpose : Purpose} {model : Option Model}
    (h : t.cached purpose = some model) (b : Builder) :
    (t.contentModel b purpose).model = .ok model ∧ (t.contentModel b purpose).compiled = none ∧
      (t.contentModel b purpose).builder = b := by
  simp [contentModel, h]

theorem contentModel_failed {t : ComplexType} {b : Builder} {purpose : Purpose} {e : Error}
    (h : (t.contentModel b purpose).model = .error e) :
    (t.contentModel b purpose).type = t := by
  unfold contentModel at h ⊢
  split
  · rename_i h'
    simp [h'] at h
  · rename_i h'
    simp only [h'] at h
    dsimp only
    split
    · rename_i h''
      simp [h''] at h
    · exact compile_type t b purpose

end ComplexType

end ContentAutomata
