import ContentAutomata.Proofs.Text.Separation
import ContentAutomata.Wildcard.Constraint

/-!
# What a namespace attribute says

The value of a namespace attribute is read token by token, and reading stops at the first token that
a list may not hold. So an attribute is refused exactly if there is such a token (`IsForeign`), and
the refusal names the first one. Otherwise its tokens denote namespaces one by one (`denoted`), and
the constraint that comes out admits those, or all but those. Two keywords are no tokens of a list:
`##any` and `##other` have to stand alone.

A set of namespaces does not know in what order its members were listed, or how often. So neither
matters, and neither do blanks around the list.

Results:
* `readTokens_eq_ok_iff`, `namesFirst_of_readTokens`: what a list of tokens comes to;
* `allows_ofNamespaceAttribute_iff`, `allows_ofNotNamespaceAttribute_iff`: what is admitted;
* `ofNamespaceAttribute_congr`, `ofNamespaceAttribute_pad`: what does not matter;
* `attribute_exactly`: all this of both attributes.
-/
namespace ContentAutomata.NamespaceConstraint

variable {value value' : String} {target : Option String}

/-- A token that begins with two number signs, and is neither of the keywords that a list may
hold. -/
def IsForeign (token : String) : Prop :=
  "##".toList <+: token.toList ∧ token ≠ "##local" ∧ token ≠ "##targetNamespace"

/-- The namespace that a token stands for, the empty string for none. -/
def denoted (target : Option String) (token : String) : String :=
  if token = "##local" then ""
  else if token = "##targetNamespace" then target.getD ""
  else token

/-- The value of an attribute without the blanks around it. -/
def core (value : String) : String := String.ofList (Text.strip value.toList)

/-- The fault is that of the first foreign token, and names it and the attribute. -/
def NamesFirst (attributeName : String) (ts : List String) (e : SchemaFault) : Prop :=
  ∃ before token after, ts = before ++ token :: after ∧ (∀ t ∈ before, ¬ IsForeign t) ∧
    IsForeign token ∧ e.message = "wrong value '" ++ token ++ "' in '" ++ attributeName ++
      "' attribute"

/-! ## Reading a list of tokens -/

theorem separates_tokens (value : String) :
    Text.Separates value.toList ((tokens value).map String.toList) := by
  rw [Text.separates_iff, tokens, List.map_map]
  exact (List.map_congr_left fun w _ => String.toList_ofList).trans (List.map_id _)

theorem isCore_core (value : String) : Text.IsCore value.toList (core value).toList := by
  rw [Text.isCore_iff, core, String.toList_ofList]

theorem hasKeywordForm_iff {token : String} :
    hasKeywordForm token = true ↔ "##".toList <+: token.toList :=
  List.isPrefixOf_iff_prefix

/-- A token is refused if it is foreign, and otherwise stands for a namespace. -/
theorem readToken_cases (attributeName : String) (target : Option String) (token : String) :
    (¬ IsForeign token ∧ readToken attributeName target token = .ok (denoted target token)) ∨
      (IsForeign token ∧
        readToken attributeName target token = .error (.unknownKeyword token attributeName)) := by
  unfold readToken denoted
  split
  · rename_i h
    exact .inl ⟨fun hf => hf.2.1 h, rfl⟩
  split
  · rename_i h
    exact .inl ⟨fun hf => hf.2.2 h, rfl⟩
  rename_i hlocal htarget
  split
  · rename_i h
    exact .inr ⟨⟨hasKeywordForm_iff.1 h, hlocal, htarget⟩, rfl⟩
  · rename_i h
    exact .inl ⟨fun hf => h (hasKeywordForm_iff.2 hf.1), rfl⟩

/-- Reading a list either gives what all its tokens denote, or stops at the first foreign one. -/
theorem readTokens_cases (attributeName : String) (target : Option String) (ts : List String) :
    ((∀ t ∈ ts, ¬ IsForeign t) ∧
        readTokens attributeName target ts = .ok (ts.map (denoted target))) ∨
      ∃ before token after, ts = before ++ token :: after ∧ (∀ t ∈ before, ¬ IsForeign t) ∧
        IsForeign token ∧
        readTokens attributeName target ts = .error (.unknownKeyword token attributeName) := by
  induction ts with
  | nil => exact .inl ⟨by simp, rfl⟩
  | cons t ts ih =>
    rcases readToken_cases attributeName target t with ⟨ht, hread⟩ | ⟨ht, hread⟩
    · rcases ih with ⟨hts, hrest⟩ | ⟨before, token, after, rfl, hbefore, htoken, hrest⟩
      · exact .inl ⟨List.forall_mem_cons.2 ⟨ht, hts⟩, by simp [readTokens, hread, hrest]⟩
      · exact .inr ⟨t :: before, token, after, rfl, List.forall_mem_cons.2 ⟨ht, hbefore⟩, htoken,
          by simp [readTokens, hread, hrest]⟩
    · exact .inr ⟨[], t, ts, rfl, by simp, ht, by simp [readTokens, hread]⟩

theorem readTokens_eq_ok_iff {attributeName : String} {ts xs : List String} :
    readTokens attributeName target ts = .ok xs ↔
      (∀ t ∈ ts, ¬ IsForeign t) ∧ xs = ts.map (denoted target) := by
  rcases readTokens_cases attributeName target ts with
    ⟨hts, hread⟩ | ⟨before, token, after, rfl, -, htoken, hread⟩
  · rw [hread, Except.ok.injEq, and_iff_right hts, eq_comm]
  · rw [hread]
    exact iff_of_false (by simp) fun h => h.1 token (by simp) htoken

theorem namesFirst_of_readTokens {attributeName : String} {ts : List String} {e : SchemaFault}
    (h : readTokens attributeName target ts = .error e) : NamesFirst attributeName ts e := by
  rcases readTokens_cases attributeName target ts with
    ⟨-, hread⟩ | ⟨before, token, after, hts, hbefore, htoken, hread⟩
  · cases h.symm.trans hread
  · cases h.symm.trans hread
    exact ⟨before, token, after, hts, hbefore, htoken, rfl⟩

/-! ## Reading an attribute -/

/-- What can only come to one value comes to its image. -/
theorem map_eq_ok_iff {α β : Type} {P : Prop} {f : α → β} {x : Except SchemaFault α} {a : α} {b : β}
    (h : ∀ a', x = .ok a' ↔ P ∧ a' = a) : x.map f = .ok b ↔ P ∧ b = f a := by
  cases x with
  | error e =>
    have hP : ¬ P := fun hP => nomatch (h a).2 ⟨hP, rfl⟩
    simp [Except.map, hP]
  | ok a' =>
    obtain ⟨hP, rfl⟩ := (h a').1 rfl
    simp [Except.map, hP, eq_comm]

theorem map_eq_error_iff {α β : Type} {f : α → β} {x : Except SchemaFault α} {e : SchemaFault} :
    x.map f = .error e ↔ x = .error e := by
  cases x <;> simp [Except.map]

/-- The set of namespaces that the tokens of an attribute denote. -/
def denotedSet (value : String) (target : Option String) : NamespaceSet :=
  .ofList ((tokens value).map (denoted target))

theorem mem_denotedSet {space : String} :
    space ∈ denotedSet value target ↔ ∃ t ∈ tokens value, denoted target t = space := by
  rw [denotedSet, NamespaceSet.mem_ofList, List.mem_map]

theorem readList_eq_ok_iff {attributeName : String} {spaces : NamespaceSet} :
    readList attributeName target value = .ok spaces ↔
      (∀ t ∈ tokens value, ¬ IsForeign t) ∧ spaces = denotedSet value target :=
  map_eq_ok_iff fun _ => readTokens_eq_ok_iff

theorem map_readList_eq_ok_iff {attributeName : String}
    {f : NamespaceSet → NamespaceConstraint} {c : NamespaceConstraint} :
    (readList attributeName target value).map f = .ok c ↔
      (∀ t ∈ tokens value, ¬ IsForeign t) ∧ c = f (denotedSet value target) :=
  map_eq_ok_iff fun _ => readList_eq_ok_iff

theorem namesFirst_of_map_readList {attributeName : String}
    {f : NamespaceSet → NamespaceConstraint} {e : SchemaFault}
    (h : (readList attributeName target value).map f = .error e) :
    NamesFirst attributeName (tokens value) e := by
  rw [readList, map_eq_error_iff, map_eq_error_iff] at h
  exact namesFirst_of_readTokens h

theorem ofNotNamespaceAttribute_eq_ok_iff {c : NamespaceConstraint} :
    ofNotNamespaceAttribute value target = .ok c ↔
      (∀ t ∈ tokens value, ¬ IsForeign t) ∧ c = excluded (denotedSet value target) :=
  map_readList_eq_ok_iff

/-- The three ways to read a `namespace` attribute. -/
theorem ofNamespaceAttribute_eq (value : String) (target : Option String) :
    ofNamespaceAttribute value target =
      if core value = "##any" then .ok any
      else if core value = "##other" then .ok (other target)
      else (readList "namespace" target value).map listed := rfl

theorem ofNamespaceAttribute_eq_ok_iff {c : NamespaceConstraint} :
    ofNamespaceAttribute value target = .ok c ↔
      (core value = "##any" ∧ c = any) ∨ (core value = "##other" ∧ c = other target) ∨
        (core value ≠ "##any" ∧ core value ≠ "##other" ∧ (∀ t ∈ tokens value, ¬ IsForeign t) ∧
          c = listed (denotedSet value target)) := by
  rw [ofNamespaceAttribute_eq]
  split
  · rename_i h
    simp [h, eq_comm]
  split
  · rename_i h
    simp [h, eq_comm]
  · rename_i hany hother
    rw [map_readList_eq_ok_iff]
    simp [hany, hother]

theorem namesFirst_of_ofNotNamespaceAttribute {e : SchemaFault}
    (h : ofNotNamespaceAttribute value target = .error e) :
    NamesFirst "notNamespace" (tokens value) e :=
  namesFirst_of_map_readList h

theorem namesFirst_of_ofNamespaceAttribute {e : SchemaFault}
    (h : ofNamespaceAttribute value target = .error e) :
    NamesFirst "namespace" (tokens value) e := by
  rw [ofNamespaceAttribute_eq] at h
  split at h
  · cases h
  split at h
  · cases h
  · exact namesFirst_of_map_readList h

/-- A `namespace` attribute can be read if it is a keyword that stands alone, or lists no foreign
token. -/
theorem exists_ofNamespaceAttribute_iff :
    (∃ c, ofNamespaceAttribute value target = .ok c) ↔
      core value = "##any" ∨ core value = "##other" ∨ ∀ t ∈ tokens value, ¬ IsForeign t := by
  constructor
  · intro h
    obtain ⟨c, hc⟩ := h
    rcases ofNamespaceAttribute_eq_ok_iff.1 hc with hany | hother | ⟨-, -, hts, -⟩
    · exact .inl hany.1
    · exact .inr (.inl hother.1)
    · exact .inr (.inr hts)
  · intro h
    by_cases hany : core value = "##any"
    · exact ⟨_, ofNamespaceAttribute_eq_ok_iff.2 (.inl ⟨hany, rfl⟩)⟩
    by_cases hother : core value = "##other"
    · exact ⟨_, ofNamespaceAttribute_eq_ok_iff.2 (.inr (.inl ⟨hother, rfl⟩))⟩
    · have hts := (h.resolve_left hany).resolve_left hother
      exact ⟨_, ofNamespaceAttribute_eq_ok_iff.2 (.inr (.inr ⟨hany, hother, hts, rfl⟩))⟩

theorem exists_ofNotNamespaceAttribute_iff :
    (∃ c, ofNotNamespaceAttribute value target = .ok c) ↔ ∀ t ∈ tokens value, ¬ IsForeign t := by
  simp only [ofNotNamespaceAttribute_eq_ok_iff, exists_and_left, exists_eq, and_true]

/-! ## What is admitted -/

theorem allows_ofNotNamespaceAttribute_iff {c : NamespaceConstraint} {space : Option String}
    (h : ofNotNamespaceAttribute value target = .ok c) :
    c.allows space = true ↔ ¬ ∃ t ∈ tokens value, denoted target t = space.getD "" := by
  obtain ⟨-, rfl⟩ := ofNotNamespaceAttribute_eq_ok_iff.1 h
  rw [allows_excluded, mem_denotedSet]

theorem allows_ofNamespaceAttribute_iff {c : NamespaceConstraint} {space : Option String}
    (h : ofNamespaceAttribute value target = .ok c) :
    c.allows space = true ↔
      if core value = "##any" then True
      else if core value = "##other" then space.getD "" ≠ "" ∧ target ≠ some (space.getD "")
      else ∃ t ∈ tokens value, denoted target t = space.getD "" := by
  rcases ofNamespaceAttribute_eq_ok_iff.1 h with
    ⟨hcore, rfl⟩ | ⟨hcore, rfl⟩ | ⟨hany, hother, -, rfl⟩
  · simp [hcore]
  · rw [hcore, if_neg (by decide), if_pos rfl, allows_other]
  · rw [if_neg hany, if_neg hother, allows_listed, mem_denotedSet]

/-! ## What does not matter -/

/-- Both values hold the same tokens, in whatever order and however often. -/
def SameTokens (value value' : String) : Prop := ∀ t, t ∈ tokens value ↔ t ∈ tokens value'

theorem tokens_core (value : String) : tokens (core value) = tokens value := by
  rw [tokens, core, String.toList_ofList, Text.words_strip, tokens]

theorem denotedSet_congr (h : SameTokens value value') :
    denotedSet value target = denotedSet value' target := by
  refine NamespaceSet.ext fun space => ?_
  rw [mem_denotedSet, mem_denotedSet]
  exact exists_congr fun t => and_congr (h t) Iff.rfl

theorem not_isForeign_congr (h : SameTokens value value') :
    (∀ t ∈ tokens value, ¬ IsForeign t) ↔ ∀ t ∈ tokens value', ¬ IsForeign t :=
  forall_congr' fun t => imp_congr (h t) Iff.rfl

/-- A keyword that stands alone is the only token, and a foreign one. -/
theorem tokens_of_core {keyword : String} (h : core value = keyword)
    (hk : keyword = "##any" ∨ keyword = "##other") :
    tokens value = [keyword] ∧ IsForeign keyword := by
  rw [← tokens_core, h]
  rcases hk with rfl | rfl
  · exact ⟨by decide, ⟨"any".toList, by decide⟩, by decide, by decide⟩
  · exact ⟨by decide, ⟨"other".toList, by decide⟩, by decide, by decide⟩

/-- A list of tokens may be listed in another order, and with repetitions. -/
theorem ofNamespaceAttribute_congr (h : SameTokens value value') {c : NamespaceConstraint}
    (hany : core value ≠ "##any") (hother : core value ≠ "##other")
    (hc : ofNamespaceAttribute value target = .ok c) :
    ofNamespaceAttribute value' target = .ok c := by
  obtain ⟨-, -, hts, rfl⟩ := ((ofNamespaceAttribute_eq_ok_iff.1 hc).resolve_left
    fun hx => hany hx.1).resolve_left fun hx => hother hx.1
  have hts' := (not_isForeign_congr h).1 hts
  have halone : ∀ keyword, keyword = "##any" ∨ keyword = "##other" → core value' ≠ keyword := by
    intro keyword hk hcore
    obtain ⟨htokens, hforeign⟩ := tokens_of_core hcore hk
    exact hts' keyword (by simp [htokens]) hforeign
  rw [denotedSet_congr h]
  exact ofNamespaceAttribute_eq_ok_iff.2 (.inr (.inr ⟨halone _ (.inl rfl), halone _ (.inr rfl),
    hts', rfl⟩))

/-- A keyword that stands alone stands alone in every value with the same tokens that can be
read. -/
theorem core_congr (h : SameTokens value value') {keyword : String} (hcore : core value = keyword)
    (hk : keyword = "##any" ∨ keyword = "##other") {c : NamespaceConstraint}
    (hc : ofNamespaceAttribute value' target = .ok c) : core value' = keyword := by
  obtain ⟨htokens, hforeign⟩ := tokens_of_core hcore hk
  have hmem : keyword ∈ tokens value' := (h keyword).1 (by simp [htokens])
  have halone : ∀ keyword', keyword' = "##any" ∨ keyword' = "##other" →
      core value' = keyword' → core value' = keyword := by
    intro keyword' hk' hcore'
    rw [(tokens_of_core hcore' hk').1, List.mem_singleton] at hmem
    exact hcore'.trans hmem.symm
  rcases ofNamespaceAttribute_eq_ok_iff.1 hc with hany | hother | ⟨-, -, hts, -⟩
  · exact halone _ (.inl rfl) hany.1
  · exact halone _ (.inr rfl) hother.1
  · exact absurd hforeign (hts keyword hmem)

/-- Two values with the same tokens that can both be read say the same. -/
theorem ofNamespaceAttribute_unique (h : SameTokens value value') {c c' : NamespaceConstraint}
    (hc : ofNamespaceAttribute value target = .ok c)
    (hc' : ofNamespaceAttribute value' target = .ok c') : c = c' := by
  have hcases := ofNamespaceAttribute_eq_ok_iff.1 hc
  rcases hcases with ⟨hany, rfl⟩ | ⟨hother, rfl⟩ | ⟨hany, hother, -⟩
  · have hcore := core_congr h hany (.inl rfl) hc'
    exact Except.ok.inj ((ofNamespaceAttribute_eq_ok_iff.2 (.inl ⟨hcore, rfl⟩)).symm.trans hc')
  · have hcore := core_congr h hother (.inr rfl) hc'
    exact Except.ok.inj
      ((ofNamespaceAttribute_eq_ok_iff.2 (.inr (.inl ⟨hcore, rfl⟩))).symm.trans hc')
  · exact Except.ok.inj ((ofNamespaceAttribute_congr h hany hother hc).symm.trans hc')

theorem ofNotNamespaceAttribute_congr (h : SameTokens value value') {c : NamespaceConstraint}
    (hc : ofNotNamespaceAttribute value target = .ok c) :
    ofNotNamespaceAttribute value' target = .ok c := by
  obtain ⟨hts, rfl⟩ := ofNotNamespaceAttribute_eq_ok_iff.1 hc
  rw [denotedSet_congr h]
  exact ofNotNamespaceAttribute_eq_ok_iff.2 ⟨(not_isForeign_congr h).1 hts, rfl⟩

section Pad

variable {before after : String} (hb : Text.IsGap before.toList) (ha : Text.IsGap after.toList)

include hb ha

theorem tokens_pad : tokens (before ++ value ++ after) = tokens value := by
  rw [tokens, String.toList_append, String.toList_append, Text.words_pad hb ha, tokens]

theorem core_pad : core (before ++ value ++ after) = core value := by
  rw [core, String.toList_append, String.toList_append, Text.strip_pad hb ha, core]

/-- Blanks around the value of an attribute do not matter. -/
theorem ofNamespaceAttribute_pad :
    ofNamespaceAttribute (before ++ value ++ after) target = ofNamespaceAttribute value target := by
  rw [ofNamespaceAttribute_eq, ofNamespaceAttribute_eq, core_pad hb ha, readList,
    tokens_pad hb ha, readList]

theorem ofNotNamespaceAttribute_pad :
    ofNotNamespaceAttribute (before ++ value ++ after) target =
      ofNotNamespaceAttribute value target := by
  rw [ofNotNamespaceAttribute, readList, tokens_pad hb ha, ← readList, ← ofNotNamespaceAttribute]

end Pad

/-! ## Both attributes -/

/-- The tokens of an attribute are what stands between blanks, its core what is left without those
at its two ends. A `namespace` attribute can be read exactly if it is one of the two keywords that
stand alone or lists no foreign token, a `notNamespace` attribute exactly if it lists none. A
refusal names the first foreign token. What can be read admits the namespaces that the tokens
denote, or all others; the keywords admit everything, and everything but the target namespace and
none. Neither the order of the tokens matters, nor how often they are repeated, nor blanks around
them. -/
theorem attribute_exactly (value : String) (target : Option String) :
    Text.Separates value.toList ((tokens value).map String.toList) ∧
      Text.IsCore value.toList (core value).toList ∧
      ((∃ c, ofNamespaceAttribute value target = .ok c) ↔
        core value = "##any" ∨ core value = "##other" ∨ ∀ t ∈ tokens value, ¬ IsForeign t) ∧
      ((∃ c, ofNotNamespaceAttribute value target = .ok c) ↔
        ∀ t ∈ tokens value, ¬ IsForeign t) ∧
      (∀ e, ofNamespaceAttribute value target = .error e →
        NamesFirst "namespace" (tokens value) e) ∧
      (∀ e, ofNotNamespaceAttribute value target = .error e →
        NamesFirst "notNamespace" (tokens value) e) ∧
      (∀ c space, ofNamespaceAttribute value target = .ok c →
        (c.allows space = true ↔
          if core value = "##any" then True
          else if core value = "##other" then space.getD "" ≠ "" ∧ target ≠ some (space.getD "")
          else ∃ t ∈ tokens value, denoted target t = space.getD "")) ∧
      (∀ c space, ofNotNamespaceAttribute value target = .ok c →
        (c.allows space = true ↔ ¬ ∃ t ∈ tokens value, denoted target t = space.getD "")) ∧
      (∀ value', SameTokens value value' →
        (∀ c c', ofNamespaceAttribute value target = .ok c →
          ofNamespaceAttribute value' target = .ok c' → c = c') ∧
        (∀ c, core value ≠ "##any" → core value ≠ "##other" →
          ofNamespaceAttribute value target = .ok c →
          ofNamespaceAttribute value' target = .ok c) ∧
        ∀ c, ofNotNamespaceAttribute value target = .ok c →
          ofNotNamespaceAttribute value' target = .ok c) ∧
      ∀ before after : String, Text.IsGap before.toList → Text.IsGap after.toList →
        ofNamespaceAttribute (before ++ value ++ after) target =
            ofNamespaceAttribute value target ∧
          ofNotNamespaceAttribute (before ++ value ++ after) target =
            ofNotNamespaceAttribute value target := by
  refine ⟨separates_tokens value, isCore_core value, exists_ofNamespaceAttribute_iff,
    exists_ofNotNamespaceAttribute_iff, fun e => namesFirst_of_ofNamespaceAttribute,
    fun e => namesFirst_of_ofNotNamespaceAttribute, fun c space => allows_ofNamespaceAttribute_iff,
    fun c space => allows_ofNotNamespaceAttribute_iff, fun value' h => ⟨?_, ?_, ?_⟩,
    fun before after hb ha => ⟨ofNamespaceAttribute_pad hb ha, ofNotNamespaceAttribute_pad hb ha⟩⟩
  · exact fun c c' => ofNamespaceAttribute_unique h
  · exact fun c => ofNamespaceAttribute_congr h
  · exact fun c => ofNotNamespaceAttribute_congr h

example : ofNamespaceAttribute " ##any" none = .ok any ∧
    ofNamespaceAttribute "##any ##any" none = .error (.unknownKeyword "##any" "namespace") := by
  decide

end ContentAutomata.NamespaceConstraint
