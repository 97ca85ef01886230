import ContentAutomata.Text.Blank
import Mathlib.Data.List.TakeWhile

/-!
# Words and the blanks between them

Splitting a text goes through it from left to right and collects the characters of a word. What
comes out can be said without that: the words are runs of characters that are not blank, in order,
each of them as long as it can be, and everything else is blank (`Separates`). Only one list of
words fits a text.

Results:
* `separates_iff`: the words of a text are the only ones that the text consists of;
* `isCore_iff`: the core of a text is the only one;
* `words_pad`, `strip_pad`: blanks around a text change neither its words nor its core;
* `words_strip`: a text has the words of its core.
-/
namespace ContentAutomata.Text

/-- The text consists of the words in order, with blanks around them. -/
inductive Separates : List Char → List (List Char) → Prop
  | nil : Separates [] []
  | blank {c : Char} {cs : List Char} {ws : List (List Char)} (isBlank_eq : isBlank c = true)
    (rest : Separates cs ws) : Separates (c :: cs) ws
  | word {w cs : List Char} {ws : List (List Char)} (ne_nil : w ≠ [])
    (solid : ∀ c ∈ w, isBlank c = false) (ends : ∀ c ∈ cs.head?, isBlank c = true)
    (rest : Separates cs ws) : Separates (w ++ cs) (w :: ws)

/-- All characters of the text are blank. -/
def IsGap (cs : List Char) : Prop := ∀ c ∈ cs, isBlank c = true

/-- The text is its core with blanks around it; the core neither begins nor ends with one. -/
structure IsCore (cs core : List Char) : Prop where
  pad : ∃ before after, IsGap before ∧ IsGap after ∧ cs = before ++ core ++ after
  begins : ∀ c ∈ core.head?, isBlank c = false
  ends : ∀ c ∈ core.getLast?, isBlank c = false

/-! ## The words of a text -/

theorem words_cons_blank {c : Char} (h : isBlank c = true) (cs : List Char) :
    words (c :: cs) = words cs := by
  simp [words, splitWords, h]

/-- A word goes on until the text ends or a blank comes. -/
theorem splitWords_word {w cs : List Char} (solid : ∀ c ∈ w, isBlank c = false)
    (ends : ∀ c ∈ cs.head?, isBlank c = true) : ∀ word : List Char, word ++ w ≠ [] →
      splitWords word (w ++ cs) = (word.reverse ++ w) :: words cs := by
  induction w with
  | nil =>
    intro word hne
    have hword : word.isEmpty = false := by simpa using hne
    cases cs with
    | nil => simp [splitWords, hword, words]
    | cons c cs =>
      have hc : isBlank c = true := ends c rfl
      simp [splitWords, hc, hword, words]
  | cons c w ih =>
    intro word _
    have hc : isBlank c = false := solid c (by simp)
    have hrest := ih (fun d hd => solid d (by simp [hd])) (c :: word) (by simp)
    rw [List.cons_append, splitWords, hc, if_neg (by simp), hrest, List.reverse_cons,
      List.append_assoc, List.singleton_append]

theorem separates_splitWords (word cs : List Char) (solid : ∀ c ∈ word, isBlank c = false) :
    Separates (word.reverse ++ cs) (splitWords word cs) := by
  induction cs generalizing word with
  | nil =>
    cases word with
    | nil => exact .nil
    | cons a as =>
      exact .word (by simp) (fun c hc => solid c (List.mem_reverse.1 hc)) (by simp) .nil
  | cons c cs ih =>
    cases hc : isBlank c with
    | true =>
      have hrest : Separates (c :: cs) (splitWords [] cs) := .blank hc (ih [] (by simp))
      cases word with
      | nil => simpa [splitWords, hc] using hrest
      | cons a as =>
        have hsplit : splitWords (a :: as) (c :: cs) = (a :: as).reverse :: splitWords [] cs := by
          simp [splitWords, hc]
        rw [hsplit]
        refine .word (by simp) (fun d hd => solid d (List.mem_reverse.1 hd)) ?_ hrest
        intro d hd
        obtain rfl : c = d := by simpa using hd
        exact hc
    | false =>
      have hrest := ih (c :: word) (by simpa [hc] using solid)
      rw [splitWords, hc, if_neg (by simp)]
      rwa [List.reverse_cons, List.append_assoc, List.singleton_append] at hrest

/-- The words of a text are the only ones that it consists of. -/
theorem separates_iff {cs : List Char} {ws : List (List Char)} :
    Separates cs ws ↔ ws = words cs := by
  constructor
  · intro h
    induction h with
    | nil => rfl
    | blank hc _ ih => rw [words_cons_blank hc, ih]
    | @word w cs ws hne solid ends _ ih =>
      have hsplit := splitWords_word solid ends [] (by simpa using hne)
      rw [List.reverse_nil, List.nil_append] at hsplit
      rw [words, hsplit, ih]
  · intro h
    subst h
    exact separates_splitWords [] cs (by simp)

/-! ## Blanks around a text -/

theorem IsGap.words_append {gap : List Char} (h : IsGap gap) (cs : List Char) :
    words (gap ++ cs) = words cs := by
  induction gap with
  | nil => rfl
  | cons c gap ih =>
    rw [List.cons_append, words_cons_blank (h c (by simp)), ih fun d hd => h d (by simp [hd])]

theorem IsGap.words_eq {gap : List Char} (h : IsGap gap) : words gap = [] := by
  have happend := h.words_append []
  rwa [List.append_nil] at happend

theorem IsGap.separates_append {gap cs : List Char} {ws : List (List Char)} (h : IsGap gap)
    (hcs : Separates cs ws) : Separates (cs ++ gap) ws := by
  induction hcs with
  | nil => exact separates_iff.2 h.words_eq.symm
  | blank hc _ ih => exact .blank hc ih
  | @word w cs ws hne solid ends _ ih =>
    rw [List.append_assoc]
    refine .word hne solid (fun c hc => ?_) ih
    cases cs with
    | nil => exact h c (List.mem_of_mem_head? hc)
    | cons d cs => exact ends c hc

/-- Blanks around a text do not change its words. -/
theorem words_pad {before after : List Char} (hb : IsGap before) (ha : IsGap after)
    (cs : List Char) : words (before ++ cs ++ after) = words cs := by
  have h : Separates (cs ++ after) (words cs) := ha.separates_append (separates_iff.2 rfl)
  rw [List.append_assoc, hb.words_append, ← separates_iff.1 h]

theorem IsGap.dropWhile_append {gap : List Char} (h : IsGap gap) (cs : List Char) :
    (gap ++ cs).dropWhile isBlank = cs.dropWhile isBlank :=
  List.dropWhile_append_of_pos h

/-- Blanks around a text do not change its core. -/
theorem strip_pad {before after : List Char} (hb : IsGap before) (ha : IsGap after)
    (cs : List Char) : strip (before ++ cs ++ after) = strip cs := by
  have hrev : IsGap after.reverse := fun c hc => ha c (List.mem_reverse.1 hc)
  rw [strip, List.append_assoc, hb.dropWhile_append, List.dropWhile_append]
  split
  · -- nothing but blanks
    rename_i hnil
    have hcs : cs.dropWhile isBlank = [] := by simpa using hnil
    have hafter : after.dropWhile isBlank = [] := List.dropWhile_eq_nil_iff.2 ha
    rw [hafter, strip, hcs]
  · rw [List.reverse_append, hrev.dropWhile_append, strip]

/-- A text is its core with blanks around it. -/
theorem exists_pad_strip (cs : List Char) :
    ∃ before after, IsGap before ∧ IsGap after ∧ cs = before ++ strip cs ++ after := by
  let rest := cs.dropWhile isBlank
  have hrest : rest = strip cs ++ (rest.reverse.takeWhile isBlank).reverse := by
    rw [strip, ← List.reverse_append, List.takeWhile_append_dropWhile, List.reverse_reverse]
  refine ⟨cs.takeWhile isBlank, (rest.reverse.takeWhile isBlank).reverse, ?_, ?_, ?_⟩
  · exact fun c hc => List.mem_takeWhile_imp hc
  · exact fun c hc => List.mem_takeWhile_imp (List.mem_reverse.1 hc)
  · rw [List.append_assoc, ← hrest, List.takeWhile_append_dropWhile]

theorem dropWhile_of_head? {cs : List Char} (h : ∀ c ∈ cs.head?, isBlank c = false) :
    cs.dropWhile isBlank = cs := by
  cases cs with
  | nil => rfl
  | cons c cs => rw [List.dropWhile_cons_of_neg (by simpa using h)]

theorem head?_dropWhile (cs : List Char) :
    ∀ c ∈ (cs.dropWhile isBlank).head?, isBlank c = false := by
  intro c hc
  have hhead := List.head?_dropWhile_not isBlank cs
  rw [Option.mem_def.1 hc] at hhead
  simpa using hhead

theorem isCore_strip (cs : List Char) : IsCore cs (strip cs) where
  pad := exists_pad_strip cs
  begins c hc := by
    refine head?_dropWhile cs c ?_
    rw [← List.reverse_reverse (cs.dropWhile isBlank),
      ← List.takeWhile_append_dropWhile (p := isBlank) (l := (cs.dropWhile isBlank).reverse),
      List.reverse_append]
    rw [List.head?_append, ← strip, Option.mem_def.1 hc]
    rfl
  ends c hc := by
    rw [strip, List.getLast?_reverse] at hc
    exact head?_dropWhile _ c hc

/-- The core of a text is the only one. -/
theorem isCore_iff {cs core : List Char} : IsCore cs core ↔ core = strip cs := by
  constructor
  · intro h
    obtain ⟨before, after, hb, ha, rfl⟩ := h.pad
    have hends : ∀ c ∈ core.reverse.head?, isBlank c = false := by
      rw [List.head?_reverse]
      exact h.ends
    rw [strip_pad hb ha, strip, dropWhile_of_head? h.begins, dropWhile_of_head? hends,
      List.reverse_reverse]
  · intro h
    subst h
    exact isCore_strip cs

/-- A text has the words of its core. -/
theorem words_strip (cs : List Char) : words (strip cs) = words cs := by
  obtain ⟨before, after, hb, ha, he⟩ := exists_pad_strip cs
  exact (words_pad hb ha (strip cs)).symm.trans (congrArg words he.symm)

end ContentAutomata.Text
