import TemplateTag.Text.Basic
/-!
# Words

A word is a maximal run of characters that are not blank. A text is laid out as its words, each
with the blanks in front of it, and the blanks after the last one; `flatMap_words_append_trailing`
says that nothing else is in it. `wordSpans` finds where the words are in one pass over the bytes.
-/
namespace TemplateTag

/-- A word together with the blanks that stand before it. -/
structure Word where
  gap : Text
  text : Text
  deriving DecidableEq

/-- The part of the source that the word takes up, with its gap. -/
def Word.whole (w : Word) : Text :=
  w.gap ++ w.text

/-- A text cut at its blanks. -/
structure Layout where
  /-- The characters before the first blank. -/
  head : Text
  /-- The words after the first blank. -/
  later : List Word
  /-- The blanks after the last word. -/
  trailing : Text
  deriving DecidableEq

namespace Layout

/-- Put a blank in front of the source. -/
def addBlank (c : Char) : Layout → Layout
  | ⟨[], [], trailing⟩ => ⟨[], [], c :: trailing⟩
  | ⟨[], w :: later, trailing⟩ => ⟨[], { w with gap := c :: w.gap } :: later, trailing⟩
  | ⟨h :: head, later, trailing⟩ => ⟨[], ⟨[c], h :: head⟩ :: later, trailing⟩

/-- Put a character that is not blank in front of the source. -/
def addInk (c : Char) (l : Layout) : Layout :=
  { l with head := c :: l.head }

def ofText : Text → Layout
  | [] => ⟨[], [], []⟩
  | c :: t => if isBlank c then (ofText t).addBlank c else (ofText t).addInk c

/-- All words, a first one without a gap included. -/
def words (l : Layout) : List Word :=
  if l.head.isEmpty then l.later else ⟨[], l.head⟩ :: l.later

def flatten (l : Layout) : Text :=
  l.head ++ l.later.flatMap Word.whole ++ l.trailing

theorem flatten_addBlank (c : Char) (l : Layout) : (l.addBlank c).flatten = c :: l.flatten := by
  obtain ⟨head, later, trailing⟩ := l
  cases head <;> cases later <;> simp [addBlank, flatten, Word.whole]

theorem flatten_addInk (c : Char) (l : Layout) : (l.addInk c).flatten = c :: l.flatten := rfl

theorem flatten_ofText (t : Text) : (ofText t).flatten = t := by
  induction t with
  | nil => rfl
  | cons c t ih =>
    rw [ofText]
    split
    · rw [flatten_addBlank, ih]
    · rw [flatten_addInk, ih]

end Layout

/-- The words of a text, in order. -/
def Text.words (t : Text) : List Word :=
  (Layout.ofText t).words

theorem flatMap_words_append_trailing (t : Text) :
    t.words.flatMap Word.whole ++ (Layout.ofText t).trailing = t := by
  have h := Layout.flatten_ofText t
  rw [Layout.flatten] at h
  rw [Text.words, Layout.words]
  split
  · next he => rw [List.isEmpty_iff.mp he] at h; simpa using h
  · simpa [Word.whole] using h

/-- A part of a text, by the positions where it starts and stops. -/
structure Span where
  start : Nat
  stop : Nat
  deriving DecidableEq

namespace Text

/-- The spans of the words, in bytes, in the rest of a text that goes on at the position. A word
that has begun before has its start set aside. -/
def wordSpansFrom : (position : Nat) → (start? : Option Nat) → Text → List Span
  | _, none, [] => []
  | position, some start, [] => [⟨start, position⟩]
  | position, none, c :: t =>
    if isBlank c then wordSpansFrom (position + c.utf8Size) none t
    else wordSpansFrom (position + c.utf8Size) (some position) t
  | position, some start, c :: t =>
    if isBlank c then ⟨start, position⟩ :: wordSpansFrom (position + c.utf8Size) none t
    else wordSpansFrom (position + c.utf8Size) (some start) t

/-- The spans of the words of a text in bytes. -/
def wordSpans (t : Text) : List Span :=
  wordSpansFrom 0 none t

end Text

end TemplateTag
