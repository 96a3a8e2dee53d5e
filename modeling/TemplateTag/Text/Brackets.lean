import TemplateTag.Text.Basic
/-!
# Bracketed parts

A text read from left to right with every bracketed part taken as a unit. Where a bracket opens such
a part is a parameter, since there are two views of it: `closesLater` takes any non-empty content up
to the next closing bracket, and `closesOnLine` stays on the line and lets the content start with a
closing bracket. A bracket that opens nothing is a character like any other.
-/
namespace TemplateTag

inductive Glyph where
  | plain (c : Char)
  | bracketed (content : Text)
  deriving DecidableEq

namespace Glyph

/-- What follows a bracket is not empty up to the next closing bracket. -/
def closesLater (t : Text) : Bool :=
  !t.startsIn (· == ']') && t.contains ']'

/-- What follows a bracket has, after its first character, a closing bracket on the same line. -/
def closesOnLine : Text → Bool
  | [] => false
  | c :: t => c != '\n' && t.find? (fun d => d = ']' || d = '\n') == some ']'

/-- Where a reading from left to right stands. -/
inductive Place where
  | outside
  /-- Right after an opening bracket. -/
  | entering
  | inside
  deriving DecidableEq

/-- The rest of the content of the bracketed part that the reading is in, and the glyphs after
it. -/
def scan (opens : Text → Bool) : Place → Text → Text × List Glyph
  | _, [] => ([], [])
  | .outside, c :: t =>
    if c = '[' && opens t then
      let (content, rest) := scan opens .entering t
      ([], .bracketed content :: rest)
    else ([], .plain c :: (scan opens .outside t).2)
  | .entering, c :: t =>
    let (content, rest) := scan opens .inside t
    (c :: content, rest)
  | .inside, c :: t =>
    if c = ']' then ([], (scan opens .outside t).2)
    else
      let (content, rest) := scan opens .inside t
      (c :: content, rest)

def ofText (opens : Text → Bool) (t : Text) : List Glyph :=
  (scan opens .outside t).2

end Glyph

end TemplateTag
