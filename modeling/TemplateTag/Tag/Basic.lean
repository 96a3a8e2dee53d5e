import TemplateTag.Text.Basic
/-!
# Tags

The parts of a tag as they stand in the template, from the left delimiter to the right one.
-/
namespace TemplateTag

structure Tag where
  left : Text
  /-- A tilde that takes away the blanks before the tag. -/
  leftControl : Text := []
  /-- The braces inside the left delimiter. -/
  leftBraces : Text := []
  operator : Text := []
  inner : Text
  rightBraces : Text := []
  /-- A tilde that takes away the blanks after the tag. -/
  rightControl : Text := []
  right : Text
  deriving DecidableEq

namespace Tag

/-- The tag with the usual delimiters and the given inside. -/
def ofInner (inner : Text) : Tag where
  left := "\x7b\x7b".toList
  inner := inner
  right := "\x7d\x7d".toList

def withOperator (tag : Tag) (operator : Text) : Tag :=
  { tag with operator := operator }

/-- The tag with one more brace on either side. -/
def withBraces (tag : Tag) : Tag :=
  { tag with leftBraces := ['\x7b'], rightBraces := ['\x7d'] }

/-- The tag as it stands in the template. -/
def text (tag : Tag) : Text :=
  tag.left ++ tag.leftControl ++ tag.leftBraces ++ tag.operator ++ tag.inner ++ tag.rightBraces ++
    tag.rightControl ++ tag.right

end Tag

end TemplateTag
