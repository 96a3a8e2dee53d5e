import TemplateTag.Subexpression
import TemplateTag.Tag.Partial
/-!
# Reading tags

The inside of a tag is cut into raw arguments, these are read into an argument list, and the name of
a partial takes its place in it.
-/
namespace TemplateTag

/-- A tag that has been read. -/
structure TagReading where
  /-- The output is not escaped. -/
  unescaped : Bool
  args : ArgumentList

namespace Settings

/-- Is the output of a tag left unescaped? -/
def unescaped (s : Settings) (tag : Tag) : Bool :=
  tag.leftBraces == ['\x7b'] || tag.operator == ['&'] || s.dialect.noEscape || s.rawBlockActive

def readTag (s : Settings) (tag : Tag) : Reported TagReading := do
  let raws ← rawArguments s.dialect false tag.text tag.inner
  let args ← readArguments s.dialect (s.readCall s.maxDepth) tag.text {} raws
  return { unescaped := s.unescaped tag, args := tag.placePartial raws args }

end Settings

end TemplateTag
