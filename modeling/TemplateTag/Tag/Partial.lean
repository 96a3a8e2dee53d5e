import TemplateTag.Argument.Basic
import TemplateTag.RawArgument.Shape
import TemplateTag.Tag.Basic
/-!
# Partials

A tag with the operator of a partial refers to another template by name. The name stands at a fixed
place among the raw arguments, and it is a name even where an argument would be a literal.
-/
namespace TemplateTag

/-- The name of a partial, without the quotes or brackets around it. A call names no partial. -/
def partialName? (raw : Text) : Option Text :=
  if isCall raw then none
  else
    ((raw.filledBetween? ['"'] ['"']).or <| (raw.filledBetween? ['['] [']']).or <|
      (raw.filledBetween? escapedQuote escapedQuote).or <| some raw)

namespace Tag

/-- The index of the raw argument that names a partial. -/
def partialIndex? (tag : Tag) : Option Nat :=
  if tag.operator = ['>'] then some 0
  else if tag.operator = ['#', '*'] then some 1
  else none

/-- The index and the name of the partial that a tag with the given raw arguments refers to. -/
def partial? (tag : Tag) (raws : List Text) : Option (Nat × Text) := do
  let index ← tag.partialIndex?
  let raw ← raws[index]?
  let name ← partialName? raw
  return (index, name)

/-- Put the name of a partial into the place of the positional argument with its index. -/
def placePartial (tag : Tag) (raws : List Text) (args : ArgumentList) : ArgumentList :=
  match tag.partial? raws with
  | none => args
  | some (index, name) => { args with positional := args.positional.set index (.ofName name) }

end Tag

end TemplateTag
