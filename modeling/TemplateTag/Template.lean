import TemplateTag.Context
/-!
# Templates

All tags of a template, one after the other: after each tag the search goes on in its trailing text.
-/
namespace TemplateTag

namespace Delimiters

/-- The tags of a text, if at most `most` steps find all of them. -/
def tagsWithin? (d : Delimiters) : (most : Nat) → Text → Option (List Occurrence)
  | 0, _ => none
  | most + 1, t =>
    match d.firstTag? t with
    | none => some []
    | some found => (d.tagsWithin? most found.textAfter).map (found :: ·)

/-- The tags of a text. A tag takes up at least one character, so that there are at most as many as
the text is long; with two empty delimiters that is not so, the search has no end, and there is no
result. -/
def tags? (d : Delimiters) (t : Text) : Option (List Occurrence) :=
  d.tagsWithin? (t.length + 1) t

end Delimiters

/-- The arguments of a list as a template could write them. -/
def Arguments.texts (l : ArgumentList) : List Text :=
  l.positional.map Argument.text ++
    l.named.map (fun (name, a) => name ++ '=' :: a.text) ++
    (l.blockParams.map fun names => "as |".toList ++ [' '].intercalate names ++ ['|']).toList

/-- One line of a summary of a template. -/
structure TagSummary where
  tag : Text
  unescaped : Bool
  args : List Text
  deriving DecidableEq

namespace Settings

def summarize (s : Settings) (tag : Tag) : Reported TagSummary := do
  let reading ← s.readTag tag
  return { tag := tag.text, unescaped := reading.unescaped, args := reading.args.texts }

/-- The summaries of tags in order. -/
def summarizeAll (s : Settings) : List Tag → Reported (List TagSummary)
  | [] => pure []
  | tag :: rest => do
    let summary ← s.summarize tag
    let summaries ← s.summarizeAll rest
    return summary :: summaries

end Settings

/-- Read every tag of a template. -/
def Context.readTemplate? (ctx : Context) (template : Text) :
    Option (List TagSummary × Context) :=
  (ctx.delimiters.tags? template).map fun found =>
    ctx.absorb (ctx.settings.summarizeAll (found.map Occurrence.tag))

end TemplateTag
