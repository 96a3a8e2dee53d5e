import TemplateTag.Argument.Inspect
import TemplateTag.Template
/-!
# Demonstration

A fixed template with the summary of its tags, and one tag with its argument list in full.
-/
namespace TemplateTag.Demo

/-- A list of things to do with a footer. -/
def template : Text :=
  ("<ul>\n\x7b\x7b#each (filter todos done=false) as |todo index|\x7d\x7d\n" ++
    "  <li>\x7b\x7bindex\x7d\x7d: \x7b\x7btodo.title\x7d\x7d by " ++
    "\x7b\x7b../owner.[display name]\x7d\x7d</li>\n" ++
    "  \x7b\x7b\x7btodo.notes\x7d\x7d\x7d\n\x7b\x7b/each\x7d\x7d\n</ul>\n" ++
    "\x7b\x7b> footer \"My Todos\"\x7d\x7d").toList

def compiledTag : Text :=
  "\x7b\x7b#with (concat first \" \" last) as |full|\x7d\x7d".toList

/-- The context in which the template is read. -/
def context : Context :=
  (Context.ofDialect .handlebars).withHelpers fun name =>
    ["filter".toList, "concat".toList].contains name

/-- The text with spaces after it up to the given width. -/
def padded (width : Nat) (t : Text) : Text :=
  t ++ List.replicate (width - t.length) ' '

def line (s : TagSummary) : Text :=
  padded 50 s.tag ++ " raw=".toList ++
    padded 5 (if s.unescaped then "true".toList else "false".toList) ++
    " ".toList ++ ", ".toList.intercalate s.args

/-- The argument list of the compiled tag, in a dialect that lets it call any helper. -/
def compiledList : ArgumentList :=
  let ctx := Context.ofDialect { Dialect.handlebars with arbitraryHelpers := true }
  match ctx.firstTag? compiledTag with
  | none => {}
  | some m => (ctx.readTag m.tag).1.args

/-- The lines for the standard output and for the error output. -/
def lines : List Text × List Text :=
  match context.readTemplate? template with
  | none => ([], [])
  | some (summaries, ctx) =>
    (summaries.map line ++ ["compiled at build time: ".toList ++ Inspect.ofList compiledList],
      ctx.diagnostics.map fun d => "warning: ".toList ++ d.message)

/-- Each text on a line of its own. -/
def unlines (texts : List Text) : Text :=
  texts.flatMap (· ++ ['\n'])

end TemplateTag.Demo
