import TemplateTag.RawArgument.Reading
import TemplateTag.RawArgument.Split
import TemplateTag.Settings
/-!
# Subexpressions

The text between the parentheses of a subexpression is cut and read like the inside of a tag, with
one level of nesting less to go. What is wrong goes into the report, and the reading goes on.
-/
namespace TemplateTag.Settings

/-- Report a call whose first argument does not name a registered helper. The current context alone
calls nothing. -/
def checkHelper (s : Settings) (args : ArgumentList) : Reported Unit :=
  match args.get? 0 with
  | none => pure ()
  | some head =>
    if s.dialect.arbitraryHelpers || head.isHere then pure ()
    else
      match head.helper? with
      | none => Reported.diagnose (.unknownHelper head.text)
      | some name => if s.hasHelper name then pure () else Reported.diagnose (.unknownHelper name)

/-- The text between the parentheses of a call. A text without them is taken whole. -/
def callBody (source : Text) : Text :=
  (source.between? ['('] [')']).getD source

/-- Read a call when subexpressions may still nest `room` levels deep. Without room its arguments
are left out, and the diagnostic quotes the end of the source. -/
def readCall (s : Settings) : (room : Nat) → Text → Reported ArgumentList
  | 0, source => do
    Reported.countSubexpression
    Reported.diagnose (.tooDeep s.maxDepth (Text.lastBytes 32 source))
    return {}
  | room + 1, source => do
    Reported.countSubexpression
    let raws ← rawArguments s.dialect true source (callBody source)
    let args ← readArguments s.dialect (s.readCall room) source {} raws
    s.checkHelper args
    return args

/-- Read a text as a subexpression that no other encloses. -/
def readSubexpression (s : Settings) (source : Text) : Reported Argument :=
  .subexpression source <$> s.readCall s.maxDepth source

end TemplateTag.Settings
