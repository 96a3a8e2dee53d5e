import TemplateTag.Argument.Path
import TemplateTag.RawArgument.Shape
import TemplateTag.VariableName
/-!
# Reading raw arguments

Raw arguments are read one by one into an argument list. How the arguments of a call are read is a
parameter here, since a call is read like the tag it stands in.
-/
namespace TemplateTag

/-- The place of an argument in its list. -/
inductive Placement where
  | positional (a : Argument)
  | named (name : Text) (a : Argument)
  | blockParams (names : List Text)

/-- Put an argument into its place. -/
def Arguments.place (l : ArgumentList) : Placement → ArgumentList
  | .positional a => l.push a
  | .named name a => l.bindName name a
  | .blockParams names => l.withBlockParams names

/-- Report a name in brackets where the dialect has no brackets. -/
def Binding.check (d : Dialect) (tag : Text) (b : Binding) : Reported Unit :=
  if b.bracketed && !d.advancedVariables then Reported.diagnose (.bracketedKey b.key tag)
  else pure ()

/-- Read a value after a check of its name. What has quotes around it is no name. -/
def readCheckedValue (d : Dialect) (tag : Text) (position : Position) (raw : Text) :
    Reported Argument := do
  if d.advancedVariables && !hasQuoteMarks raw then VariableName.check raw tag
  readValue d position raw

/-- Read one raw argument. `index` is the number of positional arguments before it. -/
def readArgument (d : Dialect) (call : Text → Reported ArgumentList) (tag : Text) (index : Nat)
    (raw : Text) : Reported Placement :=
  if isCall raw then (.positional <| .subexpression raw ·) <$> call raw
  else
    match blockParamNames? raw with
    | some names => pure (.blockParams names)
    | none =>
      match if d.namedArguments then Binding.ofText? raw else none with
      | none => .positional <$> readCheckedValue d tag (.positional index) raw
      | some b => do
        b.check d tag
        .named b.key <$>
          if isCall b.value then .subexpression b.value <$> call b.value
          else readCheckedValue d tag .named b.value

/-- Read raw arguments and add them to a list. -/
def readArguments (d : Dialect) (call : Text → Reported ArgumentList) (tag : Text) :
    ArgumentList → List Text → Reported ArgumentList
  | l, [] => pure l
  | l, raw :: rest => do
    let placement ← readArgument d call tag l.positional.length raw
    readArguments d call tag (l.place placement) rest

end TemplateTag
