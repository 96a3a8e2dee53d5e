import TemplateTag.Argument.Literal
import TemplateTag.Dialect
import TemplateTag.Report
import TemplateTag.Text.Brackets
/-!
# Paths

A raw argument that is no literal is a path. Its steps up come first, written `../`; a mark `./` or
a leading `this` says that it starts from the current context; its names are separated by points or
slashes, and in a dialect with advanced variables a bracketed name may contain anything.
-/
namespace TemplateTag

/-- Where an argument stands. -/
inductive Position where
  | positional (index : Nat)
  | named
  deriving DecidableEq

/-- The argument that names the helper or the value of the tag is never read as a literal. -/
def Position.isHead : Position → Bool
  | positional 0 => true
  | _ => false

/-- A name in a path, with or without brackets around it. -/
inductive Step where
  | plain (name : Text)
  | bracketed (name : Text)
  deriving DecidableEq

namespace Step

def name : Step → Text
  | plain n => n
  | bracketed n => n

def isSeparator (c : Char) : Bool :=
  c = '.' || c = '/'

/-- Put a plain name in front, unless it is empty. -/
def consPlain (run : Text) (steps : List Step) : List Step :=
  if run.isEmpty then steps else .plain run :: steps

/-- The plain name that the glyphs start with, and the steps after it. -/
def gather : List Glyph → Text × List Step
  | [] => ([], [])
  | .plain c :: rest =>
    let (run, steps) := gather rest
    if isSeparator c || c = '[' || c = ']' then ([], consPlain run steps) else (c :: run, steps)
  | .bracketed content :: rest =>
    let (run, steps) := gather rest
    ([], .bracketed content :: consPlain run steps)

def ofGlyphs (glyphs : List Glyph) : List Step :=
  let (run, steps) := gather glyphs
  consPlain run steps

/-- The steps of a path without its steps up. -/
def ofText (advanced : Bool) (t : Text) : List Step :=
  if advanced && t.contains ']' then ofGlyphs (Glyph.ofText Glyph.closesLater t)
  else (t.fields isSeparator).map .plain

/-- Does the step mean the current context? -/
def isThis (d : Dialect) (s : Step) : Bool :=
  d.implicitThis && s == .plain "this".toList

end Step

/-- The number of steps up at the start of a path, and the rest of it. -/
def splitParents : Text → Nat × Text
  | '.' :: '.' :: '/' :: t =>
    let (n, rest) := splitParents t
    (n + 1, rest)
  | t => (0, t)

/-- The text without its marks `./`. -/
def dropHereMarks : Text → Text
  | [] => []
  | '.' :: '/' :: t => dropHereMarks t
  | c :: t => c :: dropHereMarks t

/-- The argument for a path with its steps up counted and taken off. Outside head position, a
dialect with string parameters gets the names of the path as one string. -/
def pathArgument (d : Dialect) (head : Bool) (levels : Nat) (rest : Text) : Argument :=
  let steps := Step.ofText d.advancedVariables (dropHereMarks rest)
  let names := (steps.filter (! ·.isThis d)).map Step.name
  let fromHere := rest.hasInfix "./".toList || steps.any (·.isThis d)
  if d.stringParams && !head then .ofLiteral .string (['.'].intercalate names)
  else if fromHere && levels = 0 && !names.isEmpty then .path 0 (.current :: names.map .name)
  else .path levels (names.map .name)

/-- Read a raw argument as a path. -/
def readPath (d : Dialect) (head : Bool) (source : Text) : Reported Argument := do
  let trimmed := source.trim
  let (levels, rest) := splitParents (if trimmed = "..".toList then "../".toList else trimmed)
  Reported.countParents levels
  if 0 < levels && !d.parentAccess then Reported.diagnose (.parentAccess trimmed)
  return pathArgument d head levels rest

/-- Read a raw argument that is neither a subexpression nor block parameters. -/
def readValue (d : Dialect) (position : Position) (source : Text) : Reported Argument :=
  match literal? source with
  | some (kind, text) =>
    pure (if position.isHead then .ofName text else .ofLiteral kind text)
  | none => readPath d position.isHead source

end TemplateTag
