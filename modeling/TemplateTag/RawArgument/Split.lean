import TemplateTag.Dialect
import TemplateTag.RawArgument.Construct
import TemplateTag.Report
import TemplateTag.Text.Words
/-!
# Raw arguments

The inside of a tag is cut into raw arguments. In a dialect with advanced variables an argument is a
run of words that a construct holds together; otherwise every word is one.
-/
namespace TemplateTag

/-- The words of one raw argument. -/
structure Run where
  first : Word
  rest : List Word
  /-- The run is a closed list of block parameters, and its first word is the `as` before it. -/
  isBlockParams : Bool
  deriving DecidableEq

/-- The text of a run, with the blanks between its words. Of block parameters, the `as` is left out
and the blanks after it are kept. -/
def Run.text (r : Run) : Text :=
  if r.isBlockParams then r.rest.flatMap Word.whole else r.first.text ++ r.rest.flatMap Word.whole

/-- How the words of a tag come to an end. -/
inductive Ending where
  | complete
  /-- A parenthesis is still open. -/
  | unclosed
  /-- A word closes more parentheses than are open, and nothing after it is read. -/
  | overclosed
  deriving DecidableEq

/-- The ending of a tag that ends inside the construct. -/
def Construct.ending : Construct → Ending
  | parentheses _ => .unclosed
  | _ => .complete

structure Runs where
  runs : List Run
  ending : Ending
  deriving DecidableEq

namespace Runs

def cons (r : Run) (rs : Runs) : Runs :=
  { rs with runs := r :: rs.runs }

/-- Where the reading of the words stands. -/
inductive State where
  /-- Between two arguments; the flag says whether there is one before. -/
  | between (started : Bool)
  /-- Inside a construct, with the words of the argument so far. -/
  | inside (c : Construct) (first : Word) (rest : List Word)
  deriving DecidableEq

def scan : State → List Word → Runs
  | .between _, [] => ⟨[], .complete⟩
  | .inside c first rest, [] => ⟨[⟨first, rest, false⟩], c.ending⟩
  | .between started, w :: ws =>
    match opening? started w.text with
    | none => (scan (.between true) ws).cons ⟨w, [], false⟩
    | some c => scan (.inside c w []) ws
  | .inside c first rest, w :: ws =>
    match c.step w.text with
    | .stillOpen c => scan (.inside c first (rest ++ [w])) ws
    | .closed => (scan (.between true) ws).cons ⟨first, rest ++ [w], c = .blockParams⟩
    | .overclosed => ⟨[], .overclosed⟩

def ofWords (ws : List Word) : Runs :=
  scan (.between false) ws

end Runs

/-- Report an ending that leaves parentheses unpaired. Inside a subexpression an open one is not
reported, since the text around it was reported already. -/
def Ending.check (ending : Ending) (nested : Bool) (tag : Text) : Reported Unit :=
  if ending = .overclosed || (ending = .unclosed && !nested) then
    Reported.diagnose (.unbalanced tag)
  else pure ()

/-- Cut the inside of a tag, or of a subexpression, into raw arguments. A text without words is cut
at its spaces, so that there always is an argument. -/
def rawArguments (d : Dialect) (nested : Bool) (tag source : Text) : Reported (List Text) :=
  let words := source.words
  if words.isEmpty then pure (source.splitOn ' ')
  else if d.advancedVariables then do
    let runs := Runs.ofWords words
    runs.ending.check nested tag
    return runs.runs.map Run.text
  else pure (words.map Word.text)

end TemplateTag
