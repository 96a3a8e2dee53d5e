import TemplateTag.Text.Basic
/-!
# Constructs that hold words together

A quoted text, a bracketed name, a subexpression or a list of block parameters can go on over
blanks. `opening?` says which of them a word opens without closing it again, and `Construct.step`
what a later word does to an open one.
-/
namespace TemplateTag

inductive Construct where
  | doubleQuote
  | escapedQuote
  | bracket
  /-- So many parentheses are open. -/
  | parentheses (depth : Nat)
  | blockParams
  deriving DecidableEq

/-- What a word does to an open construct. -/
inductive Construct.Progress where
  | stillOpen (c : Construct)
  | closed
  /-- The word closes more parentheses than are open. -/
  | overclosed
  deriving DecidableEq

/-- The run of opening parentheses that ends at the last parenthesis of the word, its first
character left out of account. -/
def lastOpenRun (word : Text) : Nat :=
  Text.runAtStart '(' (word.tail.reverse.dropWhile fun c => c != '(' && c != ')')

/-- The number of parentheses that a word opens. -/
def openedBy (word : Text) : Nat :=
  match word.runAtStart '(' with
  | 0 => lastOpenRun word
  | run => run

/-- Does a quote come first and only once? -/
def opensWith (opening : Text) (quote : Char) (word : Text) : Bool :=
  match opening.isPrefixOf? word with
  | some rest => !rest.contains quote
  | none => false

/-- Does a value start with a quote that occurs only once in the word? -/
def opensValueWith (opening : Text) (quote : Char) (word : Text) : Bool :=
  word.hasInfix ('=' :: opening) && word.count quote == 1

/-- Does the word have an opening bracket after its last closing one, and no quote in front? -/
def opensBracket (word : Text) : Bool :=
  !word.startsIn (fun c => c = '"' || c = '\'') &&
    Text.startsIn (· == '[') (word.reverse.dropWhile fun c => c != '[' && c != ']')

/-- The construct that a word opens. Block parameters only follow a complete argument, and the flag
says whether there is one. -/
def opening? (started : Bool) (word : Text) : Option Construct :=
  if word.startsIn (· == '(') && !word.contains ')' then
    some (.parentheses (word.runAtStart '('))
  else if opensWith ['"'] '"' word then some .doubleQuote
  else if opensWith escapedQuote '\'' word then some .escapedQuote
  else if opensValueWith ['"'] '"' word then some .doubleQuote
  else if opensBracket word then some .bracket
  else if opensValueWith escapedQuote '\'' word then some .escapedQuote
  else if lastOpenRun word != 0 then some (.parentheses (lastOpenRun word))
  else if started && word == "as".toList then some .blockParams
  else none

namespace Construct

/-- A construct that ends with the first word that has its mark at the end. -/
def endingWith (mark : Char) (c : Construct) (word : Text) : Progress :=
  if word.endsWith mark then .closed else .stillOpen c

def step : Construct → Text → Progress
  | doubleQuote, word => endingWith '"' doubleQuote word
  | escapedQuote, word => endingWith '\'' escapedQuote word
  | bracket, word => endingWith ']' bracket word
  | blockParams, word => endingWith '|' blockParams word
  | parentheses depth, word =>
    let opened := depth + openedBy word
    let closed := word.runAtEnd ')'
    if opened < closed then .overclosed
    else if opened = closed then .closed
    else .stillOpen (parentheses (opened - closed))

end Construct

end TemplateTag
