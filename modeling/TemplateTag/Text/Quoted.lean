import TemplateTag.Text.Basic
/-!
# Quoted text

A text as a double-quoted literal. A quote, a backslash, a newline, a tab and a carriage return are
written as a backslash and a letter, and every other character stands for itself.
-/
namespace TemplateTag.Text

/-- The letter that stands after the backslash for a character that cannot stand for itself. -/
def escapeLetter? (c : Char) : Option Char :=
  if c = '\\' then some '\\'
  else if c = '"' then some '"'
  else if c = '\n' then some 'n'
  else if c = '\r' then some 'r'
  else if c = '\t' then some 't'
  else none

def escapeChar (c : Char) : Text :=
  match escapeLetter? c with
  | some letter => ['\\', letter]
  | none => [c]

/-- The text between quotes. -/
def quote (t : Text) : Text :=
  '"' :: t.flatMap escapeChar ++ ['"']

end TemplateTag.Text
