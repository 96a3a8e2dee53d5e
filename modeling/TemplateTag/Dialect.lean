/-!
# Dialects

The features of the tag language that a template compiler can switch on and off one by one, and the
two usual selections of them.
-/
namespace TemplateTag

/-- Which features of the tag language are in force. -/
structure Dialect where
  /-- Quoted texts, bracketed names, subexpressions and block parameters hold words together, and
  names are checked. -/
  advancedVariables : Bool := false
  /-- The path `this` means the current context. -/
  implicitThis : Bool := false
  /-- Paths after the first argument are handed over as strings. -/
  stringParams : Bool := false
  /-- An argument can be given by name, as `name=value`. -/
  namedArguments : Bool := false
  /-- A subexpression can call a helper that is not registered. -/
  arbitraryHelpers : Bool := false
  /-- All output is raw. -/
  noEscape : Bool := false
  /-- A path can leave the current context with `../`. -/
  parentAccess : Bool := false
  /-- A tag can have up to two braces inside its delimiters, not only one. -/
  rawBlocks : Bool := false
  deriving DecidableEq

namespace Dialect

def handlebars : Dialect where
  advancedVariables := true
  implicitThis := true
  namedArguments := true
  parentAccess := true
  rawBlocks := true

def mustache : Dialect where
  implicitThis := true
  parentAccess := true

end Dialect

end TemplateTag
