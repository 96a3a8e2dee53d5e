import TemplateTag.Tag.Occurrence
import TemplateTag.Tag.Reading
/-!
# The context of a template

While a template is compiled, its context keeps the settings, the delimiters in force and the report
of all that was read so far. Reading adds to the report and changes nothing else.
-/
namespace TemplateTag

structure Context where
  settings : Settings
  delimiters : Delimiters
  report : Report := {}

namespace Context

/-- The delimiters that a template starts with. -/
def usualDelimiters (d : Dialect) : Delimiters :=
  .build d.rawBlocks false "\x7b\x7b".toList "\x7d\x7d".toList

/-- A new context without registered helpers. -/
def ofDialect (d : Dialect) : Context where
  settings := { dialect := d }
  delimiters := usualDelimiters d

def diagnostics (ctx : Context) : List Diagnostic :=
  ctx.report.diagnostics

def usage (ctx : Context) : Usage :=
  ctx.report.usage

def hasErrors (ctx : Context) : Bool :=
  !ctx.diagnostics.isEmpty

def withDialect (ctx : Context) (d : Dialect) : Context :=
  { ctx with settings := { ctx.settings with dialect := d } }

def withRawBlockActive (ctx : Context) (active : Bool) : Context :=
  { ctx with settings := { ctx.settings with rawBlockActive := active } }

def withHelpers (ctx : Context) (hasHelper : Text → Bool) : Context :=
  { ctx with settings := { ctx.settings with hasHelper := hasHelper } }

def withMaxDepth (ctx : Context) (maxDepth : Nat) : Context :=
  { ctx with settings := { ctx.settings with maxDepth := maxDepth } }

/-- Keep the result of a reading and add its report to the context. -/
def absorb {α : Type} (ctx : Context) (reading : Reported α) : α × Context :=
  (reading.value, { ctx with report := ctx.report ++ reading.report })

/-- Set the delimiters, or refuse them with a diagnostic if they are not allowed. -/
def withDelimiters (ctx : Context) (left right : Text) : Context :=
  if Delimiters.isAllowed left right then
    { ctx with
      delimiters :=
        .build ctx.settings.dialect.rawBlocks ctx.settings.rawBlockActive left right }
  else (ctx.absorb (Reported.diagnose (.equalsInDelimiter left right))).2

def firstTag? (ctx : Context) (t : Text) : Option Occurrence :=
  ctx.delimiters.firstTag? t

def split (ctx : Context) (tag source : Text) : List Text × Context :=
  ctx.absorb (rawArguments ctx.settings.dialect false tag source)

def readValue (ctx : Context) (position : Position) (source : Text) : Argument × Context :=
  ctx.absorb (TemplateTag.readValue ctx.settings.dialect position source)

def readSubexpression (ctx : Context) (source : Text) : Argument × Context :=
  ctx.absorb (ctx.settings.readSubexpression source)

def readTag (ctx : Context) (tag : Tag) : TagReading × Context :=
  ctx.absorb (ctx.settings.readTag tag)

/-- The messages of all diagnostics, if there are any. -/
def errorMessages? (ctx : Context) : Option (List Text) :=
  if ctx.hasErrors then some (ctx.diagnostics.map Diagnostic.message) else none

end Context

end TemplateTag
