import TemplateTag.Dialect
import TemplateTag.Invocation.Token
/-!
# Invocations

A call of the compiler from the host language: a template as a text literal, and before it, if
wanted, the name of a dialect and a comma.
-/
namespace TemplateTag

structure Invocation where
  dialect : Dialect
  content : Text
  deriving DecidableEq

namespace Invocation

/-- What is wrong with an invocation. -/
inductive Fault where
  | notTokens
  | missingComma
  | unknownDialect (name : Text)
  /-- There is a token where the literal should be, and it is no text. -/
  | noText
  /-- There is nothing where the literal should be. -/
  | nothing
  | leftover
  deriving DecidableEq

def Fault.message : Fault → Text
  | notTokens => "cannot parse string into token stream".toList
  | missingComma => "expected `,`".toList
  | unknownDialect name =>
    "unknown dialect ".toList ++ name ++ ", expected handlebars or mustache".toList
  | noText => "expected string literal".toList
  | nothing => "unexpected end of input, expected string literal".toList
  | leftover => "unexpected token".toList

/-- The words that name nothing in the host language. -/
def reserved : List Text :=
  ["_", "abstract", "as", "async", "await", "become", "box", "break", "const", "continue", "crate",
    "do", "dyn", "else", "enum", "extern", "false", "final", "fn", "for", "if", "impl", "in", "let",
    "loop", "macro", "match", "mod", "move", "mut", "override", "priv", "pub", "ref", "return",
    "Self", "self", "static", "struct", "super", "trait", "true", "try", "type", "typeof", "unsafe",
    "unsized", "use", "virtual", "where", "while", "yield"].map String.toList

/-- The dialect of an invocation that names none. Helpers are not known when it is compiled, so that
every helper can be called. -/
def defaultDialect : Dialect :=
  { Dialect.handlebars with arbitraryHelpers := true }

def dialectNamed? (name : Text) : Option Dialect :=
  if name = "handlebars".toList then some defaultDialect
  else if name = "mustache".toList then some .mustache
  else none

/-- Read the literal of an invocation. Nothing may follow it. -/
def ofLiteral (d : Dialect) : List Token → Except Fault Invocation
  | [.text content] => .ok { dialect := d, content }
  | .text _ :: _ :: _ => .error .leftover
  | [] => .error .nothing
  | _ => .error .noText

/-- Read an invocation. The name of the dialect is looked up only after the comma was found. -/
def ofTokens : List Token → Except Fault Invocation
  | .word name :: rest =>
    if reserved.contains name then .error .noText
    else
      match rest with
      | .punctuation ',' :: rest =>
        match dialectNamed? name with
        | some d => ofLiteral d rest
        | none => .error (.unknownDialect name)
      | _ => .error .missingComma
  | tokens => ofLiteral defaultDialect tokens

/-- Read a text as an invocation. -/
def ofText (t : Text) : Except Fault Invocation :=
  match Token.ofText? t with
  | none => .error .notTokens
  | some tokens => ofTokens tokens

end Invocation

end TemplateTag
