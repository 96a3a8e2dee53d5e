import TemplateTag.Invocation.Literal
/-!
# Tokens of the host language

A text is read as lexemes, with blanks and comments left out, and brackets are paired up. A pair of
brackets and all between them is one token.
-/
namespace TemplateTag.Invocation

inductive Token where
  /-- An identifier or a keyword. A raw identifier keeps its mark. -/
  | word (name : Text)
  | text (content : Text)
  /-- A literal that is no text. -/
  | literal
  | punctuation (c : Char)
  | group
  deriving DecidableEq

inductive Lexeme where
  | opening (bracket : Char)
  | closing (bracket : Char)
  | token (t : Token)
  deriving DecidableEq

namespace Lexeme

/-- Is the character a blank between tokens? The two marks of direction are. -/
def isSpace (c : Char) : Bool :=
  isBlank c || c.toNat = 0x200E || c.toNat = 0x200F

/-- The content of a block comment and the text after it. Comments nest, and `depth` more than the
first are open. -/
def blockComment? : (depth : Nat) → Text → Option (Text × Text)
  | _, [] => none
  | depth, '/' :: '*' :: t =>
    (blockComment? (depth + 1) t).map fun (content, rest) => ('/' :: '*' :: content, rest)
  | 0, '*' :: '/' :: t => some ([], t)
  | depth + 1, '*' :: '/' :: t =>
    (blockComment? depth t).map fun (content, rest) => ('*' :: '/' :: content, rest)
  | depth, c :: t => (blockComment? depth t).map fun (content, rest) => (c :: content, rest)

/-- Does a carriage return stand without a newline after it? -/
def hasBareReturn : Text → Bool
  | [] => false
  | '\r' :: '\n' :: t => hasBareReturn t
  | c :: t => c = '\r' || hasBareReturn t

/-- The lexemes that stand for a documentation comment. -/
def documentation (inner : Bool) : List Lexeme :=
  .token (.punctuation '#') ::
    ((if inner then [.token (.punctuation '!')] else []) ++ [.token .group])

/-- A documentation comment with the given content, and the text after it. -/
def documented? (inner : Bool) (content rest : Text) : Option (List Lexeme × Text) :=
  if hasBareReturn content then none else some (documentation inner, rest)

/-- A line that ends before its newline, and the text from there on. -/
def splitLine (t : Text) : Text × Text :=
  let line := t.takeWhile (· != '\n')
  let rest := t.dropWhile (· != '\n')
  (if !rest.isEmpty && Text.endsWith line '\r' then line.dropLast else line, rest)

/-- A comment, and the text after it. Comments that document stand for lexemes. -/
def comment? : Text → Option (List Lexeme × Text)
  | '/' :: '/' :: '/' :: '/' :: t => some ([], (splitLine t).2)
  | '/' :: '/' :: '/' :: t => documented? false (splitLine t).1 (splitLine t).2
  | '/' :: '/' :: '!' :: t => documented? true (splitLine t).1 (splitLine t).2
  | '/' :: '/' :: t => some ([], (splitLine t).2)
  | '/' :: '*' :: '*' :: '/' :: t => some ([], t)
  | '/' :: '*' :: '*' :: '*' :: t => (blockComment? 0 ('*' :: '*' :: t)).map ([], ·.2)
  | '/' :: '*' :: '*' :: t => do
    let (content, rest) ← blockComment? 0 t
    documented? false content rest
  | '/' :: '*' :: '!' :: t => do
    let (content, rest) ← blockComment? 0 t
    documented? true content rest
  | '/' :: '*' :: t => (blockComment? 0 t).map ([], ·.2)
  | _ => none

def isPunctuation (c : Char) : Bool :=
  "~!@#$%^&*-=+|;:,<.>/?'".toList.contains c

/-- The names that cannot be made identifiers by a raw mark. -/
def neverRaw : List Text :=
  ["_".toList, "super".toList, "self".toList, "Self".toList, "crate".toList]

/-- An identifier with its raw mark, and the text after it. -/
def identifier? (t : Text) : Option (Text × Text) :=
  let name (t : Text) : Option (Text × Text) :=
    if t.startsIn isIdentifierStart then
      some (t.takeWhile isIdentifierContinue, t.dropWhile isIdentifierContinue)
    else none
  match t with
  | 'r' :: '#' :: t => do
    let (n, rest) ← name t
    if neverRaw.contains n then none else some ('r' :: '#' :: n, rest)
  | t => name t

/-- The beginnings that only a literal can have. -/
def literalMarks : List Text :=
  ["r\"".toList, "r#\"".toList, "r##".toList, "b\"".toList, "b'".toList, "br\"".toList,
    "br#".toList, "c\"".toList, "cr\"".toList, "cr#".toList]

/-- Punctuation, and the text after it. A quote must start the name of a lifetime. -/
def punctuation? : Text → Option (Char × Text)
  | '\'' :: t =>
    match identifier? t with
    | none => none
    | some (_, rest) =>
      if rest.startsIn (· == '\'') ||
          (rest.startsIn (· == '#') && !"r#".toList.isPrefixOf t) then none
      else some ('\'', t)
  | '/' :: '/' :: _ => none
  | '/' :: '*' :: _ => none
  | c :: t => if isPunctuation c then some (c, t) else none
  | [] => none

/-- A token that is no bracket, and the text after it. -/
def token? (t : Text) : Option (Token × Text) :=
  match quoted? t with
  | some (some content, rest) => some (.text content, rest)
  | some (none, rest) => some (.literal, rest)
  | none =>
    match number? t with
    | some rest => some (.literal, rest)
    | none =>
      match punctuation? t with
      | some (c, rest) => some (.punctuation c, rest)
      | none =>
        if literalMarks.any (·.isPrefixOf t) then none
        else (identifier? t).map fun (name, rest) => (.word name, rest)

/-- What a text starts with: a blank, a comment, a bracket or another token. -/
def next? : Text → Option (List Lexeme × Text)
  | [] => none
  | c :: t =>
    if isSpace c then some ([], t)
    else if "([\x7b".toList.contains c then some ([.opening c], t)
    else if ")]\x7d".toList.contains c then some ([.closing c], t)
    else (comment? (c :: t)).or ((token? (c :: t)).map fun (found, rest) => ([.token found], rest))

/-- The lexemes of a text, read in at most `fuel` steps. -/
def scan? : (fuel : Nat) → Text → Option (List Lexeme)
  | _, [] => some []
  | 0, _ :: _ => none
  | fuel + 1, c :: t => do
    let (lexemes, rest) ← next? (c :: t)
    return lexemes ++ (← scan? fuel rest)

/-- The lexemes of a text. A byte order mark in front is left out. -/
def ofText? : Text → Option (List Lexeme)
  | [] => some []
  | c :: t => if c.toNat = 0xFEFF then scan? t.length t else scan? (t.length + 1) (c :: t)

end Lexeme

namespace Token

/-- Do the two brackets make a pair? -/
def pairs (opening closing : Char) : Bool :=
  (opening, closing) ∈ [('(', ')'), ('[', ']'), ('\x7b', '\x7d')]

/-- The tokens of lexemes that stand inside the given open brackets, the innermost first. Only what
stands outside all of them makes a token of its own. -/
def ofLexemes? : (stack : List Char) → List Lexeme → Option (List Token)
  | [], [] => some []
  | _ :: _, [] => none
  | [], .opening c :: rest => (ofLexemes? [c] rest).map (.group :: ·)
  | stack, .opening c :: rest => ofLexemes? (c :: stack) rest
  | [], .closing _ :: _ => none
  | opening :: stack, .closing c :: rest =>
    if pairs opening c then ofLexemes? stack rest else none
  | [], .token t :: rest => (ofLexemes? [] rest).map (t :: ·)
  | stack, .token _ :: rest => ofLexemes? stack rest

/-- The tokens of a text, if it is made of tokens and its brackets pair up. -/
def ofText? (t : Text) : Option (List Token) :=
  (Lexeme.ofText? t).bind (ofLexemes? [])

end Token

end TemplateTag.Invocation
