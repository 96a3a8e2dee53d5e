import TemplateTag.Text.Identifier
/-!
# Literals of the host language

A template is handed over as a literal of the language that the compiler is called from. A reader
takes a literal off the front of a text and gives the rest; for texts it also gives the content.
-/
namespace TemplateTag.Invocation

/-- What a quoted literal is made of. -/
inductive Content where
  | text
  | bytes
  /-- A text that a zero character ends, and that has none inside. -/
  | terminated
  deriving DecidableEq

/-- Can the character stand for itself in a quoted literal? -/
def Content.allows (k : Content) (c : Char) : Bool :=
  match k with
  | text => true
  | bytes => c.toNat < 0x80
  | terminated => c.toNat != 0

def hexDigit? (c : Char) : Option Nat :=
  if c.isDigit then some (c.toNat - '0'.toNat)
  else if 'a' ≤ c ∧ c ≤ 'f' then some (c.toNat - 'a'.toNat + 10)
  else if 'A' ≤ c ∧ c ≤ 'F' then some (c.toNat - 'A'.toNat + 10)
  else none

/-- The character of a code point that is one. -/
def charOfNat? (n : Nat) : Option Char :=
  if n.isValidChar then some (Char.ofNat n) else none

/-- The two hexadecimal digits of an escape. -/
def hexEscape? (k : Content) : Text → Option (Char × Text)
  | a :: b :: t => do
    let n := 16 * (← hexDigit? a) + (← hexDigit? b)
    let fits : Bool :=
      match k with
      | .text => n < 0x80
      | .bytes => true
      | .terminated => n != 0
    if fits then some (Char.ofNat n, t) else none
  | _ => none

/-- The rest of a code point in braces, after the digits with the given value. One to six digits
make a code point, and underscores may follow the first. -/
def codePoint? : (value count : Nat) → Text → Option (Char × Text)
  | _, _, [] => none
  | value, count, c :: t =>
    if c = '_' && 0 < count then codePoint? value count t
    else if c = '\x7d' && 0 < count then (charOfNat? value).map (·, t)
    else
      match hexDigit? c with
      | some digit => if count < 6 then codePoint? (16 * value + digit) (count + 1) t else none
      | none => none

/-- The escape after a backslash. -/
def escape? (k : Content) : Text → Option (Char × Text)
  | 'n' :: t => some ('\n', t)
  | 'r' :: t => some ('\r', t)
  | 't' :: t => some ('\t', t)
  | '\\' :: t => some ('\\', t)
  | '\'' :: t => some ('\'', t)
  | '"' :: t => some ('"', t)
  | '0' :: t => if k = .terminated then none else some (Char.ofNat 0, t)
  | 'x' :: t => hexEscape? k t
  | 'u' :: '\x7b' :: t =>
    match k with
    | .bytes => none
    | .text => codePoint? 0 0 t
    | .terminated => (codePoint? 0 0 t).filter fun (c, _) => c.toNat != 0
  | _ => none

/-- Skip the blanks at the start of a continued line. A carriage return needs its newline. -/
def skipIndent? : Text → Option Text
  | '\r' :: '\n' :: t => skipIndent? t
  | '\r' :: _ => none
  | c :: t => if c = ' ' || c = '\t' || c = '\n' then skipIndent? t else some (c :: t)
  | [] => none

/-- The rest of a quoted literal. A backslash at the end of a line leaves out the newline and the
indentation of the next line. -/
def cooked? (k : Content) : (fuel : Nat) → Text → Option (Text × Text)
  | 0, _ => none
  | _ + 1, [] => none
  | _ + 1, '"' :: t => some ([], t)
  | fuel + 1, '\\' :: '\n' :: t => do cooked? k fuel (← skipIndent? t)
  | fuel + 1, '\\' :: '\r' :: '\n' :: t => do cooked? k fuel (← skipIndent? t)
  | fuel + 1, '\\' :: t => do
    let (c, t) ← escape? k t
    let (content, rest) ← cooked? k fuel t
    return (c :: content, rest)
  | fuel + 1, '\r' :: '\n' :: t => do
    let (content, rest) ← cooked? k fuel t
    return ('\n' :: content, rest)
  | _ + 1, '\r' :: _ => none
  | fuel + 1, c :: t =>
    if k.allows c then do
      let (content, rest) ← cooked? k fuel t
      return (c :: content, rest)
    else none

/-- The rest of a raw literal that ends with a quote and the given mark. -/
def rawBody? (k : Content) (mark : Text) : Text → Option (Text × Text)
  | [] => none
  | '"' :: t =>
    match mark.isPrefixOf? t with
    | some rest => some ([], rest)
    | none => (rawBody? k mark t).map fun (content, rest) => ('"' :: content, rest)
  | '\r' :: '\n' :: t =>
    (rawBody? k mark t).map fun (content, rest) => ('\r' :: '\n' :: content, rest)
  | '\r' :: _ => none
  | c :: t =>
    if k.allows c then (rawBody? k mark t).map fun (content, rest) => (c :: content, rest) else none

/-- The rest of a raw literal from its number signs on, of which there are at most 255. -/
def raw? (k : Content) (t : Text) : Option (Text × Text) :=
  let mark := t.takeWhile (· == '#')
  match t.dropWhile (· == '#') with
  | '"' :: t => if mark.length ≤ 255 then rawBody? k mark t else none
  | _ => none

/-- The text after an identifier at its front, if there is one. -/
def dropIdentifier (t : Text) : Text :=
  if Text.startsIn isIdentifierStart t then t.dropWhile isIdentifierContinue else t

/-- The rest of a literal of one character, from the character on. -/
def character? (k : Content) : Text → Option Text
  | '\\' :: t =>
    match escape? k t with
    | some (_, '\'' :: rest) => some rest
    | _ => none
  | c :: '\'' :: rest => if k.allows c then some rest else none
  | _ => none

/-- A literal with quotes: the content of a text, nothing for any other, and the rest. -/
def quoted? (t : Text) : Option (Option Text × Text) :=
  let contentOf (r : Option (Text × Text)) : Option (Option Text × Text) :=
    r.map fun (content, rest) => (some content, dropIdentifier rest)
  let skip (r : Option Text) : Option (Option Text × Text) :=
    r.map fun rest => (none, dropIdentifier rest)
  match t with
  | '"' :: t => contentOf (cooked? .text (t.length + 1) t)
  | 'r' :: t => contentOf (raw? .text t)
  | 'b' :: '"' :: t => skip ((cooked? .bytes (t.length + 1) t).map (·.2))
  | 'b' :: 'r' :: t => skip ((raw? .bytes t).map (·.2))
  | 'c' :: '"' :: t => skip ((cooked? .terminated (t.length + 1) t).map (·.2))
  | 'c' :: 'r' :: t => skip ((raw? .terminated t).map (·.2))
  | 'b' :: '\'' :: t => skip (character? .bytes t)
  | '\'' :: t => skip (character? .text t)
  | _ => none

def isDigitOrUnderscore (c : Char) : Bool :=
  c.isDigit || c = '_'

/-- The text after the exponent of a number, if the exponent has a digit. -/
def exponentEnd? : (signed : Bool) → Text → Option Text
  | _, [] => none
  | signed, c :: t =>
    if c = '+' || c = '-' then if signed then none else exponentEnd? true t
    else if c.isDigit then some (t.dropWhile isDigitOrUnderscore)
    else if c = '_' then exponentEnd? signed t
    else none

/-- The text after a number with a point or an exponent. -/
def fractionalEnd? (t : Text) : Option Text :=
  if !t.startsIn Char.isDigit then none
  else
    match t.dropWhile isDigitOrUnderscore with
    | '.' :: t =>
      if Text.startsIn (fun c => c = '.' || isIdentifierStart c) t then none
      else
        match t.dropWhile isDigitOrUnderscore with
        | c :: t =>
          if c = 'e' || c = 'E' then (exponentEnd? false t).or (some (c :: t)) else some (c :: t)
        | [] => some []
    | c :: t => if c = 'e' || c = 'E' then exponentEnd? false t else none
    | [] => none

/-- The text after digits of the base. The flag says whether a digit is still missing. -/
def digitsEnd? (base : Nat) : (missing : Bool) → Text → Option Text
  | missing, [] => if missing then none else some []
  | missing, c :: t =>
    if c.isDigit then if c.toNat - '0'.toNat < base then digitsEnd? base false t else none
    else if base = 16 && (hexDigit? c).isSome then digitsEnd? base false t
    else if c = '_' then if missing && base = 10 then none else digitsEnd? base missing t
    else if missing then none
    else some (c :: t)

def integerEnd? : Text → Option Text
  | '0' :: 'x' :: t => digitsEnd? 16 true t
  | '0' :: 'o' :: t => digitsEnd? 8 true t
  | '0' :: 'b' :: t => digitsEnd? 2 true t
  | t => digitsEnd? 10 true t

/-- The text after a number and its suffix. No character of an identifier may follow. -/
def number? (t : Text) : Option Text :=
  let finish (t : Text) : Option Text :=
    let rest := dropIdentifier t
    if rest.startsIn isIdentifierContinue then none else some rest
  ((fractionalEnd? t).bind finish).or ((integerEnd? t).bind finish)

end TemplateTag.Invocation
