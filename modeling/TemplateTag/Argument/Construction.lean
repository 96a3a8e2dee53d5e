import TemplateTag.Argument.Basic
import TemplateTag.Text.Quoted
/-!
# Construction code

The text of an expression that builds an argument list again when the compiled template runs: a
block that starts from an empty list, adds the arguments in order and yields the list. The tokens of
the code are separated by single spaces.
-/
namespace TemplateTag.Construction

/-- An owned string of the given content. -/
def ownedString (t : Text) : Text :=
  t.quote ++ " . to_string ()".toList

/-- A vector of the given elements. -/
def vector (elements : List Text) : Text :=
  "vec ! [".toList ++ " , ".toList.intercalate elements ++ "]".toList

def ofSegment : Segment → Text
  | .current => ":: hbs_args :: Segment :: Current".toList
  | .name n => ":: hbs_args :: Segment :: Name (".toList ++ ownedString n ++ ")".toList

def ofKind : LiteralKind → Text
  | .number => ":: hbs_args :: LiteralKind :: Number".toList
  | .string => ":: hbs_args :: LiteralKind :: String".toList
  | .keyword => ":: hbs_args :: LiteralKind :: Keyword".toList

/-- The statement that sets the block parameters, if there are any to set. -/
def ofBlockParams : Option (List Text) → Text
  | none => []
  | some names =>
    " list . set_block_params (".toList ++ vector (names.map ownedString) ++ ") ;".toList

mutual

/-- The expression for one argument. -/
def ofArgument : Argument → Text
  | .path levels segments =>
    ":: hbs_args :: ParsedArgument :: Path \x7b levels : ".toList ++ Nat.toDigits 10 levels ++
      "usize , segments : ".toList ++ vector (segments.map ofSegment) ++ " , \x7d".toList
  | .literal kind text =>
    ":: hbs_args :: ParsedArgument :: Literal \x7b kind : ".toList ++ ofKind kind ++
      " , text : ".toList ++ ownedString text ++ " \x7d".toList
  | .subexpression source args =>
    ":: hbs_args :: ParsedArgument :: SubExpression (".toList ++
      ":: hbs_args :: SubExpression \x7b args : ".toList ++ ofList args ++ " , source : ".toList ++
      ownedString source ++ " , \x7d)".toList

/-- The block that builds an argument list. -/
def ofList : Arguments Argument → Text
  | ⟨positional, named, blockParams⟩ =>
    "\x7b let mut list = :: hbs_args :: ArgumentList :: new () ;".toList ++
      pushes positional ++ insertions named ++ ofBlockParams blockParams ++ " list \x7d".toList

/-- The statements that add the positional arguments. -/
def pushes : List Argument → Text
  | [] => []
  | a :: rest =>
    " list . push_positional (".toList ++ ofArgument a ++ ") ;".toList ++ pushes rest

/-- The statements that add the named arguments. -/
def insertions : List (Text × Argument) → Text
  | [] => []
  | (name, a) :: rest =>
    " list . insert_named (".toList ++ name.quote ++ " , ".toList ++ ofArgument a ++ ") ;".toList ++
      insertions rest

end

end TemplateTag.Construction
