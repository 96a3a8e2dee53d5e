import TemplateTag.Argument.Construction
import TemplateTag.Invocation.Literal
import TemplateTag.Proofs.Construction.Program
import TemplateTag.Proofs.Text.Search
/-!
# Reading construction code

A reader takes a piece of code off the front of a text and gives the text after it. String literals
are read by the rules of the host language (`Invocation.cooked?`). Each piece that the printer
writes is read back whatever comes after it (`Reads`). So a block is read as the program for its
list, and running the program gives the list (`build?_ofList`).
-/
namespace TemplateTag.Construction

section Reads

variable {α β γ : Type}

/-- The code stands for the value, whatever comes after it. -/
def Reads (read? : Text → Option (α × Text)) (code : Text) (a : α) : Prop :=
  ∀ rest, read? (code ++ rest) = some (a, rest)

variable {read? other? : Text → Option (α × Text)} {code : Text} {a : α}

theorem Reads.eq (h : Reads read? code a) (rest : Text) :
    read? (code ++ rest) = some (a, rest) :=
  h rest

theorem Reads.or_left (h : Reads read? code a) :
    Reads (fun t => (read? t).or (other? t)) code a := by
  intro rest
  simp only [h.eq, Option.some_or]

theorem Reads.or_right (hnone : ∀ rest, other? (code ++ rest) = none) (h : Reads read? code a) :
    Reads (fun t => (other? t).or (read? t)) code a := by
  intro rest
  simp only [hnone, Option.none_or, h.eq]

/-- The text after a mark at its front. -/
def expect? (mark t : Text) : Option Text :=
  mark.isPrefixOf? t

theorem expect?_append (mark rest : Text) : expect? mark (mark ++ rest) = some rest :=
  Text.isPrefixOf?_eq_some.mpr rfl

/-- A mark that stands for a value. -/
def mark? (mark : Text) (a : α) (t : Text) : Option (α × Text) :=
  (expect? mark t).map (a, ·)

theorem reads_mark? (mark : Text) (a : α) : Reads (mark? mark a) mark a := by
  intro rest
  rw [mark?, expect?_append, Option.map_some]

/-- What is made of one value between two marks. -/
def single? (make : α → β) (opening : Text) (read? : Text → Option (α × Text)) (closing : Text)
    (t : Text) : Option (β × Text) := do
  let t ← expect? opening t
  let (a, t) ← read? t
  let t ← expect? closing t
  return (make a, t)

theorem reads_single? (make : α → β) (opening closing : Text) (h : Reads read? code a) :
    Reads (single? make opening read? closing) (opening ++ code ++ closing) (make a) := by
  intro rest
  simp only [single?, List.append_assoc, expect?_append, h.eq, Option.bind_eq_bind,
    Option.bind_some, Option.pure_def]

/-- What is made of two values, with marks around and between them. -/
def pair? (make : α → β → γ) (opening : Text) (first? : Text → Option (α × Text)) (middle : Text)
    (second? : Text → Option (β × Text)) (closing : Text) (t : Text) : Option (γ × Text) := do
  let t ← expect? opening t
  let (a, t) ← first? t
  let t ← expect? middle t
  let (b, t) ← second? t
  let t ← expect? closing t
  return (make a b, t)

theorem reads_pair? (make : α → β → γ) (opening middle closing : Text) (h : Reads read? code a)
    {second? : Text → Option (β × Text)} {code' : Text} {b : β} (h' : Reads second? code' b) :
    Reads (pair? make opening read? middle second? closing)
      (opening ++ code ++ middle ++ code' ++ closing) (make a b) := by
  intro rest
  simp only [pair?, List.append_assoc, expect?_append, h.eq, h'.eq, Option.bind_eq_bind,
    Option.bind_some, Option.pure_def]

end Reads

/-- A string literal. -/
def stringLiteral? : Text → Option (Text × Text)
  | '"' :: t => Invocation.cooked? .text (t.length + 1) t
  | _ => none

section StringLiterals

open Invocation (cooked?)

theorem cooked?_escapeChar (fuel : Nat) (c : Char) (t : Text) :
    cooked? .text (fuel + 1) (Text.escapeChar c ++ t) =
      (cooked? .text fuel t).bind fun (content, rest) => some (c :: content, rest) := by
  by_cases hbackslash : c = '\\'
  · subst hbackslash
    rfl
  by_cases hquote : c = '"'
  · subst hquote
    rfl
  by_cases hnewline : c = '\n'
  · subst hnewline
    rfl
  by_cases hreturn : c = '\r'
  · subst hreturn
    rfl
  by_cases htab : c = '\t'
  · subst htab
    rfl
  · have hletter : Text.escapeLetter? c = none := by
      simp only [Text.escapeLetter?, hbackslash, hquote, hnewline, hreturn, htab, if_false]
    rw [Text.escapeChar, hletter]
    simp [cooked?, hbackslash, hreturn, Invocation.Content.allows]

theorem length_escapeChar_pos (c : Char) : 0 < (Text.escapeChar c).length := by
  rw [Text.escapeChar]
  split <;> simp

theorem cooked?_flatMap_escapeChar (t rest : Text) {fuel : Nat}
    (h : (t.flatMap Text.escapeChar ++ '"' :: rest).length ≤ fuel) :
    cooked? .text fuel (t.flatMap Text.escapeChar ++ '"' :: rest) = some (t, rest) := by
  induction t generalizing fuel with
  | nil =>
    obtain ⟨fuel, rfl⟩ := Nat.exists_eq_add_of_lt h
    rfl
  | cons c t ih =>
    have hc := length_escapeChar_pos c
    rw [List.flatMap_cons, List.append_assoc] at h ⊢
    rw [List.length_append] at h
    obtain ⟨fuel, rfl⟩ : ∃ fuel', fuel = fuel' + 1 := Nat.exists_eq_add_of_le' (by omega)
    rw [cooked?_escapeChar, ih (by omega), Option.bind_some]

theorem reads_stringLiteral? (t : Text) : Reads stringLiteral? t.quote t := by
  intro rest
  rw [Text.quote, List.cons_append, List.cons_append, stringLiteral?, List.append_assoc]
  exact cooked?_flatMap_escapeChar t rest (Nat.le_succ _)

end StringLiterals

def ownedString? : Text → Option (Text × Text) :=
  single? id [] stringLiteral? " . to_string ()".toList

theorem reads_ownedString? (t : Text) : Reads ownedString? (ownedString t) t :=
  reads_single? id [] _ (reads_stringLiteral? t)

/-- A number of the type of sizes. -/
def size? (t : Text) : Option (Nat × Text) :=
  let digits := t.takeWhile Char.isDigit
  if digits.isEmpty then none
  else mark? "usize".toList (Nat.ofDigitChars 10 digits 0) (t.dropWhile Char.isDigit)

theorem reads_size? (n : Nat) : Reads size? (Nat.toDigits 10 n ++ "usize".toList) n := by
  intro rest
  have hdigits : ∀ c ∈ Nat.toDigits 10 n, c.isDigit = true := fun c hc =>
    Nat.isDigit_of_mem_toDigits (by decide) (Nat.le_refl 10) hc
  have htake : (Nat.toDigits 10 n ++ "usize".toList ++ rest).takeWhile Char.isDigit =
      Nat.toDigits 10 n := by
    rw [List.append_assoc, List.takeWhile_append_of_pos hdigits]
    exact List.append_nil _
  have hdrop : (Nat.toDigits 10 n ++ "usize".toList ++ rest).dropWhile Char.isDigit =
      "usize".toList ++ rest := by
    rw [List.append_assoc, List.dropWhile_append_of_pos hdigits]
    rfl
  have hne : (Nat.toDigits 10 n).isEmpty = false := by
    rw [List.isEmpty_eq_false_iff]
    exact Nat.toDigits_ne_nil
  rw [size?, htake, hdrop, hne, Nat.ofDigitChars_ten_toDigits]
  exact (reads_mark? _ n).eq rest

/-- The elements of a vector up to its end, if there are at most `most`. -/
def elements? {α : Type} (element? : Text → Option (α × Text)) :
    (most : Nat) → Text → Option (List α × Text)
  | 0, _ => none
  | most + 1, t => do
    let (a, t) ← element? t
    (mark? "]".toList [a] t).or do
      let (more, t) ← elements? element? most (← expect? " , ".toList t)
      return (a :: more, t)

def vector? {α : Type} (element? : Text → Option (α × Text)) (t : Text) :
    Option (List α × Text) := do
  let t ← expect? "vec ! [".toList t
  (mark? "]".toList [] t).or (elements? element? t.length t)

section Vectors

variable {α : Type} {element? : Text → Option (α × Text)} {write : α → Text}

/-- A separator takes characters, so that no more steps are needed than there are characters. -/
theorem elements?_append (a : α) (as : List α) (rest : Text)
    (hreads : ∀ b ∈ a :: as, Reads element? (write b) b) {most : Nat}
    (h : (" , ".toList.intercalate ((a :: as).map write) ++ ("]".toList ++ rest)).length ≤ most) :
    elements? element? most
      (" , ".toList.intercalate ((a :: as).map write) ++ ("]".toList ++ rest)) =
        some (a :: as, rest) := by
  have ha := hreads a (List.mem_cons_self ..)
  induction as generalizing a most with
  | nil =>
    rw [List.map_singleton, List.intercalate_singleton] at h ⊢
    have hclosing : "]".toList.length = 1 := rfl
    rw [List.length_append, List.length_append] at h
    obtain ⟨most, rfl⟩ : ∃ most', most = most' + 1 := Nat.exists_eq_add_of_le' (by omega)
    rw [elements?, ha.eq]
    simp only [Option.bind_eq_bind, Option.bind_some]
    rw [(reads_mark? _ [a]).eq, Option.some_or]
  | cons b as ih =>
    have hb := hreads b (List.mem_cons_of_mem a (List.mem_cons_self ..))
    have hseparator : " , ".toList.length = 3 := rfl
    rw [List.map_cons, List.map_cons, List.intercalate_cons_cons, ← List.map_cons,
      List.append_assoc, List.append_assoc] at h ⊢
    rw [List.length_append, List.length_append] at h
    obtain ⟨most, rfl⟩ : ∃ most', most = most' + 1 := Nat.exists_eq_add_of_le' (by omega)
    rw [elements?, ha.eq]
    simp only [Option.bind_eq_bind, Option.bind_some]
    rw [expect?_append, Option.bind_some,
      ih b (fun c hc => hreads c (List.mem_cons_of_mem a hc)) (by omega) hb]
    rfl

theorem reads_vector? {as : List α} (hreads : ∀ a ∈ as, Reads element? (write a) a)
    (hend : ∀ a ∈ as, ∀ rest, expect? "]".toList (write a ++ rest) = none) :
    Reads (vector? element?) (vector (as.map write)) as := by
  intro rest
  change vector? element? ("vec ! [".toList ++ " , ".toList.intercalate (as.map write) ++
    "]".toList ++ rest) = some (as, rest)
  simp only [vector?, List.append_assoc, expect?_append, Option.bind_eq_bind, Option.bind_some]
  cases as with
  | nil => rfl
  | cons a as =>
    have hnotEnd : mark? "]".toList ([] : List α)
        (" , ".toList.intercalate ((a :: as).map write) ++ ("]".toList ++ rest)) = none := by
      have hnone := hend a (List.mem_cons_self ..)
      rw [mark?, Option.map_eq_none_iff]
      cases as with
      | nil => rw [List.map_singleton, List.intercalate_singleton, hnone]
      | cons b as =>
        rw [List.map_cons, List.map_cons, List.intercalate_cons_cons, List.append_assoc,
          List.append_assoc, hnone]
    rw [hnotEnd, Option.none_or]
    exact elements?_append a as rest hreads (Nat.le_refl _)

end Vectors

def segment? (t : Text) : Option (Segment × Text) :=
  (mark? ":: hbs_args :: Segment :: Current".toList .current t).or
    (single? .name ":: hbs_args :: Segment :: Name (".toList ownedString? ")".toList t)

theorem reads_segment? (s : Segment) : Reads segment? (ofSegment s) s := by
  cases s with
  | current => exact (reads_mark? _ _).or_left
  | name n => exact .or_right (fun _ => rfl) (reads_single? _ _ _ (reads_ownedString? n))

def kind? (t : Text) : Option (LiteralKind × Text) :=
  (mark? ":: hbs_args :: LiteralKind :: Number".toList .number t).or <|
    (mark? ":: hbs_args :: LiteralKind :: String".toList .string t).or <|
      mark? ":: hbs_args :: LiteralKind :: Keyword".toList .keyword t

theorem reads_kind? (k : LiteralKind) : Reads kind? (ofKind k) k := by
  cases k with
  | number => exact (reads_mark? _ _).or_left
  | string => exact .or_right (fun _ => rfl) (reads_mark? _ _).or_left
  | keyword => exact .or_right (fun _ => rfl) (.or_right (fun _ => rfl) (reads_mark? _ _))

def path? : Text → Option (Expression × Text) :=
  pair? .path ":: hbs_args :: ParsedArgument :: Path \x7b levels : ".toList size?
    " , segments : ".toList (vector? segment?) " , \x7d".toList

def literal? : Text → Option (Expression × Text) :=
  pair? .literal ":: hbs_args :: ParsedArgument :: Literal \x7b kind : ".toList kind?
    " , text : ".toList ownedString? " \x7d".toList

theorem reads_path? (levels : Nat) (segments : List Segment) :
    Reads path? (ofArgument (.path levels segments)) (.path levels segments) := by
  have hsegments : Reads (vector? segment?) (vector (segments.map ofSegment)) segments := by
    apply reads_vector? fun s _ => reads_segment? s
    intro s _ rest
    cases s <;> rfl
  have hcode : ofArgument (.path levels segments) =
      ":: hbs_args :: ParsedArgument :: Path \x7b levels : ".toList ++
        (Nat.toDigits 10 levels ++ "usize".toList) ++ " , segments : ".toList ++
          vector (segments.map ofSegment) ++ " , \x7d".toList := by
    rw [← List.append_assoc, List.append_assoc _ "usize".toList]
    rfl
  rw [hcode]
  exact reads_pair? _ _ _ _ (reads_size? levels) hsegments

theorem reads_literal? (kind : LiteralKind) (text : Text) :
    Reads literal? (ofArgument (.literal kind text)) (.literal kind text) :=
  reads_pair? _ _ _ _ (reads_kind? kind) (reads_ownedString? text)

/-- How a block starts, with an empty list. -/
def blockOpening : Text :=
  "\x7b let mut list = :: hbs_args :: ArgumentList :: new () ;".toList

/-- How a block ends, with its value. -/
def blockEnd : Text :=
  " list \x7d".toList

section Statements

variable (block? : Text → Option (List Statement × Text))

def subexpression? : Text → Option (Expression × Text) :=
  pair? .subexpression (":: hbs_args :: ParsedArgument :: SubExpression (".toList ++
    ":: hbs_args :: SubExpression \x7b args : ".toList) block? " , source : ".toList ownedString?
    " , \x7d)".toList

def expression? (t : Text) : Option (Expression × Text) :=
  (path? t).or <| (literal? t).or <| subexpression? block? t

/-- The blocks in the argument are read. -/
theorem reads_expression? (a : Argument)
    (h : ∀ source args, a = .subexpression source args →
      Reads block? (ofList args) (Statement.ofList args)) :
    Reads (expression? block?) (ofArgument a) (.ofArgument a) := by
  cases a with
  | path levels segments => exact (reads_path? levels segments).or_left
  | literal kind text => exact .or_right (fun _ => rfl) (reads_literal? kind text).or_left
  | subexpression source args =>
    exact .or_right (fun _ => rfl) <| .or_right (fun _ => rfl) <|
      reads_pair? _ _ _ _ (h source args rfl) (reads_ownedString? source)

def push? : Text → Option (Statement × Text) :=
  single? .push " list . push_positional (".toList (expression? block?) ") ;".toList

def insert? : Text → Option (Statement × Text) :=
  pair? .insert " list . insert_named (".toList stringLiteral? " , ".toList (expression? block?)
    ") ;".toList

def setBlockParams? : Text → Option (Statement × Text) :=
  single? .setBlockParams " list . set_block_params (".toList (vector? ownedString?) ") ;".toList

def statement? (t : Text) : Option (Statement × Text) :=
  (push? block? t).or <| (insert? block? t).or <| setBlockParams? t

/-- The statements of a block up to its value, if there are at most `most`. -/
def statements? : (most : Nat) → Text → Option (List Statement × Text)
  | 0, _ => none
  | most + 1, t =>
    (mark? blockEnd [] t).or do
      let (s, t) ← statement? block? t
      let (more, t) ← statements? most t
      return (s :: more, t)

end Statements

section Pieces

/-- The statement that adds a positional argument. -/
def pushCode (a : Argument) : Text :=
  " list . push_positional (".toList ++ ofArgument a ++ ") ;".toList

/-- The statement that adds a named argument. -/
def insertionCode (p : Text × Argument) : Text :=
  " list . insert_named (".toList ++ p.1.quote ++ " , ".toList ++ ofArgument p.2 ++ ") ;".toList

def blockParamsCode (names : List Text) : Text :=
  " list . set_block_params (".toList ++ vector (names.map ownedString) ++ ") ;".toList

theorem pushes_eq_flatMap (positional : List Argument) :
    pushes positional = positional.flatMap pushCode := by
  induction positional with
  | nil => rfl
  | cons a positional ih =>
    rw [List.flatMap_cons, ← ih]
    rfl

theorem insertions_eq_flatMap (named : List (Text × Argument)) :
    insertions named = named.flatMap insertionCode := by
  induction named with
  | nil => rfl
  | cons p named ih =>
    rw [List.flatMap_cons, ← ih]
    rfl

theorem ofBlockParams_eq_flatMap (blockParams : Option (List Text)) :
    ofBlockParams blockParams = blockParams.toList.flatMap blockParamsCode := by
  cases blockParams with
  | none => rfl
  | some names => exact (List.flatMap_singleton ..).symm

theorem ofList_eq (l : ArgumentList) :
    ofList l = blockOpening ++ (l.positional.flatMap pushCode ++
      (l.named.flatMap insertionCode ++
        (l.blockParams.toList.flatMap blockParamsCode ++ blockEnd))) := by
  obtain ⟨positional, named, blockParams⟩ := l
  rw [← pushes_eq_flatMap, ← insertions_eq_flatMap, ← ofBlockParams_eq_flatMap]
  simp only [← List.append_assoc]
  rfl

end Pieces

section Statements

variable {block? : Text → Option (List Statement × Text)}

theorem reads_statement?_push {a : Argument}
    (h : Reads (expression? block?) (ofArgument a) (.ofArgument a)) :
    Reads (statement? block?) (pushCode a) (.push (.ofArgument a)) :=
  (reads_single? _ _ _ h).or_left

theorem reads_statement?_insert {p : Text × Argument}
    (h : Reads (expression? block?) (ofArgument p.2) (.ofArgument p.2)) :
    Reads (statement? block?) (insertionCode p) (.insert p.1 (.ofArgument p.2)) :=
  .or_right (fun _ => rfl) (reads_pair? _ _ _ _ (reads_stringLiteral? p.1) h).or_left

theorem reads_statement?_setBlockParams (names : List Text) :
    Reads (statement? block?) (blockParamsCode names) (.setBlockParams names) := by
  have hnames : Reads (vector? ownedString?) (vector (names.map ownedString)) names :=
    reads_vector? (fun name _ => reads_ownedString? name) fun _ _ _ => rfl
  exact .or_right (fun _ => rfl) <| .or_right (fun _ => rfl) <| reads_single? _ _ _ hnames

/-- The text is what is left of a block, with these statements, and the rest comes after it. As
every statement has characters, no more steps are needed than the text has characters. -/
def EndsBlock (block? : Text → Option (List Statement × Text)) (t : Text) (block : List Statement)
    (rest : Text) : Prop :=
  ∀ most, t.length ≤ most → statements? block? most t = some (block, rest)

variable {t rest : Text} {block : List Statement}

theorem endsBlock_blockEnd (rest : Text) : EndsBlock block? (blockEnd ++ rest) [] rest := by
  intro most hmost
  have hend : 0 < blockEnd.length := by decide
  rw [List.length_append] at hmost
  obtain ⟨most, rfl⟩ : ∃ most', most = most' + 1 := Nat.exists_eq_add_of_le' (by omega)
  rw [statements?, (reads_mark? _ _).eq, Option.some_or]

theorem EndsBlock.append {code : Text} {s : Statement} (h : EndsBlock block? t block rest)
    (hs : Reads (statement? block?) code s) : EndsBlock block? (code ++ t) (s :: block) rest := by
  -- neither an empty text nor the end of a block is taken for a statement
  have hcode : 0 < code.length := by
    rw [List.length_pos_iff]
    rintro rfl
    exact absurd (hs.eq []) nofun
  have hend : mark? blockEnd ([] : List Statement) (code ++ t) = none := by
    rw [mark?, Option.map_eq_none_iff, Option.eq_none_iff_forall_ne_some]
    intro t' ht'
    have hread := hs.eq t
    rw [Text.isPrefixOf?_eq_some.mp ht'] at hread
    exact absurd hread nofun
  intro most hmost
  rw [List.length_append] at hmost
  obtain ⟨most, rfl⟩ : ∃ most', most = most' + 1 := Nat.exists_eq_add_of_le' (by omega)
  rw [statements?, hend, Option.none_or, hs.eq]
  simp only [Option.bind_eq_bind, Option.bind_some, h most (by omega), Option.pure_def]

theorem EndsBlock.flatMap_append {α : Type} {piece : α → Text} {make : α → Statement}
    {as : List α} (h : EndsBlock block? t block rest)
    (has : ∀ a ∈ as, Reads (statement? block?) (piece a) (make a)) :
    EndsBlock block? (as.flatMap piece ++ t) (as.map make ++ block) rest := by
  induction as with
  | nil => exact h
  | cons a as ih =>
    rw [List.flatMap_cons, List.append_assoc, List.map_cons, List.cons_append]
    exact (ih fun b hb => has b (List.mem_cons_of_mem a hb)).append (has a (List.mem_cons_self ..))

end Statements

/-- A block, if blocks in it are nested at most `depth` deep. -/
def block? : (depth : Nat) → Text → Option (List Statement × Text)
  | 0, _ => none
  | depth + 1, t => do
    let t ← expect? blockOpening t
    statements? (block? depth) t.length t

section Blocks

theorem length_ofList_lt (source : Text) (args : ArgumentList) :
    (ofList args).length < (ofArgument (.subexpression source args)).length := by
  have hcode : ofArgument (.subexpression source args) =
      ":: hbs_args :: ParsedArgument :: SubExpression (".toList ++
        ":: hbs_args :: SubExpression \x7b args : ".toList ++ ofList args ++
          " , source : ".toList ++ ownedString source ++ " , \x7d)".toList := rfl
  have hopening : 0 < " , \x7d)".toList.length := by decide
  simp only [hcode, List.length_append]
  omega

theorem length_ofArgument_le {l : ArgumentList} {a : Argument} (h : a ∈ l.values) :
    (ofArgument a).length ≤ (ofList l).length := by
  rw [ofList_eq]
  apply List.Sublist.length_le
  apply List.Sublist.trans _ (List.sublist_append_right ..)
  rcases List.mem_append.mp h with h | h
  · have hcode : (ofArgument a).Sublist (pushCode a) :=
      (List.sublist_append_right ..).trans (List.sublist_append_left ..)
    have hpiece : (pushCode a).Sublist (l.positional.flatMap pushCode) :=
      List.sublist_flatten_of_mem (List.mem_map_of_mem h)
    exact (hcode.trans hpiece).trans (List.sublist_append_left ..)
  · obtain ⟨p, hp, rfl⟩ := List.mem_map.mp h
    have hcode : (ofArgument p.2).Sublist (insertionCode p) :=
      (List.sublist_append_right ..).trans (List.sublist_append_left ..)
    have hpiece : (insertionCode p).Sublist (l.named.flatMap insertionCode) :=
      List.sublist_flatten_of_mem (List.mem_map_of_mem hp)
    exact (hcode.trans hpiece).trans <|
      (List.sublist_append_left ..).trans (List.sublist_append_right ..)

theorem reads_block? {depth : Nat} {l : ArgumentList} (h : (ofList l).length ≤ depth) :
    Reads (block? depth) (ofList l) (Statement.ofList l) := by
  induction depth generalizing l with
  | zero =>
    have hopening : blockOpening.length ≤ (ofList l).length := by
      rw [ofList_eq]
      exact (List.sublist_append_left ..).length_le
    exact absurd (Nat.le_trans hopening h) (by decide)
  | succ depth ih =>
    -- a block in an argument of this one is shorter
    have hvalue : ∀ a ∈ l.values,
        Reads (expression? (block? depth)) (ofArgument a) (.ofArgument a) := by
      intro a ha
      apply reads_expression?
      rintro source args rfl
      apply ih
      have := length_ofList_lt source args
      have := length_ofArgument_le ha
      omega
    intro rest
    have hend : EndsBlock (block? depth) (blockEnd ++ rest) [] rest := endsBlock_blockEnd rest
    have hblockParams := hend.flatMap_append fun names (_ : names ∈ l.blockParams.toList) =>
      reads_statement?_setBlockParams names
    have hnamed := hblockParams.flatMap_append fun p (hp : p ∈ l.named) =>
      reads_statement?_insert (hvalue p.2 (List.mem_append_right _ (List.mem_map_of_mem hp)))
    have hpositional := hnamed.flatMap_append fun a (ha : a ∈ l.positional) =>
      reads_statement?_push (hvalue a (List.mem_append_left _ ha))
    rw [ofList_eq, Statement.ofList_eq, List.append_assoc, block?, expect?_append]
    simp only [List.append_assoc, Option.bind_eq_bind, Option.bind_some]
    rw [hpositional _ (Nat.le_refl _), List.append_nil]

end Blocks

/-- Read a text as a block, to its end, and run the block. -/
def build? (t : Text) : Option ArgumentList :=
  match block? t.length t with
  | some (block, []) => some (run block)
  | _ => none

theorem build?_of_buildable {l : ArgumentList} (h : Buildable l) : build? (ofList l) = some l := by
  have hblock := (reads_block? (Nat.le_refl (ofList l).length)).eq []
  rw [List.append_nil] at hblock
  simp only [build?, hblock, run_ofList h]

/-- The code of a list builds the list again, so that no other list has this code. -/
theorem build?_ofList {l : ArgumentList} (h : Buildable l) :
    build? (ofList l) = some l ∧ ∀ l', Buildable l' → ofList l' = ofList l → l' = l := by
  refine ⟨build?_of_buildable h, ?_⟩
  intro l' h' heq
  have hsame := build?_of_buildable h'
  rw [heq, build?_of_buildable h] at hsame
  exact (Option.some.inj hsame).symm

/-- A name that is bound again, and strings that look like code. -/
theorem build?_ofList_nested :
    let string : Argument := .literal .string "'\") ; list \x7d'".toList
    let call : Argument := .subexpression "(f \"] , \\\n)".toList
      ((({} : ArgumentList).push string).withBlockParams [])
    let l := ((({} : ArgumentList).bindName "k".toList string).push call).bindName "k".toList call
    Buildable l ∧ build? (ofList l) = some l ∧
      ∀ l', Buildable l' → ofList l' = ofList l → l' = l := by
  intro string call l
  have hstring : ∀ source args, string = .subexpression source args → Buildable args := nofun
  have hcall : ∀ source args, call = .subexpression source args → Buildable args := by
    intro source args h
    obtain ⟨-, rfl⟩ := Argument.subexpression.inj h
    exact (Buildable.empty.push hstring).withBlockParams []
  have hl : Buildable l := ((Buildable.empty.bindName _ hstring).push hcall).bindName _ hcall
  exact ⟨hl, build?_ofList hl⟩

end TemplateTag.Construction
