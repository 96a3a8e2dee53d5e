import TemplateTag.Proofs.Written.Name
/-!
# Written arguments

A tree of names, plain strings and calls, printed with single spaces. Every argument but the first
one of a tag or of a call has a space in front, and it may have a key.
-/
namespace TemplateTag

/-- The content of a string that needs no escapes and no care for parentheses or brackets. -/
structure PlainString where
  text : Text
  chars : ∀ c ∈ text, c ∉ "\"'\\()[]".toList

mutual

inductive Written where
  | name (n : Name)
  | string (p : PlainString)
  | call (helper : Name) (args : WrittenList)

inductive WrittenList where
  | nil
  | cons (key : Option Name) (value : Written) (rest : WrittenList)

end

/-- A key with its equals sign. -/
def keyText : Option Name → Text
  | none => []
  | some k => k.text ++ ['=']

mutual

def Written.text : Written → Text
  | .name n => n.text
  | .string p => '"' :: p.text ++ ['"']
  | .call helper args => '(' :: helper.text ++ args.text ++ [')']

/-- The text of the arguments, each with a space in front. -/
def WrittenList.text : WrittenList → Text
  | .nil => []
  | .cons key value rest => ' ' :: (keyText key ++ value.text) ++ rest.text

end

mutual

/-- What the text is to be read as. -/
def Written.argument : Written → Argument
  | .name n => .ofName n.text
  | .string p => .literal .string (singleQuoted p.text)
  | .call helper args =>
    .subexpression (Written.call helper args).text
      { positional := .ofName helper.text :: args.positional, named := args.named }

def WrittenList.positional : WrittenList → List Argument
  | .nil => []
  | .cons none value rest => value.argument :: rest.positional
  | .cons (some _) _ rest => rest.positional

def WrittenList.named : WrittenList → List (Text × Argument)
  | .nil => []
  | .cons none _ rest => rest.named
  | .cons (some k) value rest => (k.text, value.argument) :: rest.named

end

mutual

/-- How deep calls are nested. -/
def Written.nesting : Written → Nat
  | .call _ args => args.nesting + 1
  | _ => 0

def WrittenList.nesting : WrittenList → Nat
  | .nil => 0
  | .cons _ value rest => max value.nesting rest.nesting

end

mutual

/-- The number of calls. -/
def Written.calls : Written → Nat
  | .call _ args => args.calls + 1
  | _ => 0

def WrittenList.calls : WrittenList → Nat
  | .nil => 0
  | .cons _ value rest => value.calls + rest.calls

end

namespace WrittenList

def keys : WrittenList → List Text
  | nil => []
  | cons none _ rest => rest.keys
  | cons (some k) _ rest => k.text :: rest.keys

/-- No argument with a key is a call without arguments. -/
def NoBareCallNamed : WrittenList → Prop
  | nil => True
  | cons (some _) (.call _ nil) _ => False
  | cons _ _ rest => rest.NoBareCallNamed

theorem NoBareCallNamed.head {key : Option Name} {value : Written} {rest : WrittenList}
    (h : (cons key value rest).NoBareCallNamed) :
    key ≠ none → ∀ helper, value ≠ .call helper nil := by
  rintro hkey helper rfl
  cases key with
  | none => exact hkey rfl
  | some k => exact h

theorem NoBareCallNamed.tail {key : Option Name} {value : Written} {rest : WrittenList}
    (h : (cons key value rest).NoBareCallNamed) : rest.NoBareCallNamed := by
  rw [NoBareCallNamed] at h
  · exact h
  · rintro k helper rfl rfl
    exact h

/-- The arguments as they are cut out of the text. -/
def raws : WrittenList → List Text
  | nil => []
  | cons key value rest => (keyText key ++ value.text) :: rest.raws

end WrittenList

mutual

/-- In every call the keys are distinct, and none of them is the key of a call without arguments:
there the parenthesis behind the equals sign would not be seen to open anything. -/
def Written.WellFormed : Written → Prop
  | .call _ args => args.keys.Nodup ∧ args.NoBareCallNamed ∧ args.WellFormed
  | _ => True

def WrittenList.WellFormed : WrittenList → Prop
  | .nil => True
  | .cons _ value rest => value.WellFormed ∧ rest.WellFormed

end

/-- The names of block parameters between bars, with a space in front. -/
def barText (params : List Name) : Text :=
  " |".toList ++ [' '].intercalate (params.map Name.text) ++ ['|']

/-- Block parameters as they are printed, if there are any. -/
def paramsText : List Name → Text
  | [] => []
  | p :: ps => " as".toList ++ barText (p :: ps)

/-- Block parameters as they are cut out of the text. -/
def paramsRaws : List Name → List Text
  | [] => []
  | p :: ps => [barText (p :: ps)]

namespace PlainString

theorem not_mem {p : PlainString} {c : Char} (hc : c ∈ "\"'\\()[]".toList) : c ∉ p.text :=
  fun h => p.chars c h hc

end PlainString

namespace Written

theorem exists_text_eq_cons (v : Written) : ∃ c t, v.text = c :: t ∧
    (c.isAlpha = true ∨ c = '"' ∨ c = '(') := by
  cases v with
  | name n =>
    obtain ⟨c, t, htext, hc⟩ := n.exists_cons
    exact ⟨c, t, by rw [text, htext], .inl hc⟩
  | string p => exact ⟨'"', p.text ++ ['"'], by rw [text]; rfl, .inr (.inl rfl)⟩
  | call helper args =>
    exact ⟨'(', helper.text ++ args.text ++ [')'], by rw [text]; rfl, .inr (.inr rfl)⟩

theorem text_ne_nil (v : Written) : v.text ≠ [] := by
  obtain ⟨c, t, htext, -⟩ := v.exists_text_eq_cons
  rw [htext]
  exact List.cons_ne_nil c t

theorem isBlank_head (v : Written) : ∀ c ∈ v.text.head?, isBlank c = false := by
  obtain ⟨c, t, htext, hc⟩ := v.exists_text_eq_cons
  rw [htext]
  intro d hd
  obtain rfl : c = d := by simpa using hd
  rcases hc with hc | rfl | rfl
  · have hchar : isNameChar c = true := by simp [isNameChar, Char.isAlphanum, hc]
    have h := of_isNameChar (p := fun c => !isBlank c) (by decide) hchar
    simpa using h
  · decide
  · decide

theorem isBlank_getLast (v : Written) : ∀ c ∈ v.text.getLast?, isBlank c = false := by
  intro c hc
  cases v with
  | name n => exact n.ink c (List.mem_of_getLast? (by simpa [text] using hc))
  | string p =>
    obtain rfl : '"' = c := by simpa [text, List.getLast?_cons, List.getLast?_append] using hc
    decide
  | call helper args =>
    obtain rfl : ')' = c := by simpa [text, List.getLast?_cons, List.getLast?_append] using hc
    decide

end Written

theorem keyText_append_isBlank_head (key : Option Name) (v : Written) :
    ∀ c ∈ (keyText key ++ v.text).head?, isBlank c = false := by
  cases key with
  | none => exact v.isBlank_head
  | some k =>
    obtain ⟨c, t, htext, -⟩ := k.exists_cons
    intro d hd
    obtain rfl : c = d := by simpa [keyText, htext] using hd
    exact k.ink c (by simp [htext])

end TemplateTag
