import TemplateTag.Context
import TemplateTag.Proofs.Argument.Unescape
import TemplateTag.Proofs.Arguments
import TemplateTag.Proofs.RawArgument.Shape
import TemplateTag.Proofs.Reading.Placements
import TemplateTag.Proofs.Written.Cut
/-!
# Reading written arguments

The arguments of a printed tree are read back as the tree, and nothing but its calls is reported.
-/
namespace TemplateTag

/-- Handlebars with calls of any helper. -/
def Dialect.anyHelper : Dialect :=
  { Dialect.handlebars with arbitraryHelpers := true }

section Shapes

private theorem call_text_eq (helper : Name) (args : WrittenList) :
    (Written.call helper args).text = '(' :: (helper.text ++ args.text) ++ [')'] := by
  simp [Written.text]

theorem isCall_call (helper : Name) (args : WrittenList) :
    isCall (Written.call helper args).text = true := by
  rw [call_text_eq]
  apply isCall_parenthesized
  simp [helper.text_ne_nil]

theorem callBody_call (helper : Name) (args : WrittenList) :
    Settings.callBody (Written.call helper args).text = helper.text ++ args.text := by
  rw [call_text_eq]
  exact Settings.callBody_parenthesized _

theorem isCall_name (n : Name) : isCall n.text = false := by
  apply isCall_of_head
  rintro c hc rfl
  exact n.not_mem (by decide) (List.mem_of_head? hc)

theorem isCall_doubleQuoted (t : Text) : isCall t.doubleQuoted = false :=
  isCall_of_head (by simp [Text.doubleQuoted])

namespace Binding

private theorem isKeyChar_of_isNameChar {c : Char} (h : isNameChar c = true) :
    isKeyChar c = true :=
  of_isNameChar (by decide) h

theorem ofText?_nameChars {key value : Text} (hne : key ≠ [])
    (hkey : ∀ c ∈ key, isNameChar c = true) (hvalue : value ≠ []) :
    ofText? (key ++ '=' :: value) = some ⟨false, key, value⟩ := by
  have hopen : '[' ∉ key := fun hmem => absurd (hkey '[' hmem) (by decide)
  have hchars : ∀ d ∈ key, isKeyChar d = true := fun d hd =>
    isKeyChar_of_isNameChar (hkey d hd)
  have htake : (key ++ '=' :: value).takeWhile isKeyChar = key := by
    rw [List.takeWhile_append_of_pos hchars]
    simp [isKeyChar]
  have hdrop : (key ++ '=' :: value).dropWhile isKeyChar = '=' :: value := by
    rw [List.dropWhile_append_of_pos hchars]
    simp [isKeyChar]
  rw [ofText?]
  · rw [hdrop, htake]
    simp [ofParts?, hne, hvalue]
  · intro rest heq
    obtain ⟨c, t, rfl⟩ := List.exists_cons_of_ne_nil hne
    rw [List.cons_append, List.cons.injEq] at heq
    exact hopen (heq.1 ▸ List.mem_cons_self ..)

theorem ofText?_name (n : Name) : ofText? n.text = none := by
  apply ofText?_eq_none
  · rintro c hc rfl
    exact n.not_mem (by decide) (List.mem_of_head? hc)
  · rintro c hc rfl
    have hmem := (List.dropWhile_sublist _).subset (List.mem_of_head? hc)
    exact n.not_mem (by decide) hmem

theorem ofText?_doubleQuoted (t : Text) : ofText? t.doubleQuoted = none := by
  apply ofText?_eq_none
  · simp [Text.doubleQuoted]
  · simp [Text.doubleQuoted, isKeyChar]

end Binding

end Shapes

section Strings

theorem isHead_positional {index : Nat} (h : index ≠ 0) :
    (Position.positional index).isHead = false := by
  cases index with
  | zero => exact absurd rfl h
  | succ index => rfl

theorem Written.text_string (p : PlainString) : (Written.string p).text = p.text.doubleQuoted := by
  rw [Written.text]
  rfl

variable {t : Text} (ht : '"' ∉ t)

include ht

theorem unescape_of_not_mem (escaped : Bool) : unescape escaped t = t := by
  induction t generalizing escaped with
  | nil => cases escaped <;> rfl
  | cons c t ih =>
    have hrest := ih (fun hmem => ht (List.mem_cons_of_mem c hmem)) (c == '\\')
    -- No double quote comes next, so that the character is kept whatever it is.
    have hnext (rest : Text) : t ≠ '"' :: rest := by
      rintro rfl
      exact ht (by simp)
    rw [unescape, hrest]
    · rintro rest - - rfl
      exact hnext rest rfl
    · rintro rest - - rfl
      exact hnext rest rfl

theorem literal?_doubleQuoted : literal? t.doubleQuoted = some (.string, t) := by
  rw [literal?_quoted, unescape_of_not_mem ht]

theorem readCheckedValue_doubleQuoted (d : Dialect) (tag : Text) {position : Position}
    (hposition : position.isHead = false) :
    readCheckedValue d tag position t.doubleQuoted = pure (.literal .string (singleQuoted t)) := by
  have hquoted : hasQuoteMarks t.doubleQuoted = true := by
    simp [hasQuoteMarks, Text.doubleQuoted, List.isPrefixOf]
  rw [readCheckedValue, hquoted, readValue, literal?_doubleQuoted ht]
  simp [hposition, Argument.ofLiteral]

end Strings

section Arguments

/-- What reading a tree leads to: its argument, and a count of its calls. -/
def Written.reading (v : Written) : Reported Argument :=
  { value := v.argument, report := { usage := { subexpressions := v.calls } } }

/-- What a call is to be read as. -/
def callReading (helper : Name) (args : WrittenList) : Reported ArgumentList where
  value := { positional := .ofName helper.text :: args.positional, named := args.named }
  report := { usage := { subexpressions := args.calls + 1 } }

variable {d : Dialect} {call : Text → Reported ArgumentList} {tag : Text}

theorem subexpression_map_callReading (helper : Name) (args : WrittenList) :
    Argument.subexpression (Written.call helper args).text <$> callReading helper args =
      (Written.call helper args).reading := by
  change Reported.mk _ (_ ++ _) = _
  rw [Written.reading, Written.argument, Written.calls]
  simp [callReading]

theorem readArgument_binding (hd : d.namedArguments = true) {key value : Text} (hne : key ≠ [])
    (hkey : ∀ c ∈ key, isNameChar c = true) (hvalue : value ≠ []) (index : Nat) :
    readArgument d call tag index (key ++ '=' :: value) =
      .named key <$> readUnbound d call tag .named value := by
  have hhead : ∀ c ∈ (key ++ '=' :: value).head?, isNameChar c = true := by
    obtain ⟨c, t, rfl⟩ := List.exists_cons_of_ne_nil hne
    simpa using hkey c (List.mem_cons_self ..)
  have hcall : isCall (key ++ '=' :: value) = false := by
    apply isCall_of_head
    rintro c hc rfl
    cases hhead '(' hc
  have hparams : blockParamNames? (key ++ '=' :: value) = none := by
    apply blockParamNames?_of_head
    intro c hc
    have hink := of_isNameChar (p := fun c => !isBlank c) (by decide) (hhead c hc)
    simpa using hink
  have hcheck : Binding.check d tag ⟨false, key, value⟩ = pure () := rfl
  rw [readArgument, hcall, hparams, hd]
  simp only [Bool.false_eq_true, if_false, if_true, Binding.ofText?_nameChars hne hkey hvalue,
    hcheck, pure_bind]
  rfl

theorem isPositional_written (d : Dialect) (v : Written) : isPositional d v.text = true := by
  have hparams := blockParamNames?_of_head v.isBlank_head
  rw [isPositional, hparams]
  cases v with
  | name n =>
    rw [Written.text, Binding.ofText?_name]
    simp
  | string p =>
    rw [Written.text_string, Binding.ofText?_doubleQuoted]
    simp
  | call helper args => rw [isCall_call, Bool.true_or]

/-- A printed argument is read as it is meant, except for a string at the head. -/
private theorem readUnbound_written (hd : d.stringParams = false) {position : Position}
    {v : Written}
    (hcall : ∀ helper args, v = .call helper args → call v.text = callReading helper args)
    (hposition : (∃ p, v = .string p) → position.isHead = false) :
    readUnbound d call tag position v.text = v.reading := by
  rw [readUnbound]
  cases v with
  | name n =>
    rw [Written.text, isCall_name, if_neg Bool.false_ne_true, readCheckedValue_name hd]
    rfl
  | string p =>
    have hquote : '"' ∉ p.text := p.not_mem (by decide)
    rw [Written.text_string, isCall_doubleQuoted, if_neg Bool.false_ne_true,
      readCheckedValue_doubleQuoted hquote d tag (hposition ⟨p, rfl⟩)]
    rfl
  | call helper args =>
    rw [if_pos (isCall_call helper args), hcall helper args rfl, subexpression_map_callReading]

theorem readArgument_positional (hd : d.stringParams = false) {index : Nat} {v : Written}
    (hcall : ∀ helper args, v = .call helper args → call v.text = callReading helper args)
    (hindex : (∃ p, v = .string p) → index ≠ 0) :
    readArgument d call tag index v.text = .positional <$> v.reading := by
  rw [readArgument_of_isPositional (isPositional_written d v),
    readUnbound_written hd hcall fun hstring => isHead_positional (hindex hstring)]

theorem readArgument_named (hd : d.stringParams = false) (hnamed : d.namedArguments = true)
    {index : Nat} (k : Name) {v : Written}
    (hcall : ∀ helper args, v = .call helper args → call v.text = callReading helper args) :
    readArgument d call tag index (keyText (some k) ++ v.text) = .named k.text <$> v.reading := by
  rw [keyText, List.append_assoc, List.singleton_append,
    readArgument_binding hnamed k.text_ne_nil k.chars v.text_ne_nil,
    readUnbound_written hd hcall fun _ => rfl]

end Arguments

section Lists

/-- A report of so many calls. -/
def countCalls (n : Nat) : Reported Unit :=
  { value := (), report := { usage := { subexpressions := n } } }

theorem countCalls_zero_bind {α : Type} (f : Unit → Reported α) : countCalls 0 >>= f = f () :=
  pure_bind () f

theorem countCalls_bind_countCalls {α : Type} (m n : Nat) (f : Unit → Reported α) :
    (countCalls m >>= fun _ => countCalls n >>= f) = countCalls (m + n) >>= f := by
  rw [← bind_assoc]
  rfl

theorem map_reading_bind {α β : Type} (v : Written) (f : Argument → α) (g : α → Reported β) :
    f <$> v.reading >>= g = countCalls v.calls >>= fun _ => g (f v.argument) := rfl

/-- The list with the arguments of a tree at its end. -/
def Arguments.extend (l : ArgumentList) (args : WrittenList) : ArgumentList :=
  { l with positional := l.positional ++ args.positional, named := l.named ++ args.named }

theorem Arguments.extend_push (l : ArgumentList) (value : Written) (rest : WrittenList) :
    Arguments.extend (l.push value.argument) rest = l.extend (.cons none value rest) := by
  simp [extend, push, WrittenList.positional, WrittenList.named]

theorem Arguments.extend_bindName {l : ArgumentList} {k : Name}
    (h : k.text ∉ l.named.map Prod.fst) (value : Written) (rest : WrittenList) :
    Arguments.extend (l.bindName k.text value.argument) rest =
      l.extend (.cons (some k) value rest) := by
  simp [extend, bindName, assign_of_not_mem h, WrittenList.positional, WrittenList.named]

variable {s : Settings}

mutual

theorem readCall_written (hs : s.dialect = .anyHelper) : (v : Written) → v.WellFormed →
    ∀ room, v.nesting ≤ room → ∀ helper args, v = .call helper args →
      s.readCall room v.text = callReading helper args
  | .name _, _ => nofun
  | .string _, _ => nofun
  | .call helper args, hwf => by
    intro room hroom helper' args' heq
    cases heq
    obtain ⟨hkeys, -, hargs⟩ := hwf
    rw [Written.nesting] at hroom
    obtain ⟨room, rfl⟩ : ∃ k, room = k + 1 := ⟨room - 1, by omega⟩
    have hname : (Written.name helper).WellFormed := trivial
    have hraws : rawArguments s.dialect true (Written.call helper args).text
        ((Written.name helper).text ++ args.text ++ paramsText []) =
          pure ((Written.name helper).text :: args.raws ++ paramsRaws []) :=
      rawArguments_written (by rw [hs]; rfl) true _ hname hargs []
    have hfirst : readArgument s.dialect (s.readCall room) (Written.call helper args).text 0
        helper.text = pure (.positional (.ofName helper.text)) :=
      readArgument_positional (v := .name helper) (by rw [hs]; rfl) nofun nofun
    have hrest := readArguments_written hs args hargs room (Nat.le_of_succ_le_succ hroom)
      (Written.call helper args).text { positional := [.ofName helper.text] }
      (List.cons_ne_nil _ _) hkeys []
    have hcheck (l : ArgumentList) : s.checkHelper l = pure () := by
      rw [Settings.checkHelper, hs]
      cases l.get? 0 <;> rfl
    have htext : (Written.name helper).text = helper.text := by rw [Written.text]
    simp only [paramsText, paramsRaws, List.append_nil, htext] at hraws
    rw [List.append_nil] at hrest
    simp only [Settings.readCall, callBody_call, hraws, pure_bind, hcheck, bind_pure]
    rw [readArguments, List.length_nil, hfirst, pure_bind]
    change countCalls 1 >>= _ = _
    rw [Arguments.place, Arguments.push, List.nil_append, hrest, countCalls_bind_countCalls,
      Nat.add_comm]
    rfl

theorem readArguments_written (hs : s.dialect = .anyHelper) : (args : WrittenList) →
    args.WellFormed → ∀ room, args.nesting ≤ room → ∀ (tag : Text) (l : ArgumentList),
      l.positional ≠ [] → (l.named.map Prod.fst ++ args.keys).Nodup → ∀ more,
      readArguments s.dialect (s.readCall room) tag l (args.raws ++ more) =
        countCalls args.calls >>= fun _ =>
          readArguments s.dialect (s.readCall room) tag (l.extend args) more
  | .nil, _ => by
    intro room _ tag l _ _ more
    have hextend : l.extend .nil = l := by
      simp [Arguments.extend, WrittenList.positional, WrittenList.named]
    rw [hextend, WrittenList.raws, List.nil_append, WrittenList.calls, countCalls_zero_bind]
  | .cons key value rest, hwf => by
    intro room hroom tag l hl hkeys more
    rw [WrittenList.nesting] at hroom
    have hcall := readCall_written hs value hwf.1 room (by omega)
    have hrest := readArguments_written hs rest hwf.2 room (by omega) tag
    rw [WrittenList.raws, List.cons_append, readArguments, WrittenList.calls,
      ← countCalls_bind_countCalls]
    cases key with
    | none =>
      have hindex : l.positional.length ≠ 0 := fun h => hl (List.length_eq_zero_iff.mp h)
      rw [keyText, List.nil_append, readArgument_positional (by rw [hs]; rfl) hcall fun _ => hindex,
        map_reading_bind, Arguments.place,
        hrest (l.push value.argument) (by simp [Arguments.push]) hkeys, Arguments.extend_push]
    | some k =>
      rw [WrittenList.keys] at hkeys
      have hnew : k.text ∉ l.named.map Prod.fst := by
        intro h
        exact (List.nodup_append.mp hkeys).2.2 _ h _ (List.mem_cons_self ..) rfl
      have hkeys' : ((l.bindName k.text value.argument).named.map Prod.fst ++ rest.keys).Nodup := by
        rw [Arguments.bindName, Arguments.assign_of_not_mem hnew]
        simpa using hkeys
      rw [readArgument_named (by rw [hs]; rfl) (by rw [hs]; rfl) k hcall, map_reading_bind,
        Arguments.place, hrest (l.bindName k.text value.argument) hl hkeys',
        Arguments.extend_bindName hnew]

end

end Lists

section BlockParams

/-- The names of block parameters, if there are any. -/
def paramNames : List Name → Option (List Text)
  | [] => none
  | p :: ps => some ((p :: ps).map Name.text)

theorem readArgument_params (d : Dialect) (call : Text → Reported ArgumentList) (tag : Text)
    (index : Nat) (p : Name) (ps : List Name) :
    readArgument d call tag index (barText (p :: ps)) =
      pure (.blockParams ((p :: ps).map Name.text)) := by
  have hfields : Text.fields isBlank ([' '].intercalate ((p :: ps).map Name.text)) =
      (p :: ps).map Name.text := by
    apply Text.fields_intercalate (by decide)
    intro t ht
    obtain ⟨q, -, rfl⟩ := List.mem_map.mp ht
    exact ⟨q.text_ne_nil, q.ink⟩
  rw [barText_eq, readArgument_between_bars _ _ _ _ blank_space (by simp) params_ne_nil, hfields]

end BlockParams

/-- The inside of a tag: a name or a call, more arguments, and block parameters. -/
structure WrittenTag where
  head : Written
  args : WrittenList
  params : List Name

namespace WrittenTag

def text (t : WrittenTag) : Text :=
  t.head.text ++ t.args.text ++ paramsText t.params

def arguments (t : WrittenTag) : ArgumentList where
  positional := t.head.argument :: t.args.positional
  named := t.args.named
  blockParams := paramNames t.params

def nesting (t : WrittenTag) : Nat :=
  max t.head.nesting t.args.nesting

def calls (t : WrittenTag) : Nat :=
  t.head.calls + t.args.calls

structure WellFormed (t : WrittenTag) : Prop where
  head_ne_string : ∀ p, t.head ≠ .string p
  head : t.head.WellFormed
  args : t.args.WellFormed
  keys : t.args.keys.Nodup

end WrittenTag

/-- The printed tree is read back, and the count of its calls is all that is reported. -/
theorem readTag_written {ctx : Context} (hdialect : ctx.settings.dialect = .anyHelper)
    {t : WrittenTag} (ht : t.WellFormed) (hdepth : t.nesting ≤ ctx.settings.maxDepth) {tag : Tag}
    (hinner : tag.inner = t.text) (hpartial : tag.partialIndex? = none) :
    (ctx.readTag tag).1.args = t.arguments ∧
      (ctx.readTag tag).2 =
        { ctx with report := ctx.report ++ { usage := { subexpressions := t.calls } } } := by
  have hraws := rawArguments_written (d := ctx.settings.dialect) (by rw [hdialect]; rfl) false
    tag.text ht.head ht.args t.params
  have hheadCall := readCall_written hdialect t.head ht.head ctx.settings.maxDepth
    (Nat.le_trans (Nat.le_max_left ..) hdepth)
  have hhead : readArgument ctx.settings.dialect (ctx.settings.readCall ctx.settings.maxDepth)
      tag.text 0 t.head.text = .positional <$> t.head.reading :=
    readArgument_positional (by rw [hdialect]; rfl) hheadCall
      fun ⟨p, hp⟩ => absurd hp (ht.head_ne_string p)
  have hargs := readArguments_written hdialect t.args ht.args ctx.settings.maxDepth
    (Nat.le_trans (Nat.le_max_right ..) hdepth) tag.text { positional := [t.head.argument] }
    (List.cons_ne_nil _ _) ht.keys (paramsRaws t.params)
  have hparams (l : ArgumentList) (hl : l.blockParams = none) :
      readArguments ctx.settings.dialect (ctx.settings.readCall ctx.settings.maxDepth) tag.text l
        (paramsRaws t.params) = pure { l with blockParams := paramNames t.params } := by
    cases t.params with
    | nil =>
      rw [paramsRaws, paramNames, ← hl]
      rfl
    | cons p ps =>
      rw [paramsRaws, readArguments, readArgument_params]
      rfl
  have hplace (raws : List Text) (l : ArgumentList) : tag.placePartial raws l = l := by
    simp [Tag.placePartial, Tag.partial?, hpartial]
  have hread : ctx.settings.readTag tag = countCalls t.calls >>= fun _ =>
      pure { unescaped := ctx.settings.unescaped tag, args := t.arguments } := by
    rw [Settings.readTag, hinner, WrittenTag.text, hraws, pure_bind, List.cons_append,
      readArguments, List.length_nil, hhead, map_reading_bind, Arguments.place, Arguments.push,
      List.nil_append, hargs, hparams _ rfl, countCalls_bind_countCalls, bind_assoc]
    simp only [pure_bind, hplace]
    rfl
  rw [Context.readTag, hread]
  exact ⟨rfl, rfl⟩

/-- `f "a b" k=(g (h x)) as |i|` -/
private def nestedTag : WrittenTag where
  head := .name (.ofLetter 'f' rfl)
  args :=
    .cons none (.string ⟨"a b".toList, by simp⟩) <|
    .cons (some (.ofLetter 'k' rfl))
      (.call (.ofLetter 'g' rfl)
        (.cons none (.call (.ofLetter 'h' rfl) (.cons none (.name (.ofLetter 'x' rfl)) .nil)) .nil))
      .nil
  params := [.ofLetter 'i' rfl]

theorem readTag_written_nested :
    ((Context.ofDialect .anyHelper).readTag
      (Tag.ofInner "f \"a b\" k=(g (h x)) as |i|".toList)).1.args =
        { positional := [.ofName "f".toList, .literal .string "'a b'".toList]
          named := [("k".toList, .subexpression "(g (h x))".toList
            { positional := [.ofName "g".toList, .subexpression "(h x)".toList
              { positional := [.ofName "h".toList, .ofName "x".toList] }] })]
          blockParams := some ["i".toList] } := by
  have hwf : nestedTag.WellFormed := by
    refine ⟨nofun, trivial, ?_, ?_⟩
    · simp [nestedTag, WrittenList.WellFormed, Written.WellFormed, WrittenList.keys,
        WrittenList.NoBareCallNamed]
    · simp [nestedTag, WrittenList.keys]
  have hinner : (Tag.ofInner "f \"a b\" k=(g (h x)) as |i|".toList).inner = nestedTag.text := by
    decide
  have hdialect : (Context.ofDialect .anyHelper).settings.dialect = .anyHelper := rfl
  exact (readTag_written hdialect hwf (by decide) hinner rfl).1

end TemplateTag
