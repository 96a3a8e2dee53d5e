import TemplateTag.Context
import TemplateTag.Proofs.RawArgument.Sheltered
/-!
# Arguments with brackets

What a text with blanks inside its brackets is cut into when a plain word follows it.
-/
namespace TemplateTag.Context

variable {ctx : Context}

theorem absorb_pure {α : Type} (ctx : Context) (a : α) : ctx.absorb (pure a) = (a, ctx) := by
  rw [absorb, Reported.report_pure, Report.append_empty]
  rfl

/-- The text is an argument by itself if it closes by words. If not, its last bracket is taken to be
open, and the next word is held together with it. -/
theorem split_sheltered (hd : ctx.settings.dialect.advancedVariables = true) (tag : Text)
    {v z : Text} (hv : v.Sheltered) (hbracket : '[' ∈ v) (hdouble : '"' ∉ v) (hsingle : '\'' ∉ v)
    (hopen : '(' ∉ v) (hne : z ≠ []) (hz : ∀ c ∈ z, c.isAlpha = true) (has : z ≠ "as".toList) :
    ctx.split tag ([' '].intercalate ["h".toList, v, z]) =
      (if v.ClosesByWords then ["h".toList, v, z]
        else ["h".toList, [' '].intercalate [v, z]], ctx) := by
  have hx : PlainWord "h".toList := (Name.ofLetter 'h' rfl).plainWord
  have hletters : ∀ c ∈ z, isNameChar c = true := by
    intro c hc
    simp [isNameChar, Char.isAlphanum, hz c hc]
  have hz' : PlainWord z := plainWord_of_nameChars hne hletters has
  have htrimmed : v.Trimmed := hv.trimmed (List.ne_nil_of_mem hbracket)
  by_cases hclosed : v.ClosesByWords
  · obtain ⟨r, hr, hadvance⟩ := advance_of_closed hv hdouble hsingle hopen hbracket hclosed
    rw [split, rawArguments_between_of_closed hx htrimmed hz' hd false tag hr hadvance,
      if_pos hclosed]
    exact absorb_pure ctx _
  · obtain ⟨first, rest, hadvance⟩ := advance_of_open hv hdouble hsingle hopen hclosed
    have hmark : z.endsWith ']' = false := by
      apply Text.endsWith_of_not_mem
      intro hmem
      exact absurd (hz ']' hmem) (by decide)
    have hstep : Construct.bracket.step z = .stillOpen .bracket :=
      Construct.endingWith_eq_stillOpen hmark .bracket
    rw [split, rawArguments_between_of_open hx htrimmed hz' hd false tag hadvance hstep,
      if_neg hclosed]
    exact absorb_pure ctx _

theorem split_sheltered_value :
    let v : Text := "k=[b c]".toList
    v.Sheltered ∧ ((ofDialect .handlebars).split [] "h k=[b c] z".toList).1 =
      ["h".toList, v, "z".toList] := by
  intro v
  have hbracket : Text.Sheltered "[b c]".toList :=
    @Text.Sheltered.bracketed "b c".toList [] (by decide) .nil
  have hv : v.Sheltered := hbracket.append_left (s := "k=".toList) (by simp [isBlank]) (by decide)
  have hadvanced : (ofDialect .handlebars).settings.dialect.advancedVariables = true := rfl
  have hsplit := split_sheltered hadvanced [] hv (by decide) (by decide) (by decide) (by decide)
    (z := "z".toList) (by decide) (List.all_eq_true.mp (by decide)) (by decide)
  rw [if_pos (by decide)] at hsplit
  exact ⟨hv, congrArg Prod.fst hsplit⟩

/-- A bracketed name with a point behind it is taken to be open, and so is a bracketed key with its
value behind it. -/
theorem split_sheltered_open :
    (Text.Sheltered "a.[b c].d".toList ∧
      ((ofDialect .handlebars).split [] "h a.[b c].d z".toList).1 =
        ["h".toList, "a.[b c].d z".toList]) ∧
    Text.Sheltered "[odd key]=value".toList ∧
      ((ofDialect .handlebars).split [] "h [odd key]=value z".toList).1 =
        ["h".toList, "[odd key]=value z".toList] := by
  have hvalue : Text.Sheltered "=value".toList :=
    Text.Sheltered.nil.append_left (s := "=value".toList) (by simp [isBlank]) (by decide)
  have hkey : Text.Sheltered "[odd key]=value".toList :=
    @Text.Sheltered.bracketed "odd key".toList _ (by decide) hvalue
  have hlast : Text.Sheltered ".d".toList :=
    Text.Sheltered.nil.append_left (s := ".d".toList) (by simp [isBlank]) (by decide)
  have hname : Text.Sheltered "[b c].d".toList :=
    @Text.Sheltered.bracketed "b c".toList _ (by decide) hlast
  have hpath : Text.Sheltered "a.[b c].d".toList :=
    hname.append_left (s := "a.".toList) (by simp [isBlank]) (by decide)
  exact ⟨⟨hpath, by decide +kernel⟩, hkey, by decide +kernel⟩

end TemplateTag.Context
