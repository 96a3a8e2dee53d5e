import TemplateTag.Proofs.Context.History
import TemplateTag.Proofs.Tag.Finding
/-!
# Finding tags with chosen delimiters

A text that is split at a tag is the text that was given, and the parts have their shapes, whatever
the delimiters are and whenever they were set. With delimiters that were set outside a raw block the
first tag is found wherever there is one.
-/
namespace TemplateTag.Context

theorem delimiters_withDelimiters (ctx : Context) {left right : Text} (hleft : '=' ∉ left)
    (hright : '=' ∉ right) : (ctx.withDelimiters left right).delimiters =
      .build ctx.settings.dialect.rawBlocks ctx.settings.rawBlockActive left right := by
  rw [withDelimiters, if_pos (Delimiters.isAllowed_iff.mpr ⟨hleft, hright⟩)]

/-- Delimiters without an equals sign are taken as they are. With them a text is split at a tag
without loss, and the braces inside them are as many as the template allowed when they were set. -/
theorem splits_withDelimiters (ctx : Context) {left right : Text} (hleft : '=' ∉ left)
    (hright : '=' ∉ right) {t : Text} {o : Occurrence}
    (h : (ctx.withDelimiters left right).delimiters.firstTag? t = some o) :
    let d := (ctx.withDelimiters left right).delimiters
    d.left = left ∧ d.right = right ∧ d.Splits t o ∧
      (d.fewestBraces, d.mostBraces) =
        if ctx.settings.rawBlockActive then (2, 2)
        else if ctx.settings.dialect.rawBlocks then (0, 2)
        else (0, 1) := by
  have hdelimiters : (ctx.withDelimiters left right).delimiters =
      .build ctx.settings.dialect.rawBlocks ctx.settings.rawBlockActive left right := by
    rw [withDelimiters, if_pos (Delimiters.isAllowed_iff.mpr ⟨hleft, hright⟩)]
  rw [hdelimiters] at h ⊢
  intro d
  have hbraces : d.fewestBraces ≤ d.mostBraces := Delimiters.fewestBraces_le_build ..
  exact ⟨rfl, rfl, Delimiters.firstTag?_eq_some hbraces h, Delimiters.braces_build ..⟩

/-- Delimiters of characters that mean something inside a tag. -/
theorem splits_withDelimiters_braces :
    ∃ o, ((ofDialect .handlebars).withDelimiters "\x7b~".toList "*".toList).delimiters.firstTag?
        "a \x7b~#b* c".toList = some o ∧
      ((ofDialect .handlebars).withDelimiters "\x7b~".toList "*".toList).delimiters.Splits
        "a \x7b~#b* c".toList o := by
  have h : ((ofDialect .handlebars).withDelimiters "\x7b~".toList "*".toList).delimiters.firstTag?
      "a \x7b~#b* c".toList = some
        { textBefore := "a".toList
          spaceBefore := " ".toList
          tag :=
            { left := "\x7b~".toList
              operator := "#".toList
              inner := "b".toList
              right := "*".toList }
          spaceAfter := " ".toList
          textAfter := "c".toList } := by
    rfl
  exact ⟨_, h, (splits_withDelimiters _ (by decide) (by decide) h).2.2.1⟩

/-- Outside a raw block there is a tag as soon as the right delimiter comes after the left one. The
left delimiter of the tag is the first one in the text, unless it starts with a blank, and the
inside ends before the first right delimiter. The first character of the tags is that of the left
delimiter, and there is no tag in a text without it. -/
theorem finds_withDelimiters (ctx : Context) (hraw : ctx.settings.rawBlockActive = false)
    (left right : Text) (hleft : '=' ∉ left) (hright : '=' ∉ right) (t : Text) :
    let d := (ctx.withDelimiters left right).delimiters
    ((d.firstTag? t).isSome ↔
        ∃ before between after, t = before ++ left ++ between ++ right ++ after) ∧
      (∀ o, d.firstTag? t = some o →
        d.Splits t o ∧
          (∀ c, left.head? = some c → isBlank c = false →
            IsFirstAt left t (o.textBefore ++ o.spaceBefore).length) ∧
          (right ≠ [] → ¬right <:+: o.tag.inner)) ∧
      ∀ c, left.head? = some c →
        d.firstChar? = some c ∧ (c ∉ t → d.firstTag? t = none) := by
  rw [delimiters_withDelimiters ctx hleft hright, hraw]
  intro d
  have hbraces : d.fewestBraces = 0 := rfl
  have hle : d.fewestBraces ≤ d.mostBraces := Delimiters.fewestBraces_le_build ..
  refine ⟨Delimiters.isSome_firstTag?_iff hbraces, ?_, ?_⟩
  · intro o ho
    refine ⟨Delimiters.firstTag?_eq_some hle ho, ?_, ?_⟩
    · intro c hhead hc
      exact Delimiters.isFirstAt_left hbraces hhead hc ho
    · intro hne
      exact Delimiters.not_right_infix_inner hbraces hne ho
  · intro c hhead
    have hfirst : d.firstChar? = some c := hhead
    exact ⟨hfirst, Delimiters.firstTag?_eq_none_of_firstChar? hle hfirst⟩

/-- The brace could stand inside the left delimiter, but then there would be no right one. -/
theorem finds_withDelimiters_brace :
    ∃ o, ((ofDialect .handlebars).withDelimiters "<".toList "\x7b".toList).delimiters.firstTag?
        "x <~\x7b y".toList = some o ∧
      IsFirstAt "<".toList "x <~\x7b y".toList (o.textBefore ++ o.spaceBefore).length ∧
      ¬"\x7b".toList <:+: o.tag.inner := by
  obtain ⟨hsome, hfound, -⟩ := finds_withDelimiters (ofDialect .handlebars) rfl "<".toList
    "\x7b".toList (by decide) (by decide) "x <~\x7b y".toList
  obtain ⟨o, ho⟩ := Option.isSome_iff_exists.mp
    (hsome.mpr ⟨"x ".toList, "~".toList, " y".toList, rfl⟩)
  obtain ⟨-, hleft, hright⟩ := hfound o ho
  exact ⟨o, ho, hleft '<' rfl (by decide), hright (by decide)⟩

end TemplateTag.Context
