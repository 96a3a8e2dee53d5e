import TemplateTag.Proofs.Context.Quoted
import TemplateTag.Proofs.RawArgument.Named
import TemplateTag.Proofs.VariableName.Tests
/-!
# Arguments with and without a name

A name in front of an argument changes where what is read from it goes, and not what is read.
-/
namespace TemplateTag

theorem readValue_congr (d : Dialect) {p p' : Position} (h : p.isHead = p'.isHead) (raw : Text) :
    readValue d p raw = readValue d p' raw := by
  rw [readValue, readValue, h]

/-- The readings have the same result, and something is wrong with both or with none. -/
structure Reported.Like {α : Type} (x y : Reported α) : Prop where
  value : x.value = y.value
  clean : x.report.diagnostics = [] ↔ y.report.diagnostics = []

section Read

variable {d : Dialect} {call : Text → Reported ArgumentList} {raw : Text}

theorem diagnostics_readCheckedValue_eq_nil {tag : Text} {p : Position} :
    (readCheckedValue d tag p raw).report.diagnostics = [] ↔
      ((d.advancedVariables && !hasQuoteMarks raw) = true → VariableName.fault? raw = none) ∧
        (readValue d p raw).report.diagnostics = [] := by
  rw [readCheckedValue]
  split
  · next hchecked =>
    rw [Reported.report_bind, Report.diagnostics_append, List.append_eq_nil_iff,
      VariableName.diagnostics_check_eq_nil]
    simp [hchecked]
  · next hchecked => simp [hchecked]

theorem readUnbound_like {p p' : Position} (h : p.isHead = p'.isHead) (tag tag' : Text) :
    (readUnbound d call tag p raw).Like (readUnbound d call tag' p' raw) := by
  rw [readUnbound, readUnbound]
  split
  · exact ⟨rfl, Iff.rfl⟩
  · constructor
    · rw [readCheckedValue_value, readCheckedValue_value, readValue_congr d h]
    · rw [diagnostics_readCheckedValue_eq_nil, diagnostics_readCheckedValue_eq_nil,
        readValue_congr d h]

section Three

variable {x v z : Text} (hx : isPositional d x = true) (hz : isPositional d z = true) (tag : Text)

include hx hz

theorem readArguments_positional (hv : isPositional d v = true) :
    readArguments d call tag {} [x, v, z] = (do
      let a ← readUnbound d call tag (.positional 0) x
      let b ← readUnbound d call tag (.positional 1) v
      let c ← readUnbound d call tag (.positional 2) z
      return { positional := [a, b, c] }) := by
  simp only [readArguments, readArgument_of_isPositional hx, readArgument_of_isPositional hv,
    readArgument_of_isPositional hz, map_eq_pure_bind, bind_assoc, pure_bind]
  rfl

theorem readArguments_binding (hd : d.namedArguments = true) {key : Text} (hkey : key.Lettered)
    (hne : key ≠ []) (hv : v ≠ []) :
    readArguments d call tag {} [x, key ++ '=' :: v, z] = (do
      let a ← readUnbound d call tag (.positional 0) x
      let b ← readUnbound d call tag .named v
      let c ← readUnbound d call tag (.positional 1) z
      return { positional := [a, c], named := [(key, b)] }) := by
  simp only [readArguments, readArgument_of_isPositional hx, readArgument_of_isPositional hz,
    readArgument_binding hd hne hkey.nameChars hv, map_eq_pure_bind, bind_assoc, pure_bind]
  rfl

theorem readArguments_binding_of_positional (hd : d.namedArguments = true) {key : Text}
    (hkey : key.Lettered) (hne : key ≠ []) (hv : isPositional d v = true) (hvne : v ≠ [])
    (tag' : Text) {a b c : Argument}
    (hread : (readArguments d call tag {} [x, v, z]).value = { positional := [a, b, c] })
    (hclean : (readArguments d call tag {} [x, v, z]).report.diagnostics = []) :
    (readArguments d call tag' {} [x, key ++ '=' :: v, z]).value =
        { positional := [a, c], named := [(key, b)] } ∧
      (readArguments d call tag' {} [x, key ++ '=' :: v, z]).report.diagnostics = [] := by
  have hfirst : (readUnbound d call tag (.positional 0) x).Like
      (readUnbound d call tag' (.positional 0) x) := readUnbound_like rfl tag tag'
  have hsecond : (readUnbound d call tag (.positional 1) v).Like
      (readUnbound d call tag' .named v) := readUnbound_like rfl tag tag'
  have hthird : (readUnbound d call tag (.positional 2) z).Like
      (readUnbound d call tag' (.positional 1) z) := readUnbound_like rfl tag tag'
  rw [readArguments_positional hx hz tag hv] at hread hclean
  rw [readArguments_binding hx hz tag' hd hkey hne hvne]
  simp only [Reported.report_bind, Reported.report_pure, Report.diagnostics_append,
    List.append_eq_nil_iff] at hclean ⊢
  cases hread
  refine ⟨?_, hfirst.clean.mp hclean.1, hsecond.clean.mp hclean.2.1, hthird.clean.mp hclean.2.2.1,
    trivial⟩
  simp only [Reported.value_bind, Reported.value_pure, hfirst.value, hsecond.value, hthird.value]

end Three

end Read

namespace Context

/-- An argument that is cut out between two words and read without complaint is so with a name in
front of it too, and with the same result, just if its first word opens alike behind the name. -/
theorem readsAs_binding (h : Name) {key v z : Text} (hkey : key.Lettered) (hne : key ≠ [])
    (hz : z.Lettered) (hzne : z ≠ []) (has : z ≠ "as".toList) {a b c : Argument}
    (hsplit : ((ofDialect .anyHelper).split [] ([' '].intercalate [h.text, v, z])).1 =
      [h.text, v, z])
    (hread : (ofDialect .anyHelper).ReadsAs ([' '].intercalate [h.text, v, z])
      { positional := [a, b, c] }) :
    let ctx := ofDialect .anyHelper
    let source := [' '].intercalate [h.text, key ++ '=' :: v, z]
    (ctx.split [] source).1 = [h.text, key ++ '=' :: v, z] ∧
        ctx.ReadsAs source { positional := [a, c], named := [(key, b)] } ↔
      OpensAlike v.firstWord := by
  intro ctx source
  let call := ctx.settings.readCall ctx.settings.maxDepth
  let tag := (Tag.ofInner ([' '].intercalate [h.text, v, z])).text
  let tag' := (Tag.ofInner source).text
  have hplain : PlainWord z := plainWord_of_nameChars hzne hz.nameChars has
  have hvalue (source tag : Text) : (rawArguments .anyHelper false tag source).value =
      (ctx.split [] source).1 := rawArguments_value (.refl _) false false tag [] source
  obtain ⟨hargs, hclean⟩ := readsAs_iff.mp hread
  rw [Reported.report_bind, Report.diagnostics_append, List.append_eq_nil_iff] at hclean
  rw [Reported.value_bind] at hargs
  have hcut : (rawArguments .anyHelper false tag ([' '].intercalate [h.text, v, z])).value =
      [h.text, v, z] := (hvalue _ tag).trans hsplit
  have hbinding := rawArguments_binding_iff (d := .anyHelper) rfl h.plainWord hplain hkey tag tag'
    ⟨hcut, hclean.1⟩
  have hvne : v ≠ [] := ((rawArguments_between_iff (d := .anyHelper) rfl h.plainWord hplain (p := [])
    nofun tag).mp ⟨hcut, hclean.1⟩).1.ne_nil
  rw [hcut] at hargs hclean
  have hpositional : ∀ raw ∈ [h.text, v, z], isPositional .anyHelper raw = true :=
    isPositional_of_length_eq .anyHelper call tag (by rw [hargs]; rfl)
  have hnamed := readArguments_binding_of_positional (hpositional h.text (by simp))
    (hpositional z (by simp)) tag rfl hkey hne (hpositional v (by simp)) hvne tag' hargs hclean.2
  refine Iff.trans ?_ hbinding
  constructor
  · rintro ⟨hsplit', hread'⟩
    have hclean' := (readsAs_iff.mp hread').2
    rw [Reported.report_bind, Report.diagnostics_append, List.append_eq_nil_iff] at hclean'
    exact ⟨(hvalue source tag').trans hsplit', hclean'.1⟩
  · rintro ⟨hcut', hclean'⟩
    refine ⟨(hvalue source tag').symm.trans hcut', readsAs_iff.mpr ?_⟩
    rw [Reported.value_bind, Reported.report_bind, Report.diagnostics_append, hcut', hclean']
    exact hnamed

theorem readsAs_binding_call :
    let ctx := ofDialect .anyHelper
    let inside : ArgumentList :=
      { positional := [.ofName "f".toList, .literal .string "'a b'".toList] }
    ctx.ReadsAs "h (f \"a b\") z".toList { positional := [.ofName "h".toList,
        .subexpression "(f \"a b\")".toList inside, .ofName "z".toList] } ∧
      ctx.ReadsAs "h k=(f \"a b\") z".toList
        { positional := [.ofName "h".toList, .ofName "z".toList],
          named := [("k".toList, .subexpression "(f \"a b\")".toList inside)] } := by
  intro ctx inside
  have hkey : Text.Lettered "k".toList := List.all_eq_true.mp (by decide)
  have hz : Text.Lettered "z".toList := List.all_eq_true.mp (by decide)
  have hsource : [' '].intercalate [(Name.ofLetter 'h' rfl).text, "(f \"a b\")".toList,
      "z".toList] = "h (f \"a b\") z".toList := by decide
  have hbound : [' '].intercalate [(Name.ofLetter 'h' rfl).text, "k=(f \"a b\")".toList,
      "z".toList] = "h k=(f \"a b\") z".toList := by decide
  have hsplit : (ctx.split [] "h (f \"a b\") z".toList).1 =
      ["h".toList, "(f \"a b\")".toList, "z".toList] := by decide +kernel
  have hread : ctx.ReadsAs "h (f \"a b\") z".toList { positional := [.ofName "h".toList,
      .subexpression "(f \"a b\")".toList inside, .ofName "z".toList] } :=
    ⟨rfl, by decide +kernel⟩
  have halike : OpensAlike (Text.firstWord "(f \"a b\")".toList) := by decide +kernel
  rw [← hsource] at hsplit hread ⊢
  rw [← hbound]
  exact ⟨hread, ((readsAs_binding (.ofLetter 'h' rfl) hkey (by decide) hz (by decide) (by decide)
    hsplit hread).mpr halike).2⟩

/-- A bracket in a quoted text is taken to be open behind a name, but not without one. -/
theorem readsAs_binding_bracket :
    let ctx := ofDialect .anyHelper
    (ctx.split [] "h \"[\" z".toList).1 = ["h".toList, "\"[\"".toList, "z".toList] ∧
      ctx.ReadsAs "h \"[\" z".toList { positional := [.ofName "h".toList,
        .literal .string "'['".toList, .ofName "z".toList] } ∧
      ∀ args, ¬ctx.ReadsAs "h k=\"[\" z".toList args := by
  intro ctx
  refine ⟨by decide +kernel, ⟨rfl, by decide +kernel⟩, fun args hread => ?_⟩
  have hdiagnostics : (ctx.readTag (Tag.ofInner "h k=\"[\" z".toList)).2.diagnostics ≠ [] := by
    decide +kernel
  exact hdiagnostics hread.2

end Context

end TemplateTag
