import TemplateTag.Proofs.RawArgument.QuotedCall
import TemplateTag.Proofs.Written.Reading
/-!
# Texts in double quotes as arguments

When a text in double quotes between two names is read as a string, in a tag and in a call.
-/
namespace TemplateTag

theorem Settings.checkHelper_eq_pure {s : Settings} (hs : s.dialect.arbitraryHelpers = true)
    (args : ArgumentList) : s.checkHelper args = pure () := by
  rw [checkHelper, hs]
  cases args.get? 0 <;> rfl

section ReadArguments

variable {d : Dialect} {call : Text → Reported ArgumentList} {tag : Text}

theorem readArgument_name (hd : d.stringParams = false) (n : Name) (index : Nat) :
    readArgument d call tag index n.text = pure (.positional (.ofName n.text)) := by
  apply readArgument_positional (v := .name n) hd
  · intro helper args h
    cases h
  · rintro ⟨p, h⟩
    cases h

theorem readArgument_doubleQuoted {t : Text} (ht : '"' ∉ t) {index : Nat} (hindex : index ≠ 0) :
    readArgument d call tag index t.doubleQuoted =
      pure (.positional (.literal .string (singleQuoted t))) := by
  rw [readArgument, isCall_doubleQuoted, if_neg Bool.false_ne_true,
    blockParamNames?_of_head (trimmed_doubleQuoted t).head_ink]
  simp only [Binding.ofText?_doubleQuoted, ite_self]
  rw [readCheckedValue_doubleQuoted ht d tag (isHead_positional hindex)]
  rfl

theorem readArgument_of_isCall {raw : Text} (hraw : isCall raw = true) (index : Nat) :
    readArgument d call tag index raw = (.positional <| .subexpression raw ·) <$> call raw := by
  rw [readArgument, if_pos hraw]

end ReadArguments

/-- A name, a string and a name. -/
def quotedArguments (h x : Name) (t : Text) : ArgumentList where
  positional := [.ofName h.text, .literal .string (singleQuoted t), .ofName x.text]

section Body

variable (h x : Name) {t : Text} (ht : '"' ∉ t) {d : Dialect}
  (hadvanced : d.advancedVariables = true) (hstring : d.stringParams = false)
  (call : Text → Reported ArgumentList) (nested : Bool) (tag : Text)

include ht hadvanced hstring

/-- The text is read as a string just if it stands alone. -/
theorem readArguments_doubleQuoted :
    let reading := rawArguments d nested tag
      ([' '].intercalate [h.text, t.doubleQuoted, x.text]) >>= readArguments d call tag {}
    reading.value = quotedArguments h x t ∧ reading.report.diagnostics = [] ↔ t.StandsAlone := by
  intro reading
  by_cases halone : t.StandsAlone
  · have hread : reading = pure (quotedArguments h x t) := by
      simp only [reading, rawArguments_doubleQuoted h x ht hadvanced nested tag halone, pure_bind,
        readArguments, readArgument_name hstring, List.length_nil, Arguments.place, Arguments.push,
        List.nil_append, List.length_singleton,
        readArgument_doubleQuoted ht (Nat.succ_ne_zero 0), List.cons_append]
      rfl
    rw [hread]
    exact iff_of_true ⟨rfl, rfl⟩ halone
  · refine iff_of_false (fun hread => ?_) halone
    obtain ⟨more, hmore, hlength⟩ := positional_readArguments d call tag {}
      (rawArguments d nested tag ([' '].intercalate [h.text, t.doubleQuoted, x.text])).value
    rw [rawArguments_value_doubleQuoted h x ht hadvanced nested tag halone] at hmore hlength
    have hvalue := hread.1
    rw [Reported.value_bind, rawArguments_value_doubleQuoted h x ht hadvanced nested tag halone]
      at hvalue
    rw [hvalue, List.nil_append] at hmore
    have hle := hlength.trans_le List.countP_le_length
    rw [← hmore] at hle
    simp [quotedArguments] at hle

end Body

namespace Settings

variable {s : Settings} (hs : s.dialect = .anyHelper) (h x : Name) {t : Text} (ht : '"' ∉ t)

include hs ht

theorem readCall_quotedCall (room : Nat) :
    (s.readCall (room + 1) (quotedCall h x t)).value = quotedArguments h x t ∧
      (s.readCall (room + 1) (quotedCall h x t)).report.diagnostics = [] ↔ t.StandsAlone := by
  have hbody := readArguments_doubleQuoted h x ht (d := s.dialect) (by rw [hs]; rfl)
    (by rw [hs]; rfl) (s.readCall room) true (quotedCall h x t)
  have hcheck : ∀ args, s.checkHelper args = pure () := checkHelper_eq_pure (by rw [hs]; rfl)
  simp only [readCall, callBody_quotedCall, hcheck, pure_bind, bind_pure]
  exact hbody

variable (f y : Name) (room : Nat) (tag : Text)

/-- The call is read as it is meant just if it is cut off at its end and the text in it stands
alone. -/
theorem readArguments_quotedCall :
    let reading := rawArguments s.dialect false tag
        ([' '].intercalate [f.text, quotedCall h x t, y.text]) >>=
      readArguments s.dialect (s.readCall (room + 1)) tag {}
    reading.value = { positional := [.ofName f.text,
        .subexpression (quotedCall h x t) (quotedArguments h x t), .ofName y.text] } ∧
      reading.report.diagnostics = [] ↔
    t.StandsAlone ∧ countedDepth? 0 t.doubleQuoted.words = some 0 := by
  intro reading
  have hadvanced : s.dialect.advancedVariables = true := by rw [hs]; rfl
  have hstring : s.dialect.stringParams = false := by rw [hs]; rfl
  cases hdepth : countedDepth? 0 t.doubleQuoted.words with
  | none =>
    refine iff_of_false (fun hread => ?_) (by simp)
    rcases rawArguments_quotedCall_closed h x t hadvanced f y tag hdepth with
      hunbalanced | ⟨raw, more, hraws, hraw, hne⟩
    · have hdiagnostics := hread.2
      rw [Reported.report_bind, Report.diagnostics_append, hunbalanced] at hdiagnostics
      cases hdiagnostics
    · have hvalue := congrArg Arguments.positional hread.1
      rw [Reported.value_bind, hraws, readArguments, readArgument_name hstring, pure_bind,
        readArguments, readArgument_of_isCall hraw, Reported.value_bind,
        Reported.value_map] at hvalue
      obtain ⟨later, hlater, -⟩ := positional_readArguments s.dialect (s.readCall (room + 1)) tag
        { positional := [.ofName f.text,
            .subexpression raw (s.readCall (room + 1) raw).value] } more
      have hsource := hlater.symm.trans hvalue
      rw [List.cons_append, List.cons_append, List.cons.injEq, List.cons.injEq,
        Argument.subexpression.injEq] at hsource
      exact hne hsource.2.1.1
  | some depth =>
    cases depth with
    | zero =>
      have hread : reading = (fun args => { positional := [.ofName f.text,
          .subexpression (quotedCall h x t) args, .ofName y.text] }) <$>
            s.readCall (room + 1) (quotedCall h x t) := by
        simp only [reading, rawArguments_quotedCall h x t hadvanced f y tag hdepth, pure_bind,
          readArguments, readArgument_name hstring, List.length_nil, Arguments.place,
          Arguments.push, List.nil_append, readArgument_of_isCall (isCall_quotedCall h x t),
          List.cons_append, map_eq_pure_bind, bind_assoc]
      rw [hread, Reported.value_map, Reported.report_map]
      have hcall := readCall_quotedCall hs h x ht room
      simp [hcall.symm]
    | succ depth =>
      refine iff_of_false (fun hread => ?_) (by simp)
      have hdiagnostics := hread.2
      rw [Reported.report_bind, Report.diagnostics_append,
        rawArguments_quotedCall_unclosed h x t hadvanced f y tag hdepth] at hdiagnostics
      cases hdiagnostics

end Settings

theorem Settings.readTag_ofInner (s : Settings) (inner : Text) :
    s.readTag (Tag.ofInner inner) =
      (fun args => ⟨s.unescaped (Tag.ofInner inner), args⟩) <$>
        (rawArguments s.dialect false (Tag.ofInner inner).text inner >>=
          readArguments s.dialect (s.readCall s.maxDepth) (Tag.ofInner inner).text {}) := by
  simp only [readTag, map_eq_pure_bind, bind_assoc]
  rfl

namespace Context

/-- The inside of a tag is read as the arguments, and nothing is wrong with it. -/
def ReadsAs (ctx : Context) (inner : Text) (args : ArgumentList) : Prop :=
  (ctx.readTag (Tag.ofInner inner)).1.args = args ∧
    (ctx.readTag (Tag.ofInner inner)).2.diagnostics = []

theorem readsAs_iff {d : Dialect} {inner : Text} {args : ArgumentList} :
    let s := (ofDialect d).settings
    let reading := rawArguments d false (Tag.ofInner inner).text inner >>=
      readArguments d (s.readCall s.maxDepth) (Tag.ofInner inner).text {}
    (ofDialect d).ReadsAs inner args ↔
      reading.value = args ∧ reading.report.diagnostics = [] := by
  rw [ReadsAs, readTag, Settings.readTag_ofInner, absorb, Reported.report_map]
  rfl

/-- A text in double quotes between two names is read as a string just if it stands alone, and so it
is in a call if the parentheses in it are counted evenly too. -/
theorem readsAs_doubleQuoted (f h x y : Name) {t : Text} (ht : '"' ∉ t) :
    let ctx := ofDialect .anyHelper
    (ctx.ReadsAs ([' '].intercalate [h.text, t.doubleQuoted, x.text]) (quotedArguments h x t) ↔
      t.StandsAlone) ∧
    (ctx.ReadsAs ([' '].intercalate [f.text, quotedCall h x t, y.text])
      { positional := [.ofName f.text, .subexpression (quotedCall h x t) (quotedArguments h x t),
          .ofName y.text] } ↔
      t.StandsAlone ∧ countedDepth? 0 t.doubleQuoted.words = some 0) := by
  intro ctx
  constructor
  · apply readsAs_iff.trans
    exact readArguments_doubleQuoted h x ht rfl rfl _ false _
  · apply readsAs_iff.trans
    exact ctx.settings.readArguments_quotedCall rfl h x ht f y 63 _

theorem readsAs_doubleQuoted_parentheses :
    let ctx := ofDialect .anyHelper
    let args : ArgumentList := { positional := [.ofName "h".toList,
      .literal .string "'a (b) c'".toList, .ofName "x".toList] }
    ctx.ReadsAs "h \"a (b) c\" x".toList args ∧
      ctx.ReadsAs "f (h \"a (b) c\" x) y".toList { positional := [.ofName "f".toList,
        .subexpression "(h \"a (b) c\" x)".toList args, .ofName "y".toList] } := by
  have hquote : '"' ∉ "a (b) c".toList := by decide
  have halone : Text.StandsAlone "a (b) c".toList := .inl ⟨' ', by decide, rfl⟩
  have hdepth : countedDepth? 0 (Text.doubleQuoted "a (b) c".toList).words = some 0 := by decide
  have hreads := readsAs_doubleQuoted (.ofLetter 'f' rfl) (.ofLetter 'h' rfl) (.ofLetter 'x' rfl)
    (.ofLetter 'y' rfl) hquote
  exact ⟨hreads.1.mpr halone, hreads.2.mpr ⟨halone, hdepth⟩⟩

/-- A lone parenthesis and a value in escaped quotes are taken for the start of something, and in a
call the words between the quotes open and close parentheses of the call. -/
theorem readsAs_doubleQuoted_marks :
    let ctx := ofDialect .anyHelper
    ∀ inner ∈ (["h \"(\" x".toList, "h \"=\\'\" x".toList, "f (h \"a ( b\" x) y".toList,
      "f (h \"a ) b\" x) y".toList] : List Text), ∀ args, ¬ctx.ReadsAs inner args := by
  intro ctx inner hinner args hreads
  have hdiagnostics : ∀ inner ∈ (["h \"(\" x".toList, "h \"=\\'\" x".toList,
      "f (h \"a ( b\" x) y".toList, "f (h \"a ) b\" x) y".toList] : List Text),
      (ctx.readTag (Tag.ofInner inner)).2.diagnostics ≠ [] := by decide +kernel
  exact hdiagnostics inner hinner hreads.2

end Context

end TemplateTag
