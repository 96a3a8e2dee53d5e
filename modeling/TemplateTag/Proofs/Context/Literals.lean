import TemplateTag.Proofs.Argument.Unescape
import TemplateTag.Proofs.Context.Integers
import TemplateTag.Proofs.Numeral.Canonical
import TemplateTag.Proofs.Reading.Names
/-!
# Literals as arguments

The text of a number is read as the same number again. It is a numeral in the usual ten digits just if
the source has no other ones, for a source with other ones is kept as it is. What is read of a text in
double quotes is the text without the backslashes that escape a quote.
-/
namespace TemplateTag

section Reading

variable {source text : Text}

theorem literal?_eq_number : literal? source = some (.number, text) ↔
    ∃ n, Numeral.ofText? source = some n ∧ n.canonical source = text := by
  rw [literal?]
  cases Numeral.ofText? source with
  | some n => simp
  | none =>
    simp only [reduceCtorEq, false_and, exists_false, iff_false]
    split
    · simp
    · split
      · simp
      · split <;> simp

theorem literal?_of_isCanonicalNumeral (h : text.IsCanonicalNumeral) :
    literal? text = some (.number, text) := by
  obtain ⟨n, hdigits, hmark, hcanonical⟩ := h
  exact literal?_eq_number.mpr
    ⟨n, Numeral.ofText?_eq_some.mpr ⟨hdigits.isDecimalDigit, hmark⟩, hcanonical⟩

/-- A source with unusual digits is kept, and any other numeral gets its canonical text. -/
theorem text_of_literal?_eq_number (h : literal? source = some (.number, text)) :
    text.IsCanonicalNumeral ∧ source.IsAscii ∨ text = source ∧ ¬source.IsAscii := by
  obtain ⟨n, hn, rfl⟩ := literal?_eq_number.mp h
  rw [← Numeral.isAscii_of_ofText?_eq_some hn]
  by_cases hascii : n.isAscii = true
  · exact .inl ⟨Numeral.isCanonicalNumeral_canonical hn hascii, hascii⟩
  · exact .inr ⟨by simp [Numeral.canonical, hascii], hascii⟩

theorem readValue_eq_number {d : Dialect} {position : Position} :
    (readValue d position source).value = .literal .number text ↔
      position.isHead = false ∧ literal? source = some (.number, text) := by
  rw [readValue]
  split
  · next kind content hliteral =>
    rw [Reported.value_pure, hliteral]
    cases position.isHead <;> cases kind <;> simp [Argument.ofLiteral, Argument.ofName]
  · next hliteral =>
    rw [hliteral, readPath_eq]
    rcases pathArgument_cases d position.isHead (pathParts source).1 (pathParts source).2 with
      ⟨content, h⟩ | ⟨names, -, h | ⟨-, -, h⟩⟩ <;>
      simp [h, Argument.ofLiteral]

end Reading

namespace Context

variable {ctx : Context} {position : Position} {source text : Text}

/-- The text of a number is read again as the same number, and nothing is reported. -/
theorem readValue_number_again (h : (ctx.readValue position source).1 = .literal .number text)
    (ctx' : Context) {position' : Position} (hposition : position' ≠ .positional 0) :
    ctx'.readValue position' text = (.literal .number text, ctx') := by
  obtain ⟨-, hsource⟩ := readValue_eq_number.mp h
  have htext : literal? text = some (.number, text) := by
    rcases text_of_literal?_eq_number hsource with ⟨hcanonical, -⟩ | ⟨rfl, -⟩
    · exact literal?_of_isCanonicalNumeral hcanonical
    · exact hsource
  rw [readValue_of_literal? htext, if_neg hposition]
  rfl

theorem readValue_number_again_exponent :
    let ctx := ofDialect .handlebars
    let text := '1' :: List.replicate 300 '0'
    ((ctx.readValue (.positional 1) "+00.10E301".toList).1 = .literal .number text ∧
      Position.named ≠ .positional 0) ∧
      ctx.readValue .named text = (.literal .number text, ctx) := by
  intro ctx text
  have hliteral : literal? "+00.10E301".toList = some (.number, text) := by decide +kernel
  have hsource : (ctx.readValue (.positional 1) "+00.10E301".toList).1 = .literal .number text :=
    readValue_eq_number.mpr ⟨rfl, hliteral⟩
  exact ⟨⟨hsource, nofun⟩, readValue_number_again hsource ctx nofun⟩

/-- The text of a number is a numeral in the usual ten digits just if the source has no other ones. A
source with other ones is kept. -/
theorem readValue_number_ascii (h : (ctx.readValue position source).1 = .literal .number text) :
    (text.IsAsciiNumeral ↔ source.IsAscii) ∧ (¬source.IsAscii → text = source) := by
  obtain ⟨-, hsource⟩ := readValue_eq_number.mp h
  rcases text_of_literal?_eq_number hsource with ⟨hcanonical, hascii⟩ | ⟨rfl, hascii⟩
  · exact ⟨iff_of_true hcanonical.isAsciiNumeral hascii, fun hother => absurd hascii hother⟩
  · exact ⟨iff_of_false (fun hnumeral => hascii hnumeral.isAscii) hascii, fun _ => rfl⟩

theorem readValue_number_ascii_exponent :
    let ctx := ofDialect .handlebars
    (ctx.readValue .named "+1.5E400".toList).1 = .literal .number "+1.5E400".toList ∧
      Text.IsAsciiNumeral "+1.5E400".toList := by
  intro ctx
  have hliteral : literal? "+1.5E400".toList = some (.number, "+1.5E400".toList) := by decide +kernel
  have hsource : (ctx.readValue .named "+1.5E400".toList).1 = .literal .number "+1.5E400".toList :=
    readValue_eq_number.mpr ⟨rfl, hliteral⟩
  exact ⟨hsource, (readValue_number_ascii hsource).1.mpr (by decide)⟩

/-- The Arabic-Indic digit three is read as a number. -/
theorem readValue_number_unusual :
    let source : Text := ['\u0663']
    ((ofDialect .handlebars).readValue (.positional 1) source).1 = .literal .number source ∧
      ¬source.IsAsciiNumeral := by
  intro source
  have hliteral : literal? source = some (.number, source) := by decide +kernel
  have hascii : ¬source.IsAscii := by decide
  exact ⟨readValue_eq_number.mpr ⟨rfl, hliteral⟩, fun hnumeral => hascii hnumeral.isAscii⟩

end Context

end TemplateTag
