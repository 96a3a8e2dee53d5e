import TemplateTag.Proofs.Context.Brackets
import TemplateTag.Proofs.Numeral.Integer
/-!
# Integers as arguments

An integer of any width is read as a literal with the same value. Two texts of one integer are read
alike, without a plus and without superfluous zeros, if it fits into 64 bits.
-/
namespace TemplateTag

theorem literal?_integer (n : SignedDigits) : literal? n.text = some (.number, n.canonical.text) := by
  rw [literal?, SignedDigits.ofText?_text, ← SignedDigits.canonical_numeral]

theorem Position.isHead_iff {position : Position} :
    position.isHead = true ↔ position = .positional 0 := by
  cases position with
  | named => simp [isHead]
  | positional i => cases i <;> simp [isHead]

namespace Context

theorem readValue_of_literal? {kind : LiteralKind} {source text : Text}
    (h : literal? source = some (kind, text)) (ctx : Context) (position : Position) :
    ctx.readValue position source =
      (if position = .positional 0 then .ofName text else .ofLiteral kind text, ctx) := by
  rw [readValue, TemplateTag.readValue, h]
  simp only [absorb_pure, Position.isHead_iff]

theorem readValue_canonical (ctx : Context) (position : Position) (n : SignedDigits) :
    ctx.readValue position n.text =
      (if position = .positional 0 then .path 0 [.name n.canonical.text]
        else .literal .number n.canonical.text, ctx) :=
  readValue_of_literal? (literal?_integer n) ctx position

/-- An integer of any width is read as a literal of the same value, and at the head of a tag as the path
of one name with the same text. -/
theorem readValue_integer (ctx : Context) (n : SignedDigits) :
    ∃ m : SignedDigits, m.value = n.value ∧ ∀ position,
      ctx.readValue position n.text =
        (if position = .positional 0 then .path 0 [.name m.text] else .literal .number m.text, ctx) :=
  ⟨n.canonical, SignedDigits.value_canonical, fun position => readValue_canonical ctx position n⟩

/-- Two texts of one integer are both read as its shortest text just if it fits into 64 bits or neither
has a zero in front, nor a plus if the integer is out of the range of binary64. -/
theorem readValue_sameInteger (ctx : Context) {position : Position}
    (hposition : position ≠ .positional 0) {n m : SignedDigits} (h : n.value = m.value) :
    ((ctx.readValue position n.text).1 = .literal .number (SignedDigits.ofInt n.value).text ∧
        (ctx.readValue position m.text).1 = .literal .number (SignedDigits.ofInt n.value).text) ↔
      FitsWord n.value ∨
        ∀ k ∈ [n, m], k.digits.head? ≠ some '0' ∧
          (k.sign = .plus → (Binary64.nearest? k.magnitude 0).isSome = true) := by
  have hread (k : SignedDigits) (hk : k.value = n.value) :
      (ctx.readValue position k.text).1 = .literal .number (SignedDigits.ofInt n.value).text ↔
        FitsWord n.value ∨ k.digits.head? ≠ some '0' ∧
          (k.sign = .plus → (Binary64.nearest? k.magnitude 0).isSome = true) := by
    rw [← hk, ← SignedDigits.canonical_eq_ofInt_iff, ← SignedDigits.text_inj, readValue_canonical,
      if_neg hposition, Argument.literal.injEq]
    simp
  rw [hread n rfl, hread m h.symm, ← or_and_left]
  simp

theorem readValue_sameInteger_wide :
    let ctx := ofDialect .handlebars
    let n : SignedDigits :=
      ⟨.unsigned, "12345678901234567890".toList, List.cons_ne_nil _ _, List.all_eq_true.mp rfl⟩
    let m : SignedDigits := { n with sign := .plus }
    (Position.named ≠ .positional 0 ∧ n.value = m.value ∧ ¬FitsWord n.value) ∧
      (ctx.readValue .named "12345678901234567890".toList).1 =
        .literal .number "12345678901234567890".toList ∧
      (ctx.readValue .named "+12345678901234567890".toList).1 =
        .literal .number "12345678901234567890".toList := by
  intro ctx n m
  have hfinite : (Binary64.nearest? n.magnitude 0).isSome = true := by decide +kernel
  have hwide : ∀ k ∈ [n, m], k.digits.head? ≠ some '0' ∧
      (k.sign = .plus → (Binary64.nearest? k.magnitude 0).isSome = true) := by
    rw [List.forall_mem_cons, List.forall_mem_singleton]
    exact ⟨⟨by decide, fun _ => hfinite⟩, ⟨by decide, fun _ => hfinite⟩⟩
  have hshortest : (SignedDigits.ofInt n.value).text = "12345678901234567890".toList := by
    decide +kernel
  have hposition : Position.named ≠ .positional 0 := by decide
  have hvalue : n.value = m.value := rfl
  have hsame := (readValue_sameInteger ctx hposition hvalue).mpr (.inr hwide)
  rw [hshortest] at hsame
  exact ⟨⟨hposition, hvalue, by decide +kernel⟩, hsame⟩

/-- A wide integer keeps its zeros in front. -/
theorem readValue_sameInteger_zeros :
    let ctx := ofDialect .handlebars
    let n : SignedDigits :=
      ⟨.unsigned, "12345678901234567890".toList, List.cons_ne_nil _ _, List.all_eq_true.mp rfl⟩
    let m : SignedDigits :=
      ⟨.unsigned, "012345678901234567890".toList, List.cons_ne_nil _ _, List.all_eq_true.mp rfl⟩
    n.value = m.value ∧
      (ctx.readValue (.positional 1) n.text).1 =
        .literal .number "12345678901234567890".toList ∧
      (ctx.readValue (.positional 1) m.text).1 =
        .literal .number "012345678901234567890".toList := by
  intro ctx n m
  have hn : n.canonical.text = "12345678901234567890".toList := by decide +kernel
  have hm : m.canonical.text = "012345678901234567890".toList := by decide +kernel
  rw [readValue_canonical, readValue_canonical, hn, hm]
  exact ⟨by decide +kernel, rfl, rfl⟩

end Context

end TemplateTag
