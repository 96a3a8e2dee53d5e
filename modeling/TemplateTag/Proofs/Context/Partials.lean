import TemplateTag.Context
import TemplateTag.Proofs.Reading.Placements
import TemplateTag.Proofs.Reading.Syntax
/-!
# The names of partials

The name of a partial is found by its place among the raw arguments, and put into the same place
among the positional arguments. These are different places if a raw argument in front of the name, or
the name itself, is not positional.
-/
namespace TemplateTag

section Lists

variable {α : Type} {l : List α} {i k : Nat} {x : α}

theorem set_eq_self_iff : l.set i x = l ↔ ∀ a ∈ l[i]?, a = x := by
  constructor
  · intro h a ha
    obtain ⟨hi, rfl⟩ := List.getElem?_eq_some_iff.mp ha
    have hset : (l.set i x)[i]? = some x := List.getElem?_set_self hi
    rw [h, ha] at hset
    exact Option.some.inj hset
  · intro h
    by_cases hi : i < l.length
    · rw [← h l[i] (List.getElem?_eq_getElem hi), List.set_getElem_self]
    · exact List.set_eq_of_length_le (Nat.le_of_not_lt hi)

theorem set_eq_set_iff (hne : i ≠ k) :
    l.set i x = l.set k x ↔ (∀ a ∈ l[i]?, a = x) ∧ ∀ a ∈ l[k]?, a = x := by
  have hkept {i k : Nat} (hne : i ≠ k) (h : l.set i x = l.set k x) : ∀ a ∈ l[k]?, a = x := by
    rw [← List.getElem?_set_ne hne (a := x), h]
    intro a ha
    obtain ⟨hk, rfl⟩ := List.getElem?_eq_some_iff.mp ha
    exact List.getElem_set_self hk
  constructor
  · intro h
    exact ⟨hkept hne.symm h.symm, hkept hne h⟩
  · intro h
    rw [set_eq_self_iff.mpr h.1, set_eq_self_iff.mpr h.2]

end Lists

namespace Tag

/-- The positional arguments with the name of the partial in place of the one that was read from it.
A name that is part of a binding or of block parameters was read as none of them. -/
def renamePartial (d : Dialect) (tag : Tag) (raws : List Text) (positional : List Argument) :
    List Argument :=
  match tag.partial? raws with
  | none => positional
  | some (index, name) =>
    match positionalIndex? d raws index with
    | none => positional
    | some place => positional.set place (.ofName name)

/-- The argument read from the name is at the place where the name is put, or else what is at either
place is the name already. -/
def PartialFits (d : Dialect) (tag : Tag) (raws : List Text) (positional : List Argument) : Prop :=
  ∀ slot ∈ tag.partial? raws, positionalIndex? d raws slot.1 = some slot.1 ∨
    (∀ a ∈ positional[slot.1]?, a = .ofName slot.2) ∧
      ∀ place ∈ positionalIndex? d raws slot.1, ∀ a ∈ positional[place]?, a = .ofName slot.2

theorem placePartial_withoutOperator (tag : Tag) (raws : List Text) (args : ArgumentList) :
    (tag.withOperator []).placePartial raws args = args := rfl

theorem positional_placePartial_eq_iff (d : Dialect) (tag : Tag) (raws : List Text)
    (args : ArgumentList) :
    (tag.placePartial raws args).positional = tag.renamePartial d raws args.positional ↔
      tag.PartialFits d raws args.positional := by
  rw [placePartial, renamePartial, PartialFits]
  cases tag.partial? raws with
  | none => simp
  | some slot =>
    obtain ⟨index, name⟩ := slot
    cases hplace : positionalIndex? d raws index with
    | none => simpa [hplace] using set_eq_self_iff
    | some place =>
      by_cases hne : index = place
      · subst hne
        simp [hplace]
      · simpa [hplace, Ne.symm hne] using set_eq_set_iff hne

end Tag

section Settings

variable (s : Settings) (tag : Tag)

/-- The operator of a tag has no influence on what is read from its inside. -/
theorem Settings.args_readTag_withoutOperator :
    (s.readTag (tag.withOperator [])).value.args =
      (readArguments s.dialect (s.readCall s.maxDepth) tag.text {}
        (rawArguments s.dialect false tag.text tag.inner).value).value := by
  have hraws := rawArguments_value (.refl s.dialect) false false (tag.withOperator []).text tag.text
    tag.inner
  have hinner : (tag.withOperator []).inner = tag.inner := rfl
  have hargs (l : ArgumentList) (raws : List Text) :
      (readArguments s.dialect (s.readCall s.maxDepth) (tag.withOperator []).text l raws).value =
        (readArguments s.dialect (s.readCall s.maxDepth) tag.text l raws).value :=
    readArguments_value (.refl s.dialect) (fun _ => rfl) _ _ raws l
  simp only [readTag, Reported.value_bind, Reported.value_pure, Tag.placePartial_withoutOperator]
  rw [hinner, hraws, hargs]

theorem Settings.args_readTag :
    (s.readTag tag).value.args =
      tag.placePartial (rawArguments s.dialect false tag.text tag.inner).value
        (s.readTag (tag.withOperator [])).value.args := by
  rw [args_readTag_withoutOperator]
  rfl

end Settings

namespace Context

/-- The operator of a partial only puts the name of the partial into the place of a positional
argument. That is the argument which was read from the name just if `PartialFits` holds, since the
place is not `positionalIndex?`, where the argument of a positional raw argument stands. -/
theorem readTag_partial (ctx : Context) (tag : Tag) :
    let d := ctx.settings.dialect
    let raws := (ctx.split tag.text tag.inner).1
    let args := (ctx.readTag tag).1.args
    let plain := (ctx.readTag (tag.withOperator [])).1.args
    args.named = plain.named ∧ args.blockParams = plain.blockParams ∧
      (args.positional = (tag.partial? raws).elim plain.positional
        fun slot => plain.positional.set slot.1 (.ofName slot.2)) ∧
      (args.positional = tag.renamePartial d raws plain.positional ↔
        tag.PartialFits d raws plain.positional) ∧
      ∀ i k, positionalIndex? d raws i = some k → ∃ raw ∈ raws[i]?,
        plain.positional[k]? = (readArgument d (ctx.settings.readCall ctx.settings.maxDepth)
          tag.text k raw).value.positional? := by
  intro d raws args plain
  have hargs : args = tag.placePartial raws plain := ctx.settings.args_readTag tag
  refine ⟨?_, ?_, ?_, ?_, ?_⟩
  · rw [hargs, Tag.placePartial]
    cases tag.partial? raws <;> rfl
  · rw [hargs, Tag.placePartial]
    cases tag.partial? raws <;> rfl
  · rw [hargs, Tag.placePartial]
    cases tag.partial? raws <;> rfl
  · rw [hargs]
    exact tag.positional_placePartial_eq_iff d raws plain
  · intro i k hk
    obtain ⟨raw, hraw, hpositional, rfl⟩ := of_positionalIndex?_eq_some hk
    have hplain : plain = _ := ctx.settings.args_readTag_withoutOperator tag
    have hplace := getElem?_positional_readArguments d
      (ctx.settings.readCall ctx.settings.maxDepth) tag.text hraw hpositional {}
    simp only [List.length_nil, Nat.zero_add] at hplace
    exact ⟨raw, hraw, by rw [hplain]; exact hplace⟩

theorem readTag_partial_inline :
    let ctx := ofDialect .handlebars
    let tag := (Tag.ofInner "inline \"my part\" k=v".toList).withOperator "#*".toList
    let args := (ctx.readTag tag).1.args
    let plain := (ctx.readTag (tag.withOperator [])).1.args
    plain.positional = [.ofName "inline".toList, .literal .string "'my part'".toList] ∧
      args.positional = [.ofName "inline".toList, .ofName "my part".toList] ∧
      args.named = plain.named := by
  intro ctx tag args plain
  have hplain : plain.positional =
      [.ofName "inline".toList, .literal .string "'my part'".toList] := rfl
  have hraws : (ctx.split tag.text tag.inner).1 =
      ["inline".toList, "\"my part\"".toList, "k=v".toList] := by decide +kernel
  obtain ⟨hnamed, -, -, hfits, -⟩ := readTag_partial ctx tag
  have hplace : tag.PartialFits .handlebars (ctx.split tag.text tag.inner).1 plain.positional := by
    rw [hraws]
    rintro slot ⟨⟩
    exact .inl rfl
  refine ⟨hplain, ?_, hnamed⟩
  rw [hfits.mpr hplace, hraws]
  rfl

/-- A binding in front of the argument of a partial is taken for the name, and the argument gives way
to it. -/
theorem readTag_partial_bound :
    let ctx := ofDialect .handlebars
    let tag := (Tag.ofInner "k=v x".toList).withOperator ['>']
    let plain := (ctx.readTag (tag.withOperator [])).1.args
    plain.positional = [.ofName "x".toList] ∧
      (ctx.readTag tag).1.args.positional = [.ofName "k=v".toList] ∧
      tag.renamePartial .handlebars (ctx.split tag.text tag.inner).1 plain.positional =
        plain.positional :=
  ⟨rfl, rfl, rfl⟩

end Context

end TemplateTag
