import TemplateTag.Tag.Reading
/-!
# What an argument list depends on

Four features of a dialect decide what arguments are read from a text. The others, the registered
helpers and the place where the text stands only decide what is reported.
-/
namespace TemplateTag

namespace Dialect

/-- The dialects read the same arguments. -/
structure SameSyntax (d d' : Dialect) : Prop where
  advancedVariables : d.advancedVariables = d'.advancedVariables
  implicitThis : d.implicitThis = d'.implicitThis
  stringParams : d.stringParams = d'.stringParams
  namedArguments : d.namedArguments = d'.namedArguments

theorem SameSyntax.refl (d : Dialect) : d.SameSyntax d :=
  ⟨rfl, rfl, rfl, rfl⟩

end Dialect

variable {d d' : Dialect}

theorem rawArguments_value (h : d.SameSyntax d') (nested nested' : Bool) (tag tag' source : Text) :
    (rawArguments d nested tag source).value = (rawArguments d' nested' tag' source).value := by
  simp only [rawArguments, h.advancedVariables]
  by_cases hwords : source.words.isEmpty = true
  · rw [if_pos hwords, if_pos hwords]
  · rw [if_neg hwords, if_neg hwords]
    by_cases hadvanced : d'.advancedVariables = true
    · rw [if_pos hadvanced, if_pos hadvanced]
      rfl
    · rw [if_neg hadvanced, if_neg hadvanced]

theorem Step.isThis_eq (h : d.implicitThis = d'.implicitThis) : isThis d = isThis d' := by
  funext s
  rw [isThis, isThis, h]

theorem pathArgument_eq (h : d.SameSyntax d') (head : Bool) (levels : Nat) (rest : Text) :
    pathArgument d head levels rest = pathArgument d' head levels rest := by
  simp only [pathArgument, Step.isThis_eq h.implicitThis, h.advancedVariables, h.stringParams]

/-- The steps up of a path, counted, and the rest of it. -/
def pathParts (source : Text) : Nat × Text :=
  splitParents (if source.trim = "..".toList then "../".toList else source.trim)

theorem readPath_eq (d : Dialect) (head : Bool) (source : Text) :
    readPath d head source =
      { value := pathArgument d head (pathParts source).1 (pathParts source).2
        report :=
          { diagnostics :=
              if 0 < (pathParts source).1 && !d.parentAccess then [.parentAccess source.trim]
              else []
            usage := { parents := (pathParts source).1 } } } := by
  rw [readPath, pathParts]
  split
  next levels rest hparts =>
    rw [hparts]
    by_cases haccess : (0 < levels && !d.parentAccess) = true
    · rw [if_pos haccess, if_pos haccess]
      rfl
    · rw [if_neg haccess, if_neg haccess]
      rfl

theorem readPath_value (h : d.SameSyntax d') (head : Bool) (source : Text) :
    (readPath d head source).value = (readPath d' head source).value := by
  rw [readPath_eq, readPath_eq]
  exact pathArgument_eq h head _ _

theorem readValue_value (h : d.SameSyntax d') (position : Position) (source : Text) :
    (readValue d position source).value = (readValue d' position source).value := by
  rw [readValue, readValue]
  cases literal? source with
  | some literal => rfl
  | none => exact readPath_value h position.isHead source

theorem readCheckedValue_value (d : Dialect) (tag : Text) (position : Position) (raw : Text) :
    (readCheckedValue d tag position raw).value = (readValue d position raw).value := by
  rw [readCheckedValue]
  split <;> rfl

section Calls

variable {call call' : Text → Reported ArgumentList}

theorem readArgument_value (h : d.SameSyntax d')
    (hcall : ∀ source, (call source).value = (call' source).value) (tag tag' : Text) (index : Nat)
    (raw : Text) :
    (readArgument d call tag index raw).value = (readArgument d' call' tag' index raw).value := by
  rw [readArgument, readArgument, h.namedArguments]
  by_cases hraw : isCall raw = true
  · rw [if_pos hraw, if_pos hraw, Reported.value_map, Reported.value_map, hcall]
  · rw [if_neg hraw, if_neg hraw]
    cases blockParamNames? raw with
    | some names => rfl
    | none =>
      cases if d'.namedArguments then Binding.ofText? raw else none with
      | none =>
        rw [Reported.value_map, Reported.value_map, readCheckedValue_value,
          readCheckedValue_value, readValue_value h]
      | some b =>
        simp only [Reported.value_bind, Reported.value_map]
        by_cases hb : isCall b.value = true
        · rw [if_pos hb, if_pos hb, Reported.value_map, Reported.value_map, hcall]
        · rw [if_neg hb, if_neg hb, readCheckedValue_value, readCheckedValue_value,
            readValue_value h]

theorem readArguments_value (h : d.SameSyntax d')
    (hcall : ∀ source, (call source).value = (call' source).value) (tag tag' : Text)
    (raws : List Text) (l : ArgumentList) :
    (readArguments d call tag l raws).value = (readArguments d' call' tag' l raws).value := by
  induction raws generalizing l with
  | nil => rfl
  | cons raw raws ih =>
    rw [readArguments, readArguments, Reported.value_bind, Reported.value_bind,
      readArgument_value h hcall tag tag', ih]

end Calls

namespace Settings

variable {s s' : Settings}

theorem readCall_value (h : s.dialect.SameSyntax s'.dialect) (room : Nat) (source : Text) :
    (s.readCall room source).value = (s'.readCall room source).value := by
  induction room generalizing source with
  | zero => rfl
  | succ room ih =>
    simp only [readCall, Reported.value_bind, Reported.value_pure]
    rw [rawArguments_value h true true source source]
    exact readArguments_value h ih source source _ {}

theorem readTag_args (h : s.dialect.SameSyntax s'.dialect) (hdepth : s.maxDepth = s'.maxDepth)
    (tag : Tag) : (s.readTag tag).value.args = (s'.readTag tag).value.args := by
  simp only [readTag, Reported.value_bind, Reported.value_pure]
  rw [rawArguments_value h false false tag.text tag.text, hdepth]
  rw [readArguments_value h (fun source => readCall_value h _ source) tag.text tag.text]

end Settings

end TemplateTag
