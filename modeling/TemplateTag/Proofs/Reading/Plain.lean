import TemplateTag.Proofs.Argument.Path
import TemplateTag.Proofs.RawArgument.Opening
import TemplateTag.Proofs.RawArgument.Part
import TemplateTag.Proofs.RawArgument.Shape
import TemplateTag.Proofs.Reading.Calls
/-!
# Plain text

Without quotes, brackets, parentheses, equals signs and bars every word is a positional argument.
Two features of a dialect decide what it is read as, and none what it adds to the usage.
-/
namespace TemplateTag

namespace Text

/-- Each word of the text stands for itself. -/
structure Plain (t : Text) : Prop where
  unmarked : t.Unmarked
  ne_as : ∀ w ∈ t.words, w.text ≠ "as".toList

/-- The words of a text, or what is between its spaces if it has no words. -/
def pieces (t : Text) : List Text :=
  if t.words.isEmpty then t.splitOn ' ' else t.words.map Word.text

end Text

section Words

theorem Runs.scan_of_unopened {ws : List Word}
    (h : ∀ w ∈ ws, ∀ started, opening? started w.text = none) (started : Bool) :
    scan (.between started) ws = ⟨ws.map fun w => ⟨w, [], false⟩, .complete⟩ := by
  induction ws generalizing started with
  | nil => rfl
  | cons w ws ih =>
    have hw := h w (List.mem_cons_self ..) started
    have hrest := ih fun v hv => h v (List.mem_cons_of_mem w hv)
    simp only [scan, hw, hrest, cons, List.map_cons]

/-- Every dialect cuts a plain text into the same pieces. -/
theorem rawArguments_of_plain {source : Text} (h : source.Plain) (d : Dialect) (nested : Bool)
    (tag : Text) : rawArguments d nested tag source = pure source.pieces := by
  have hopening : ∀ w ∈ source.words, ∀ started, opening? started w.text = none := fun w hw =>
    opening?_of_unmarked (h.unmarked.of_infix (infix_of_mem_words hw)) (h.ne_as w hw)
  have hruns : Runs.ofWords source.words = _ := Runs.scan_of_unopened hopening false
  have htexts : (Runs.ofWords source.words).runs.map Run.text = source.words.map Word.text := by
    rw [hruns, List.map_map]
    apply List.map_congr_left
    intro w hw
    simp [Run.text]
  rw [Text.pieces]
  by_cases hwords : source.words.isEmpty = true
  · rw [rawArguments, if_pos hwords, if_pos hwords]
  · rw [if_neg hwords]
    cases hd : d.advancedVariables with
    | true =>
      have hne : source.words ≠ [] := fun hnil => hwords (by rw [hnil]; rfl)
      rw [rawArguments_of_complete hd hne (by rw [hruns]), htexts]
    | false =>
      rw [rawArguments, if_neg hwords, if_neg (by simp [hd])]

theorem Text.Plain.unmarked_of_mem_pieces {source raw : Text} (h : source.Plain)
    (hraw : raw ∈ source.pieces) : raw.Unmarked := by
  have hmem : raw ∈ (rawArguments .mustache false [] source).value := by
    rwa [rawArguments_of_plain h]
  exact h.unmarked.of_infix (infix_of_mem_rawArguments hmem)

end Words

/-- The readings have the same result and add the same to the usage. What they report as wrong may
differ. -/
structure Reported.Agrees {α : Type} (x y : Reported α) : Prop where
  value : x.value = y.value
  usage : x.report.usage = y.report.usage

namespace Reported.Agrees

variable {α β : Type} {x y z : Reported α}

theorem refl (x : Reported α) : x.Agrees x :=
  ⟨rfl, rfl⟩

theorem symm (h : x.Agrees y) : y.Agrees x :=
  ⟨h.value.symm, h.usage.symm⟩

theorem trans (h : x.Agrees y) (h' : y.Agrees z) : x.Agrees z :=
  ⟨h.value.trans h'.value, h.usage.trans h'.usage⟩

theorem bind {f g : α → Reported β} (h : x.Agrees y) (hf : ∀ a, (f a).Agrees (g a)) :
    (x >>= f).Agrees (y >>= g) := by
  refine ⟨?_, ?_⟩
  · rw [value_bind, value_bind, h.value, (hf y.value).value]
  · change Usage.mk (_ + _) (_ + _) = Usage.mk (_ + _) (_ + _)
    rw [h.value, h.usage, (hf y.value).usage]

theorem map (h : x.Agrees y) (f : α → β) : (f <$> x).Agrees (f <$> y) := by
  refine ⟨congrArg f h.value, ?_⟩
  rw [report_map, report_map]
  exact h.usage

end Reported.Agrees

section Values

theorem mem_of_mem_trim {t : Text} {c : Char} (h : c ∈ t.trim) : c ∈ t := by
  rw [Text.trim, Text.trimEnd, List.mem_reverse] at h
  have hmem := (List.dropWhile_sublist _).subset h
  exact (List.dropWhile_sublist _).subset (List.mem_reverse.mp hmem)

theorem not_mem_pathParts {source : Text} (h : ']' ∉ source) : ']' ∉ (pathParts source).2 := by
  intro hmem
  rw [pathParts] at hmem
  have hmem := (splitParents_suffix _).subset hmem
  split at hmem
  · revert hmem
    decide
  · exact h (mem_of_mem_trim hmem)

variable {d d' : Dialect}

theorem agrees_readCheckedValue (d : Dialect) (tag : Text) (position : Position) (raw : Text) :
    (readCheckedValue d tag position raw).Agrees (readValue d position raw) := by
  refine ⟨readCheckedValue_value d tag position raw, ?_⟩
  have hcheck : (VariableName.check raw tag).report.usage = {} := by
    rw [VariableName.check]
    split <;> rfl
  rw [readCheckedValue]
  split
  · change Usage.mk (_ + _) (_ + _) = _
    rw [hcheck, Nat.zero_add, Nat.zero_add]
  · rfl

variable (hthis : d.implicitThis = d'.implicitThis) (hstring : d.stringParams = d'.stringParams)

include hthis hstring

theorem pathArgument_of_not_mem (head : Bool) (levels : Nat) {rest : Text} (h : ']' ∉ rest) :
    pathArgument d head levels rest = pathArgument d' head levels rest := by
  have hsteps (advanced : Bool) : Step.ofText advanced (dropHereMarks rest) =
      ((dropHereMarks rest).fields Step.isSeparator).map .plain := by
    have hmem : ']' ∉ dropHereMarks rest := fun hmem => h ((dropHereMarks_sublist rest).subset hmem)
    rw [Step.ofText, if_neg (by simp [hmem])]
  simp only [pathArgument, hsteps, Step.isThis_eq hthis, hstring]

theorem agrees_readValue (position : Position) {source : Text} (h : ']' ∉ source) :
    (readValue d position source).Agrees (readValue d' position source) := by
  rw [readValue, readValue]
  cases literal? source with
  | some literal => exact .refl _
  | none =>
    rw [readPath_eq, readPath_eq]
    exact ⟨pathArgument_of_not_mem hthis hstring _ _ (not_mem_pathParts h), rfl⟩

end Values

section Arguments

variable {raws : List Text}

theorem readArgument_of_unmarked {raw : Text} (h : raw.Unmarked) (d : Dialect)
    (call : Text → Reported ArgumentList) (tag : Text) (index : Nat) :
    readArgument d call tag index raw =
      .positional <$> readCheckedValue d tag (.positional index) raw := by
  have hhead {mark : Char} (hmark : mark ∈ "\"'()[]=|".toList) : ∀ c ∈ raw.head?, c ≠ mark := by
    rintro c hc rfl
    exact h c hmark (List.mem_of_head? hc)
  have hcall : isCall raw = false := isCall_of_head (hhead (by simp))
  have hparams : blockParamNames? raw = none :=
    blockParamNames?_of_not_mem (h '|' (by simp))
  have hbinding : Binding.ofText? raw = none := by
    apply Binding.ofText?_eq_none (hhead (by simp))
    rintro c hc rfl
    exact h '=' (by simp) ((List.dropWhile_sublist _).subset (List.mem_of_head? hc))
  rw [readArgument, if_neg (by simp [hcall]), hparams]
  simp only [hbinding, ite_self]

theorem readArguments_of_unmarked (hraws : ∀ raw ∈ raws, raw.Unmarked) (d : Dialect)
    (call : Text → Reported ArgumentList) (tag : Text) (l : ArgumentList) :
    ∃ more, (readArguments d call tag l raws).value =
        { l with positional := l.positional ++ more } ∧
      (∀ a ∈ more, a.IsPlain) ∧
      (readArguments d call tag l raws).report.usage.subexpressions = 0 := by
  induction raws generalizing l with
  | nil =>
    refine ⟨[], ?_, by simp, rfl⟩
    rw [List.append_nil]
    rfl
  | cons raw raws ih =>
    have hvalue := isPlain_readValue d (.positional l.positional.length) raw
    rw [← readCheckedValue_value d tag] at hvalue
    have hfree := callFree_readCheckedValue d tag (.positional l.positional.length) raw
    have hraw := readArgument_of_unmarked (hraws raw (List.mem_cons_self ..)) d call tag
      l.positional.length
    obtain ⟨more, hmore, hplain, husage⟩ := ih (fun r hr => hraws r (List.mem_cons_of_mem raw hr))
      (l.push (readCheckedValue d tag (.positional l.positional.length) raw).value)
    refine ⟨(readCheckedValue d tag (.positional l.positional.length) raw).value :: more,
      ?_, ?_, ?_⟩
    · rw [readArguments, hraw, Reported.value_bind, Reported.value_map, Arguments.place, hmore]
      simp [Arguments.push]
    · exact List.forall_mem_cons.mpr ⟨hvalue, hplain⟩
    · rw [readArguments, hraw, Reported.report_bind, Report.subexpressions_append,
        Reported.report_map, hfree.subexpressions, Nat.zero_add]
      exact husage

theorem agrees_readArguments {d d' : Dialect} (hthis : d.implicitThis = d'.implicitThis)
    (hstring : d.stringParams = d'.stringParams) (hraws : ∀ raw ∈ raws, raw.Unmarked)
    (call call' : Text → Reported ArgumentList) (tag : Text) (l : ArgumentList) :
    (readArguments d call tag l raws).Agrees (readArguments d' call' tag l raws) := by
  induction raws generalizing l with
  | nil => exact .refl _
  | cons raw raws ih =>
    have hraw := hraws raw (List.mem_cons_self ..)
    have hvalue := agrees_readValue hthis hstring (.positional l.positional.length)
      (hraw ']' (by simp))
    have hchecked := (agrees_readCheckedValue d tag _ raw).trans
      (hvalue.trans (agrees_readCheckedValue d' tag _ raw).symm)
    rw [readArguments, readArguments, readArgument_of_unmarked hraw, readArgument_of_unmarked hraw]
    apply (hchecked.map Placement.positional).bind
    intro placement
    exact ih (fun r hr => hraws r (List.mem_cons_of_mem raw hr)) (l.place placement)

end Arguments

end TemplateTag
