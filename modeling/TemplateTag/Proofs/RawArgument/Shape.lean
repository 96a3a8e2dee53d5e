import TemplateTag.Proofs.Text.Search
import TemplateTag.Subexpression
/-!
# Calls, block parameters and bindings

What it means for a raw argument to be a call, what is read between two bars, and what the parts of
a binding are.
-/
namespace TemplateTag

theorem isCall_iff {source : Text} :
    isCall source = true ↔
      source = '(' :: Settings.callBody source ++ [')'] ∧ Settings.callBody source ≠ [] := by
  rw [isCall, Option.isSome_iff_exists, Settings.callBody]
  constructor
  · rintro ⟨content, h⟩
    obtain ⟨hsource, hne⟩ := Text.filledBetween?_eq_some.mp h
    rw [Text.between?_eq_some.mpr hsource]
    exact ⟨hsource, hne⟩
  · rintro ⟨hsource, hne⟩
    exact ⟨_, Text.filledBetween?_eq_some.mpr ⟨hsource, hne⟩⟩

theorem isCall_parenthesized {body : Text} (h : body ≠ []) :
    isCall ('(' :: body ++ [')']) = true := by
  have hbetween : Text.filledBetween? ('(' :: body ++ [')']) ['('] [')'] = some body :=
    Text.filledBetween?_eq_some.mpr ⟨rfl, h⟩
  rw [isCall, hbetween]
  rfl

theorem Settings.callBody_parenthesized (body : Text) : callBody ('(' :: body ++ [')']) = body := by
  have hbetween : Text.between? ('(' :: body ++ [')']) ['('] [')'] = some body :=
    Text.between?_eq_some.mpr rfl
  rw [callBody, hbetween]
  rfl

theorem length_of_isCall {source : Text} (h : isCall source = true) :
    source.length = (Settings.callBody source).length + 2 := by
  have hlength := congrArg List.length (isCall_iff.mp h).1
  simpa using hlength

theorem isCall_of_head {raw : Text} (h : ∀ c ∈ raw.head?, c ≠ '(') : isCall raw = false := by
  rw [isCall, Option.isSome_eq_false_iff, Option.isNone_iff_eq_none]
  cases hbetween : raw.filledBetween? ['('] [')'] with
  | none => rfl
  | some content =>
    obtain ⟨rfl, -⟩ := Text.filledBetween?_eq_some.mp hbetween
    exact absurd rfl (h '(' rfl)

theorem blockParamNames?_of_head {raw : Text} (h : ∀ c ∈ raw.head?, isBlank c = false) :
    blockParamNames? raw = none := by
  rw [blockParamNames?]
  cases raw with
  | nil => rfl
  | cons c raw => rw [Text.startsIn, h c rfl, if_neg Bool.false_ne_true]

theorem blockParamNames?_of_not_mem {raw : Text} (h : '|' ∉ raw) : blockParamNames? raw = none := by
  have hfilled : Text.filledBetween? (raw.dropWhile isBlank) ['|'] ['|'] = none := by
    apply Option.eq_none_iff_forall_ne_some.mpr
    intro content hcontent
    have hsplit := (Text.filledBetween?_eq_some.mp hcontent).1
    apply h
    apply (List.dropWhile_sublist isBlank).subset
    rw [hsplit]
    simp
  rw [blockParamNames?, hfilled]
  exact ite_self none

theorem blockParamNames?_between_bars {gap content : Text} (hgap : ∀ c ∈ gap, isBlank c = true)
    (hne : gap ≠ []) (hcontent : content ≠ []) :
    blockParamNames? (gap ++ ('|' :: content ++ ['|'])) = some (content.fields isBlank) := by
  have hstart : Text.startsIn isBlank (gap ++ ('|' :: content ++ ['|'])) = true := by
    obtain ⟨c, gap, rfl⟩ := List.exists_cons_of_ne_nil hne
    exact hgap c (List.mem_cons_self ..)
  have hdrop : (gap ++ ('|' :: content ++ ['|'])).dropWhile isBlank = ['|'] ++ content ++ ['|'] :=
    List.dropWhile_append_of_pos hgap
  rw [blockParamNames?, if_pos hstart, hdrop, Text.filledBetween?_eq_some.mpr ⟨rfl, hcontent⟩,
    Option.map_some]

theorem readArgument_between_bars (d : Dialect) (call : Text → Reported ArgumentList) (tag : Text)
    (index : Nat) {gap content : Text} (hgap : ∀ c ∈ gap, isBlank c = true) (hne : gap ≠ [])
    (hcontent : content ≠ []) :
    readArgument d call tag index (gap ++ ('|' :: content ++ ['|'])) =
      pure (.blockParams (content.fields isBlank)) := by
  have hcall : isCall (gap ++ ('|' :: content ++ ['|'])) = false := by
    apply isCall_of_head
    obtain ⟨c, gap, rfl⟩ := List.exists_cons_of_ne_nil hne
    rintro d ⟨⟩ rfl
    cases hgap '(' (List.mem_cons_self ..)
  rw [readArgument, hcall, if_neg Bool.false_ne_true,
    blockParamNames?_between_bars hgap hne hcontent]

namespace Binding

theorem ofText?_eq_none {raw : Text} (hopen : ∀ c ∈ raw.head?, c ≠ '[')
    (hdrop : ∀ c ∈ (raw.dropWhile isKeyChar).head?, c ≠ '=') : ofText? raw = none := by
  rw [ofText?]
  · split
    · next value heq =>
      rw [heq] at hdrop
      exact absurd rfl (hdrop '=' rfl)
    · rfl
  · rintro rest rfl
    exact hopen '[' rfl rfl

private theorem of_ofParts? {bracketed : Bool} {key value : Text} {b : Binding}
    (h : ofParts? bracketed key value = some b) :
    b = ⟨bracketed, key, value⟩ ∧ key ≠ [] ∧ value ≠ [] := by
  rw [ofParts?] at h
  split at h
  · cases h
  · next hne =>
    cases h
    simpa using hne

/-- The value of a binding ends the text, and the name is not empty. -/
theorem of_ofText? {raw : Text} {b : Binding} (h : ofText? raw = some b) :
    b.key ≠ [] ∧ b.value <:+ raw := by
  rw [ofText?.eq_def] at h
  split at h
  · next t =>
    split at h
    · next value hdrop =>
      obtain ⟨rfl, hkey, -⟩ := of_ofParts? h
      refine ⟨hkey, ?_⟩
      have hvalue : value <:+ t.dropWhile (· != ']') := ⟨[']', '='], hdrop.symm⟩
      exact hvalue.trans ((List.dropWhile_suffix _).trans (List.suffix_cons _ _))
    · cases h
  · split at h
    · next value hdrop =>
      obtain ⟨rfl, hkey, -⟩ := of_ofParts? h
      refine ⟨hkey, ?_⟩
      have hvalue : value <:+ raw.dropWhile isKeyChar := ⟨['='], hdrop.symm⟩
      exact hvalue.trans (List.dropWhile_suffix _)
    · cases h

end Binding

end TemplateTag
