import Mathlib.Tactic.MkIffOfInductiveProp
import TemplateTag.Proofs.RawArgument.Closing
import TemplateTag.Proofs.RawArgument.Quoted
import TemplateTag.Proofs.RawArgument.Sheltered
/-!
# Values behind a name

A word that starts with a name and an equals sign opens what is open in the value behind them. The
marks of the value are looked for in another order than those of a word without a name, and
`OpensAlike` says when both find the same.
-/
namespace TemplateTag

open Runs

/-- The text is a name without marks and blanks. -/
def Text.Lettered (key : Text) : Prop :=
  ∀ c ∈ key, c.isAlpha = true

theorem Text.Lettered.not_mem {key : Text} (h : key.Lettered) {c : Char} (hc : c.isAlpha = false) :
    c ∉ key := by
  intro hmem
  rw [h c hmem] at hc
  cases hc

theorem Text.Lettered.nameChars {key : Text} (h : key.Lettered) :
    ∀ c ∈ key, isNameChar c = true := by
  intro c hc
  simp [isNameChar, Char.isAlphanum, h c hc]

theorem Text.Lettered.ink {key : Text} (h : key.Lettered) : ∀ c ∈ key, isBlank c = false := by
  intro c hc
  have hink := of_isNameChar (p := fun c => !isBlank c) (by decide) (h.nameChars c hc)
  simpa using hink

section Prefix

variable {s w : Text}

theorem infix_append_iff {mark : Char} {part : Text} (hs : mark ∉ s) :
    mark :: part <:+: s ++ w ↔ mark :: part <:+: w := by
  induction s with
  | nil => rfl
  | cons c s ih =>
    have hne : mark ≠ c := fun heq => hs (by simp [heq])
    rw [List.cons_append, List.infix_cons_iff, ih fun h => hs (List.mem_cons_of_mem c h)]
    simp [hne]

theorem opensValueWith_append {opening : Text} {quote : Char} (hequals : '=' ∉ s)
    (hquote : quote ∉ s) : opensValueWith opening quote (s ++ w) = opensValueWith opening quote w := by
  have hinfix : Text.hasInfix (s ++ w) ('=' :: opening) = w.hasInfix ('=' :: opening) := by
    rw [Bool.eq_iff_iff, Text.hasInfix_iff, Text.hasInfix_iff, infix_append_iff hequals]
  rw [opensValueWith, opensValueWith, hinfix, List.count_append, List.count_eq_zero.mpr hquote,
    Nat.zero_add]

theorem openAtEnd_cons_iff {c : Char} (hc : Text.BracketFree [c]) :
    Text.OpenAtEnd (c :: w) ↔ w.OpenAtEnd := by
  constructor
  · rintro ⟨before, after, heq, hafter⟩
    cases before with
    | nil =>
      rw [List.nil_append, List.cons.injEq] at heq
      exact absurd (heq.1 ▸ List.mem_singleton_self c) hc.1
    | cons d before =>
      rw [List.cons_append, List.cons.injEq] at heq
      exact ⟨before, after, heq.2, hafter⟩
  · intro h
    exact h.append_left [c]

theorem openAtEnd_append_iff (hs : s.BracketFree) : Text.OpenAtEnd (s ++ w) ↔ w.OpenAtEnd := by
  induction s with
  | nil => rfl
  | cons c s ih =>
    obtain ⟨hc, hs⟩ := Text.bracketFree_append.mp (show Text.BracketFree ([c] ++ s) from hs)
    rw [List.cons_append, openAtEnd_cons_iff hc, ih hs]

/-- The run of opening parentheses that ends at the last parenthesis. -/
def openRun (w : Text) : Nat :=
  Text.runAtStart '(' (w.reverse.dropWhile fun c => c != '(' && c != ')')

theorem lastOpenRun_cons (c : Char) (w : Text) : lastOpenRun (c :: w) = openRun w := rfl

theorem openRun_cons {c : Char} (hc : c ≠ '(' ∨ ')' ∈ w) : openRun (c :: w) = openRun w := by
  let skip (d : Char) : Bool := d != '(' && d != ')'
  have hclosed : ')' ∈ w → ')' ∈ w.reverse.dropWhile skip := by
    intro hmem
    have hsplit : ')' ∈ w.reverse.takeWhile skip ++ w.reverse.dropWhile skip := by
      rw [List.takeWhile_append_dropWhile]
      exact List.mem_reverse.mpr hmem
    refine (List.mem_append.mp hsplit).resolve_left fun htake => ?_
    exact absurd (List.all_eq_true.mp List.all_takeWhile _ htake) (by decide)
  change Text.runAtStart '(' ((c :: w).reverse.dropWhile skip) =
    Text.runAtStart '(' (w.reverse.dropWhile skip)
  rw [List.reverse_cons, List.dropWhile_append]
  split
  · next hempty =>
    have hnil := List.isEmpty_iff.mp hempty
    have hne : c ≠ '(' := by
      apply hc.resolve_right
      intro hmem
      have hdrop := hclosed hmem
      rw [hnil] at hdrop
      cases hdrop
    rw [hnil]
    apply Text.runAtStart_eq_zero
    rintro d hd rfl
    exact hne (List.mem_singleton.mp ((List.dropWhile_sublist skip).subset
      (List.mem_of_head? hd))).symm
  · rw [Text.runAtStart, Text.runAtStart, List.takeWhile_append]
    split
    · next hall =>
      have hne : c ≠ '(' := by
        apply hc.resolve_right
        intro hmem
        have htake := List.takeWhile_eq_self_iff.mp (List.takeWhile_prefix _ |>.eq_of_length hall)
        exact absurd (htake _ (hclosed hmem)) (by decide)
      simp [hne, hall]
    · rfl

end Prefix

theorem openAtEnd_iff {w : Text} :
    w.OpenAtEnd ↔
      Text.startsIn (· == '[') (w.reverse.dropWhile fun c => c != '[' && c != ']') = true := by
  constructor
  · rintro ⟨before, after, rfl, hafter⟩
    rw [Text.dropWhile_reverse_bracket (.inl rfl) before hafter]
    rfl
  · intro h
    let skip (c : Char) : Bool := c != '[' && c != ']'
    have hsplit := List.takeWhile_append_dropWhile (p := skip) (l := w.reverse)
    cases hdrop : w.reverse.dropWhile skip with
    | nil =>
      change Text.startsIn _ (w.reverse.dropWhile skip) = true at h
      rw [hdrop] at h
      cases h
    | cons c before =>
      change Text.startsIn _ (w.reverse.dropWhile skip) = true at h
      rw [hdrop] at h hsplit
      obtain rfl : c = '[' := by simpa [Text.startsIn] using h
      refine ⟨before.reverse, (w.reverse.takeWhile skip).reverse, ?_, ?_⟩
      · have hword := congrArg List.reverse hsplit
        simpa using hword.symm
      · refine ⟨fun hmem => ?_, fun hmem => ?_⟩ <;>
        · have hskip := List.all_eq_true.mp List.all_takeWhile _ (List.mem_reverse.mp hmem)
          simp [skip] at hskip

instance (w : Text) : Decidable w.OpenAtEnd :=
  decidable_of_iff _ openAtEnd_iff.symm

theorem opensBracket_iff {w : Text} :
    opensBracket w = true ↔ w.startsIn (fun c => c = '"' || c = '\'') = false ∧ w.OpenAtEnd := by
  rw [opensBracket, Bool.and_eq_true, Bool.not_eq_true', openAtEnd_iff]

theorem opensWith_cons_of_ne {c mark : Char} (h : c ≠ mark) (opening : Text) (quote : Char)
    (w : Text) : opensWith (mark :: opening) quote (c :: w) = false := by
  rw [opensWith]
  cases hpre : (mark :: opening).isPrefixOf? (c :: w) with
  | none => rfl
  | some rest =>
    have hword := Text.isPrefixOf?_eq_some.mp hpre
    rw [List.cons_append, List.cons.injEq] at hword
    exact absurd hword.1 h

/-- The construct that the first word of a value opens, in the order in which the marks behind a name
are looked for. -/
def valueOpening? (w : Text) : Option Construct :=
  if opensValueWith ['"'] '"' ('=' :: w) then some .doubleQuote
  else if opensBracket ('=' :: w) then some .bracket
  else if opensValueWith escapedQuote '\'' ('=' :: w) then some .escapedQuote
  else if openRun w != 0 then some (.parentheses (openRun w))
  else none

theorem openRun_binding {key : Text} (hkey : key.Lettered) (w : Text) :
    openRun (key ++ '=' :: w) = openRun w := by
  induction key with
  | nil => exact openRun_cons (.inl (by decide))
  | cons c key ih =>
    have hc : c ≠ '(' := by
      rintro rfl
      exact absurd (hkey '(' (List.mem_cons_self ..)) (by decide)
    rw [List.cons_append, openRun_cons (.inl hc), ih fun d hd => hkey d (List.mem_cons_of_mem c hd)]

theorem opening?_binding {key : Text} (hkey : key.Lettered) (started : Bool) (w : Text) :
    opening? started (key ++ '=' :: w) = valueOpening? w := by
  have hdouble : opensValueWith ['"'] '"' (key ++ '=' :: w) = opensValueWith ['"'] '"' ('=' :: w) :=
    opensValueWith_append (hkey.not_mem (by decide)) (hkey.not_mem (by decide))
  have hescaped : opensValueWith escapedQuote '\'' (key ++ '=' :: w) =
      opensValueWith escapedQuote '\'' ('=' :: w) :=
    opensValueWith_append (hkey.not_mem (by decide)) (hkey.not_mem (by decide))
  have hhead : ∃ c t, key ++ '=' :: w = c :: t ∧ (c = '=' ∨ c.isAlpha = true) ∧
      openRun t = openRun w := by
    cases key with
    | nil => exact ⟨'=', w, rfl, .inl rfl, rfl⟩
    | cons c key =>
      have hrest : Text.Lettered key := fun d hd => hkey d (List.mem_cons_of_mem c hd)
      exact ⟨c, key ++ '=' :: w, rfl, .inr (hkey c (List.mem_cons_self ..)),
        openRun_binding hrest w⟩
  have has : (key ++ '=' :: w == "as".toList) = false := by
    rw [beq_eq_false_iff_ne]
    intro heq
    have hmem : '=' ∈ "as".toList := by simp [← heq]
    simp at hmem
  obtain ⟨c, t, hword, hc, hrun⟩ := hhead
  have hne (mark : Char) (hmark : mark ≠ '=') (hmark' : mark.isAlpha = false) : c ≠ mark := by
    rintro rfl
    rcases hc with hc | hc
    · exact hmark hc
    · rw [hmark'] at hc
      cases hc
  have hbracket : opensBracket (key ++ '=' :: w) = opensBracket ('=' :: w) := by
    have hquotes : Text.startsIn (fun d => d = '"' || d = '\'') (key ++ '=' :: w) = false := by
      rw [hword, Text.startsIn]
      simp [hne '"' (by decide) (by decide), hne '\'' (by decide) (by decide)]
    have hfree : key.BracketFree := ⟨hkey.not_mem (by decide), hkey.not_mem (by decide)⟩
    rw [Bool.eq_iff_iff, opensBracket_iff, opensBracket_iff, openAtEnd_append_iff hfree, hquotes]
    simp [Text.startsIn]
  rw [opening?, valueOpening?, hdouble, hescaped, hbracket, has, hword, lastOpenRun_cons, hrun,
    opensWith_cons_of_ne (hne '"' (by decide) (by decide)), escapedQuote,
    opensWith_cons_of_ne (hne '\\' (by decide) (by decide)), Text.startsIn]
  have hparen : (c == '(') = false := beq_false_of_ne (hne '(' (by decide) (by decide))
  simp [hparen]

/-- Behind a name the word opens what it opens by itself: a mark that it starts with is not passed
over for another one, nor for a bracket behind a quote. -/
@[mk_iff]
structure OpensAlike (w : Text) : Prop where
  parentheses : w.startsIn (· == '(') = true → ')' ∉ w →
    opensValueWith ['"'] '"' ('=' :: w) = false ∧ ¬w.OpenAtEnd ∧
      opensValueWith TemplateTag.escapedQuote '\'' ('=' :: w) = false ∧
      openRun w = w.runAtStart '('
  escapedQuote : opensWith TemplateTag.escapedQuote '\'' w = true →
    opensValueWith ['"'] '"' ('=' :: w) = false ∧ ¬w.OpenAtEnd
  quoted : w.startsIn (fun c => c = '"' || c = '\'') = true → w.OpenAtEnd →
    opensValueWith ['"'] '"' ('=' :: w) = true

instance (w : Text) : Decidable (OpensAlike w) :=
  decidable_of_iff _ (opensAlike_iff w).symm

section Alike

variable {w : Text}

theorem opensWith_iff {opening : Text} {quote : Char} :
    opensWith opening quote w = true ↔ ∃ rest, w = opening ++ rest ∧ quote ∉ rest := by
  rw [opensWith]
  cases hpre : opening.isPrefixOf? w with
  | none =>
    refine iff_of_false Bool.false_ne_true ?_
    rintro ⟨rest, hw, -⟩
    rw [Text.isPrefixOf?_eq_some.mpr hw] at hpre
    cases hpre
  | some rest =>
    obtain rfl := Text.isPrefixOf?_eq_some.mp hpre
    simp

section Quote

variable {opening : Text} {quote : Char} (hequals : quote ≠ '=') (hopening : opening.count quote = 1)

include hequals

theorem opensValueWith_cons_equals_iff :
    opensValueWith opening quote ('=' :: w) = true ↔
      (opening <+: w ∨ '=' :: opening <:+: w) ∧ w.count quote = 1 := by
  rw [opensValueWith, Bool.and_eq_true, Text.hasInfix_iff, List.infix_cons_iff,
    List.cons_prefix_cons, beq_iff_eq, List.count_cons_of_ne hequals.symm]
  simp

include hopening

theorem opensValueWith_of_opensWith (h : opensWith opening quote w = true) :
    opensValueWith opening quote ('=' :: w) = true := by
  obtain ⟨rest, rfl, hrest⟩ := opensWith_iff.mp h
  apply (opensValueWith_cons_equals_iff hequals).mpr
  refine ⟨.inl (List.prefix_append _ _), ?_⟩
  rw [List.count_append, hopening, List.count_eq_zero.mpr hrest]

theorem opensValueWith_cons_equals (h : opensWith opening quote w = false) :
    opensValueWith opening quote ('=' :: w) = opensValueWith opening quote w := by
  rw [Bool.eq_iff_iff, opensValueWith_cons_equals_iff hequals, opensValueWith, Bool.and_eq_true,
    Text.hasInfix_iff, beq_iff_eq]
  refine and_congr_left fun hcount => or_iff_right ?_
  rintro ⟨rest, rfl⟩
  rw [List.count_append, hopening] at hcount
  have hrest : quote ∉ rest := List.count_eq_zero.mp (by omega)
  rw [opensWith_iff.mpr ⟨rest, rfl, hrest⟩] at h
  cases h

end Quote

theorem opensBracket_cons_equals : opensBracket ('=' :: w) = true ↔ w.OpenAtEnd := by
  rw [opensBracket_iff, openAtEnd_cons_iff (by decide)]
  simp [Text.startsIn]

theorem lastOpenRun_eq_openRun (h : ¬(w.startsIn (· == '(') = true ∧ ')' ∉ w)) :
    lastOpenRun w = openRun w := by
  cases w with
  | nil => rfl
  | cons c t =>
    rw [lastOpenRun_cons, openRun_cons]
    by_cases hc : c = '('
    · right
      simpa [Text.startsIn, hc] using h
    · exact .inl hc

theorem opensWith_of_startsIn {mark : Char} (hmark : mark ≠ '(') (opening : Text) (quote : Char)
    (h : w.startsIn (· == '(') = true) : opensWith (mark :: opening) quote w = false := by
  cases w with
  | nil => cases h
  | cons c w =>
    obtain rfl : c = '(' := by simpa [Text.startsIn] using h
    exact opensWith_cons_of_ne hmark.symm opening quote w

theorem valueOpening?_eq_iff_of_call (hstart : w.startsIn (· == '(') = true) (hclosed : ')' ∉ w) :
    valueOpening? w = opening? true w ↔ OpensAlike w := by
  have hopening : opening? true w = some (.parentheses (w.runAtStart '(')) := by
    rw [opening?, if_pos (by simp [hstart, hclosed])]
  have hrun : w.runAtStart '(' ≠ 0 := by
    intro hzero
    exact opening?_ne_parentheses_zero true w (hzero ▸ hopening)
  have hquotes : w.startsIn (fun c => c = '"' || c = '\'') = false := by
    cases w with
    | nil => rfl
    | cons c w =>
      obtain rfl : c = '(' := by simpa [Text.startsIn] using hstart
      rfl
  have hescaped : opensWith escapedQuote '\'' w = false :=
    opensWith_of_startsIn (by decide) ['\''] '\'' hstart
  have halike : OpensAlike w ↔ opensValueWith ['"'] '"' ('=' :: w) = false ∧ ¬w.OpenAtEnd ∧
      opensValueWith escapedQuote '\'' ('=' :: w) = false ∧ openRun w = w.runAtStart '(' := by
    rw [opensAlike_iff, hescaped, hquotes]
    simp [hstart, hclosed]
  rw [halike, hopening, valueOpening?, ← opensBracket_cons_equals, Bool.not_eq_true]
  cases opensValueWith ['"'] '"' ('=' :: w) with
  | true => simp
  | false =>
    cases opensBracket ('=' :: w) with
    | true => simp
    | false =>
      cases opensValueWith escapedQuote '\'' ('=' :: w) with
      | true => simp
      | false =>
        by_cases hzero : openRun w = 0
        · simp [hzero, hrun.symm]
        · simp [hzero]

theorem valueOpening?_eq_iff_of_escaped (hcall : ¬(w.startsIn (· == '(') = true ∧ ')' ∉ w))
    (hescaped : opensWith escapedQuote '\'' w = true) :
    valueOpening? w = opening? true w ↔ OpensAlike w := by
  have hvalue := opensValueWith_of_opensWith (by decide) (by decide) hescaped
  have hparen : (w.startsIn (· == '(') && !w.contains ')') = false := by simpa using hcall
  have hhead : opensWith ['"'] '"' w = false ∧
      w.startsIn (fun c => c = '"' || c = '\'') = false := by
    obtain ⟨rest, rfl, -⟩ := opensWith_iff.mp hescaped
    exact ⟨opensWith_cons_of_ne (by decide) [] '"' _, rfl⟩
  have hopening : opening? true w = some .escapedQuote := by
    rw [opening?, hparen, hhead.1, hescaped]
    rfl
  have halike : OpensAlike w ↔
      opensValueWith ['"'] '"' ('=' :: w) = false ∧ ¬w.OpenAtEnd := by
    rw [opensAlike_iff, hhead.2, hescaped]
    simpa using fun _ _ hs hm => absurd ⟨hs, hm⟩ hcall
  rw [halike, hopening, valueOpening?, hvalue, ← opensBracket_cons_equals, Bool.not_eq_true]
  cases opensValueWith ['"'] '"' ('=' :: w) with
  | true => simp
  | false => cases opensBracket ('=' :: w) <;> simp

/-- The name of a value does not change what its first word opens just if the word opens alike. -/
theorem valueOpening?_eq_iff (has : w ≠ "as".toList) :
    valueOpening? w = opening? true w ↔ OpensAlike w := by
  by_cases hcall : w.startsIn (· == '(') = true ∧ ')' ∉ w
  · exact valueOpening?_eq_iff_of_call hcall.1 hcall.2
  by_cases hescaped : opensWith escapedQuote '\'' w = true
  · exact valueOpening?_eq_iff_of_escaped hcall hescaped
  have hparen : (w.startsIn (· == '(') && !w.contains ')') = false := by simpa using hcall
  rw [Bool.not_eq_true] at hescaped
  have halike : OpensAlike w ↔ (w.startsIn (fun c => c = '"' || c = '\'') = true → w.OpenAtEnd →
      opensValueWith ['"'] '"' ('=' :: w) = true) := by
    rw [opensAlike_iff, hescaped]
    simpa using fun _ hs hm => absurd ⟨hs, hm⟩ hcall
  by_cases hdouble : opensWith ['"'] '"' w = true
  · have hvalue := opensValueWith_of_opensWith (by decide) (by decide) hdouble
    refine iff_of_true ?_ (halike.mpr fun _ _ => hvalue)
    rw [valueOpening?, opening?, hparen, hvalue, hdouble]
    rfl
  rw [Bool.not_eq_true] at hdouble
  have hopening : opening? true w =
      if opensValueWith ['"'] '"' ('=' :: w) then some .doubleQuote
      else if opensBracket w then some .bracket
      else if opensValueWith escapedQuote '\'' ('=' :: w) then some .escapedQuote
      else if openRun w != 0 then some (.parentheses (openRun w)) else none := by
    rw [opening?, hparen, hdouble, hescaped, lastOpenRun_eq_openRun hcall, beq_false_of_ne has,
      opensValueWith_cons_equals (by decide) (by decide) hdouble,
      opensValueWith_cons_equals (by decide) (by decide) hescaped]
    simp
  have hbracket : opensBracket w =
      (!w.startsIn (fun c => c = '"' || c = '\'') && opensBracket ('=' :: w)) := by
    rw [Bool.eq_iff_iff, opensBracket_iff, Bool.and_eq_true, opensBracket_cons_equals]
    simp
  -- What can differ is a bracket, which is not looked for in a word that starts with a quote.
  rw [halike, hopening, hbracket, valueOpening?, ← opensBracket_cons_equals]
  cases opensValueWith ['"'] '"' ('=' :: w) with
  | true => simp
  | false =>
    cases w.startsIn (fun c => c = '"' || c = '\'') with
    | false => simp
    | true =>
      cases opensBracket ('=' :: w) with
      | false => simp
      | true =>
        cases opensValueWith escapedQuote '\'' ('=' :: w) with
        | true => simp
        | false => by_cases hzero : openRun w = 0 <;> simp [hzero]

end Alike

section Cut

variable {d : Dialect} (hd : d.advancedVariables = true) {x z key v : Text} (hx : PlainWord x)
  (hz : PlainWord z) (hkey : key.Lettered)

theorem Text.Lettered.binding_ink (hkey : key.Lettered) :
    ∀ c ∈ key ++ ['='], isBlank c = false :=
  List.forall_mem_append.mpr ⟨hkey.ink, by simp [isBlank]⟩

theorem Text.Trimmed.binding (hv : v.Trimmed) (hkey : key.Lettered) :
    Text.Trimmed ((key ++ ['=']) ++ v) where
  ne_nil := by simp
  head_ink c hc := by
    apply hkey.binding_ink c
    cases key with
    | nil => simpa [eq_comm] using hc
    | cons d key =>
      rw [List.cons_append, List.cons_append, List.head?_cons, Option.mem_some_iff] at hc
      simp [hc]
  last_ink c hc := by
    apply hv.last_ink c
    rw [List.getLast?_append, List.getLast?_eq_some_getLast hv.ne_nil] at hc
    rwa [List.getLast?_eq_some_getLast hv.ne_nil]

include hd hx hz hkey

/-- An argument that is cut out as it stands is so with a name too, just if its first word opens
alike. -/
theorem rawArguments_binding_iff (tag tag' : Text)
    (hcut : (rawArguments d false tag ([' '].intercalate [x, v, z])).value = [x, v, z] ∧
      (rawArguments d false tag ([' '].intercalate [x, v, z])).report.diagnostics = []) :
    let cut := rawArguments d false tag' ([' '].intercalate [x, key ++ '=' :: v, z])
    cut.value = [x, key ++ '=' :: v, z] ∧ cut.report.diagnostics = [] ↔ OpensAlike v.firstWord := by
  intro cut
  obtain ⟨hv, hcompletes⟩ := (rawArguments_between_iff hd hx hz (p := []) nofun tag).mp hcut
  rw [List.nil_append] at hv hcompletes
  have has : v.firstWord ≠ "as".toList := by
    intro has
    rw [has] at hcompletes
    exact hcompletes.1 rfl
  have hopening := opening?_binding hkey true v.firstWord
  have hbinding := rawArguments_between_iff hd hx hz (v := v) hkey.binding_ink tag'
  simp only [List.append_assoc, List.singleton_append] at hbinding
  refine hbinding.trans ?_
  rw [← valueOpening?_eq_iff has, ← hopening]
  constructor
  · intro h
    exact h.2.eq hcompletes
  · intro h
    rw [h]
    exact ⟨by simpa using hv.binding hkey, hcompletes⟩

end Cut

end TemplateTag
