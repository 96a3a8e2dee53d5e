import Mathlib.Data.List.Basic
import TemplateTag.Context
import TemplateTag.Proofs.Tag.Choice
/-!
# A tag that is put into a text is found again

With the usual delimiters the parts of a tag can be read off the text, if no part runs into the next
one. The front of the tag and its end are settled one after the other: what closes the tag
(`close?_append`) has no influence on the parts before it (`firstTag?_of_close?`).
-/
namespace TemplateTag

theorem Text.head?_of_space_append {space t : Text} (hspace : ∀ c ∈ space, isBlank c = true)
    {c : Char} (hc : isBlank c = false) (h : (space ++ t).head? = some c) :
    space = [] ∧ t.head? = some c := by
  cases space with
  | nil => exact ⟨rfl, h⟩
  | cons e space =>
    cases h
    have hblank := hspace c (List.mem_cons_self ..)
    rw [hc] at hblank
    cases hblank

theorem Text.startsIn_append {p : Char → Bool} {s t : Text} (hs : ∀ c ∈ s, p c = false)
    (ht : t.startsIn p = false) : (s ++ t).startsIn p = false := by
  cases s with
  | nil => exact ht
  | cons c s => exact hs c (List.mem_cons_self ..)

/-- Where a text is split at a tag, the inside of the tag does not run into the parts beside it, and
the texts around the tag do not run into its delimiters. -/
structure Occurrence.Clear (o : Occurrence) : Prop where
  inner_head : ∃ c, o.tag.inner.head? = some c ∧ c ∉ "~\x7b^#/!&>*".toList
  inner_last : ∃ c, o.tag.inner.getLast? = some c ∧ c ∉ "\x7d~".toList
  inner : ¬"\x7d\x7d".toList <:+: o.tag.inner
  textBefore : ¬"\x7b\x7b".toList <:+: o.textBefore
  textBefore_last : o.spaceBefore = [] → o.textBefore.getLast? ≠ some '\x7b'
  textAfter_head : o.spaceAfter = [] → o.textAfter.head? ≠ some '\x7d'

/-- Nothing stands between the inside of the tag and the right delimiter, and the text after the tag
looks like another end of it. -/
structure Occurrence.RunsOn (o : Occurrence) : Prop where
  rightBraces : o.tag.rightBraces = []
  rightControl : o.tag.rightControl = []
  spaceAfter : o.spaceAfter = []
  textAfter : "~\x7d\x7d".toList <+: o.textAfter

namespace Taken

theorem of_isRun {c : Char} {fewest most : Nat} {t : Text} (h : IsRun c fewest most t) :
    Taken (· == c) fewest most t := by
  obtain ⟨n, rfl, hfewest, hmost⟩ := h
  refine ⟨?_, by rwa [List.length_replicate], by rwa [List.length_replicate]⟩
  intro d hd
  rw [(List.mem_replicate.mp hd).2]
  exact beq_self_eq_true c

theorem of_control {t : Text} (h : t = [] ∨ t = ['~']) : Taken Delimiters.isControl 0 1 t := by
  rcases h with rfl | rfl
  · exact ⟨nofun, Nat.le_refl 0, Nat.zero_le 1⟩
  · exact ⟨List.forall_mem_singleton.mpr rfl, Nat.zero_le 1, Nat.le_refl 1⟩

end Taken

namespace Delimiters

open Context (usualDelimiters)

variable {d : Delimiters}

/-- Two braces on either side, and up to one or two more inside them. -/
structure IsUsual (d : Delimiters) : Prop where
  left : d.left = "\x7b\x7b".toList
  right : d.right = "\x7d\x7d".toList
  fewestBraces : d.fewestBraces = 0
  mostBraces : d.mostBraces ≤ 2

theorem IsUsual.fewestBraces_le (hd : d.IsUsual) : d.fewestBraces ≤ d.mostBraces := by
  rw [hd.fewestBraces]
  exact Nat.zero_le _

theorem isUsual_usualDelimiters (dialect : Dialect) : (usualDelimiters dialect).IsUsual := by
  refine ⟨rfl, rfl, rfl, ?_⟩
  cases h : dialect.rawBlocks <;> simp [usualDelimiters, build, h]

theorem mostBraces_usualDelimiters (dialect : Dialect) :
    (usualDelimiters dialect).mostBraces = 2 ↔ dialect.rawBlocks = true := by
  cases h : dialect.rawBlocks <;> simp [usualDelimiters, build, h]

theorem of_isOperator {c : Char} (h : isOperator c = true) :
    isControl c = false ∧ (c == '\x7b') = false := by
  have hmem : c ∈ "^#/!&>*".toList := List.contains_iff_mem.mp h
  simp at hmem
  rcases hmem with rfl | rfl | rfl | rfl | rfl | rfl | rfl <;> decide

theorem of_not_mem_marks {c : Char} (h : c ∉ "~\x7b^#/!&>*".toList) :
    isControl c = false ∧ (c == '\x7b') = false ∧ isOperator c = false := by
  simp at h
  simp [isControl, isOperator, h]

section Close

variable {braces control w : Text}

private theorem eq_of_control (hd : d.IsUsual) {t : Text}
    (h : takeFor? isControl d.right.isPrefixOf? 0 1 t = some (control, w)) :
    t = '\x7d' :: '\x7d' :: w ∨ t = '~' :: '\x7d' :: '\x7d' :: w := by
  obtain ⟨rest, rfl, hcontrol, hright⟩ := takeFor?_eq_some (Nat.zero_le 1) h
  rw [Text.isPrefixOf?_eq_some.mp hright, hd.right]
  rcases hcontrol.control with rfl | rfl
  · exact .inl rfl
  · exact .inr rfl

/-- The parts after the inside of a tag are read back, unless the right delimiter can be taken for
the braces inside another one. -/
theorem close?_append (hd : d.IsUsual) (hbraces : Taken (· == '\x7d') 0 d.mostBraces braces)
    (hcontrol : control = [] ∨ control = ['~'])
    (hapart : control = [] → w.head? ≠ some '\x7d')
    (hruns : d.mostBraces = 2 → braces = [] → control = [] → ¬"~\x7d\x7d".toList <+: w) :
    d.close? (braces ++ (control ++ (d.right ++ w))) = some ⟨braces, control, w⟩ := by
  have hright : d.right.isPrefixOf? (d.right ++ w) = some w := Text.isPrefixOf?_eq_some.mpr rfl
  have hafter := takeFor?_of_startsIn (.of_control hcontrol) hright (by rw [hd.right]; rfl)
  have hall : takeFor? (· == '\x7d') (takeFor? isControl d.right.isPrefixOf? 0 1) 0 d.mostBraces
      (braces ++ (control ++ (d.right ++ w))) = some (braces, control, w) := by
    apply takeFor?_append hbraces hafter
    intro more later heq hmore hlonger
    rw [Option.eq_none_iff_forall_ne_some]
    rintro ⟨control', w'⟩ hlater
    have hlength := hlonger.le_most
    have hmost := hd.mostBraces
    obtain ⟨c, more, rfl⟩ := List.exists_cons_of_ne_nil hmore
    obtain rfl : c = '\x7d' := eq_of_beq (hlonger.all c (by simp))
    rw [hd.right] at heq
    rcases hcontrol with rfl | rfl
    · have hnext : '\x7d' :: w = more ++ later := (List.cons.inj heq).2
      match more with
      | [] =>
        rw [List.nil_append] at hnext
        rw [← hnext] at hlater
        rcases eq_of_control hd hlater with hw | hw
        · exact hapart rfl (by rw [(List.cons.inj hw).2]; rfl)
        · cases hw
      | [e] =>
        obtain rfl : w = later := (List.cons.inj hnext).2
        rcases eq_of_control hd hlater with hw | hw
        · exact hapart rfl (by rw [hw]; rfl)
        · rw [List.length_append, List.length_cons, List.length_singleton] at hlength
          have hnil : braces = [] := List.eq_nil_of_length_eq_zero (by omega)
          exact hruns (by omega) hnil rfl ⟨w', by rw [hw]; rfl⟩
      | _ :: _ :: _ =>
        simp only [List.length_append, List.length_cons] at hlength
        omega
    · cases (List.cons.inj heq).1
  rw [close?, hd.fewestBraces, hall]
  rfl

private theorem close?_of_runsOn (hd : d.IsUsual) (hmost : d.mostBraces = 2) (w : Text) :
    d.close? (d.right ++ ('~' :: d.right ++ w)) = some ⟨d.right, ['~'], w⟩ := by
  have hbraces : Taken (· == '\x7d') 0 d.mostBraces d.right := by
    rw [hmost, hd.right]
    exact Taken.of_isRun ⟨2, rfl, Nat.zero_le 2, Nat.le_refl 2⟩
  apply close?_append hd hbraces (.inr rfl) nofun
  intro _ hnil
  rw [hd.right] at hnil
  cases hnil

end Close

section Front

variable {closing : Closing} {inner rest : Text}

theorem inside?_append (hd : d.IsUsual) (hlast : ∃ c, inner.getLast? = some c ∧ c ∉ "\x7d~".toList)
    (hinner : ¬"\x7d\x7d".toList <:+: inner) (hclose : d.close? rest = some closing) :
    d.inside? (inner ++ rest) = some (inner, closing) := by
  rw [inside?_eq_shortest?]
  apply shortest?_append hclose
  intro before after heq hafter
  rw [Option.eq_none_iff_forall_ne_some]
  intro closing' hclose'
  obtain ⟨hsplit, hbraces, hcontrol⟩ := close?_eq_some hd.fewestBraces_le hclose'
  obtain ⟨mark, hmark⟩ : ∃ mark, mark = closing'.braces ++ closing'.control ++ "\x7d\x7d".toList :=
    ⟨_, rfl⟩
  have hends : after ++ rest = mark ++ closing'.rest := by
    rw [hsplit, hmark, hd.right, List.append_assoc, List.append_assoc]
  rcases Nat.le_total after.length mark.length with hle | hle
  · -- the inside would end with a brace or a tilde
    obtain ⟨more, hmore, -⟩ := exists_append_of_length_le hends hle
    obtain ⟨c, hc, hnot⟩ := hlast
    rw [heq, List.getLast?_append_of_ne_nil _ hafter] at hc
    have hmem : c ∈ mark := by
      rw [hmore]
      exact List.mem_append_left _ (List.mem_of_getLast? hc)
    apply hnot
    rw [hmark, List.append_assoc, List.mem_append, List.mem_append] at hmem
    rcases hmem with hmem | hmem | hmem
    · rw [eq_of_beq (hbraces.all c hmem)]
      decide
    · rw [of_decide_eq_true (hcontrol.all c hmem)]
      decide
    · have hbrace : c = '\x7d' := by simpa using hmem
      rw [hbrace]
      decide
  · -- the inside would contain a right delimiter
    obtain ⟨more, hmore, -⟩ := exists_append_of_length_le hends.symm hle
    apply hinner
    rw [heq, hmore, hmark]
    exact ⟨before ++ (closing'.braces ++ closing'.control), more, by simp⟩

theorem open?_append (hd : d.IsUsual) {control braces operator : Text}
    (hcontrol : control = [] ∨ control = ['~'])
    (hbraces : Taken (· == '\x7b') 0 d.mostBraces braces)
    (hlength : operator.length ≤ 2) (hoperator : ∀ c ∈ operator, c ∈ "^#/!&>*".toList)
    (hhead : ∃ c, inner.head? = some c ∧ c ∉ "~\x7b^#/!&>*".toList)
    (hinside : d.inside? (inner ++ rest) = some (inner, closing)) :
    d.open? (control ++ (braces ++ (operator ++ (inner ++ rest)))) =
      some (control, braces, operator, inner, closing) := by
  have htaken : Taken isOperator 0 2 operator :=
    ⟨fun c hc => List.contains_iff_mem.mpr (hoperator c hc), Nat.zero_le _, hlength⟩
  obtain ⟨c, hc, hnot⟩ := hhead
  obtain ⟨hcontrol', hbrace, hoperator'⟩ := of_not_mem_marks hnot
  have hinner : ∀ p : Char → Bool, p c = false → Text.startsIn p (inner ++ rest) = false := by
    obtain ⟨inner, rfl⟩ := List.head?_eq_some_iff.mp hc
    exact fun p hp => hp
  have hthird := takeFor?_of_startsIn htaken hinside (hinner _ hoperator')
  have hsecond := takeFor?_of_startsIn hbraces hthird
    (Text.startsIn_append (fun e he => (of_isOperator (htaken.all e he)).2) (hinner _ hbrace))
  rw [open?, hd.fewestBraces]
  apply takeFor?_of_startsIn (.of_control hcontrol) hsecond
  apply Text.startsIn_append
  · intro e he
    rw [eq_of_beq (hbraces.all e he)]
    rfl
  · exact Text.startsIn_append (fun e he => (of_isOperator (htaken.all e he)).1)
      (hinner _ hcontrol')

theorem tagAtFront?_append {control braces operator : Text}
    (hopen : d.open? rest = some (control, braces, operator, inner, closing)) :
    d.tagAtFront? (d.left ++ rest) = some
      { textBefore := []
        spaceBefore := []
        tag :=
          { left := d.left
            leftControl := control
            leftBraces := braces
            operator := operator
            inner := inner
            rightBraces := closing.braces
            rightControl := closing.control
            right := d.right }
        spaceAfter := closing.rest.takeWhile isBlank
        textAfter := closing.rest.dropWhile isBlank } := by
  rw [tagAtFront?, Text.isPrefixOf?_eq_some.mpr rfl]
  simp [hopen]

theorem tagAfterSpace?_append (hd : d.IsUsual) {space : Text} {found : Occurrence}
    (hspace : ∀ c ∈ space, isBlank c = true)
    (hfront : d.tagAtFront? (d.left ++ rest) = some found) :
    d.tagAfterSpace? (space ++ (d.left ++ rest)) = some { found with spaceBefore := space } := by
  have htaken : Taken isBlank 0 (space ++ (d.left ++ rest)).length space := by
    refine ⟨hspace, Nat.zero_le _, ?_⟩
    rw [List.length_append]
    exact Nat.le_add_right ..
  rw [tagAfterSpace?, takeFor?_of_startsIn htaken hfront (by rw [hd.left]; rfl)]
  rfl

theorem firstTag?_append (hd : d.IsUsual) {textBefore space : Text} {found : Occurrence}
    (hlast : ∀ c, textBefore.getLast? = some c → isBlank c = false)
    (hnot : ¬"\x7b\x7b".toList <:+: textBefore)
    (hapart : space = [] → textBefore.getLast? ≠ some '\x7b')
    (hspace : ∀ c ∈ space, isBlank c = true)
    (hfound : d.tagAfterSpace? (space ++ (d.left ++ rest)) = some found) :
    d.firstTag? (textBefore ++ (space ++ (d.left ++ rest))) =
      some { found with textBefore := textBefore } := by
  have hle : d.fewestBraces ≤ d.mostBraces := hd.fewestBraces_le
  have hnil := (tagAfterSpace?_eq_some hle hfound).2
  rw [firstTag?_eq_some_iff hle, ← hnil]
  apply shortest?_append hfound
  intro before after heq hafter
  rw [Option.eq_none_iff_forall_ne_some]
  intro found' hfound'
  obtain ⟨hsplits, hnil'⟩ := tagAfterSpace?_eq_some hle hfound'
  obtain ⟨between, afterTag, hends⟩ := hsplits.eq_append
  rw [hnil', List.nil_append] at hends
  rw [heq, List.getLast?_append_of_ne_nil _ hafter] at hlast hapart
  rcases Nat.lt_or_ge found'.spaceBefore.length after.length with hlt | hge
  · obtain ⟨more, hmore, hback⟩ := exists_append_of_length_le hends.symm (Nat.le_of_lt hlt)
    rw [hd.left] at hback
    change '\x7b' :: '\x7b' :: (between ++ (d.right ++ afterTag)) =
      more ++ (space ++ ('\x7b' :: '\x7b' :: rest)) at hback
    match more with
    | [] =>
      rw [hmore, List.append_nil] at hlt
      exact Nat.lt_irrefl _ hlt
    | [e] =>
      obtain ⟨he, hspace'⟩ := List.cons.inj hback
      cases space with
      | nil =>
        apply hapart rfl
        rw [hmore, ← he]
        simp
      | cons c space =>
        have hc := hspace c (List.mem_cons_self ..)
        rw [← (List.cons.inj hspace').1] at hc
        revert hc
        decide
    | e :: e' :: more =>
      obtain ⟨he, hback⟩ := List.cons.inj hback
      obtain ⟨he', -⟩ := List.cons.inj hback
      apply hnot
      rw [heq, hmore, ← he, ← he']
      exact ⟨before ++ found'.spaceBefore, more, by simp⟩
  · obtain ⟨more, hmore, -⟩ := exists_append_of_length_le hends hge
    have hink := hlast _ (List.getLast?_eq_some_getLast hafter)
    have hblank := hsplits.spaceBefore (after.getLast hafter) (by simp [hmore])
    rw [hink] at hblank
    cases hblank

end Front

theorem firstTag?_of_close? (hd : d.IsUsual) {t : Text} {o : Occurrence} (hsplits : d.Splits t o)
    (hclear : o.Clear) {rest : Text} {closing : Closing} (hclose : d.close? rest = some closing) :
    d.firstTag? (o.textBefore ++ (o.spaceBefore ++ (d.left ++ (o.tag.leftControl ++
        (o.tag.leftBraces ++ (o.tag.operator ++ (o.tag.inner ++ rest))))))) =
      some
        { o with
          tag := { o.tag with rightBraces := closing.braces, rightControl := closing.control }
          spaceAfter := closing.rest.takeWhile isBlank
          textAfter := closing.rest.dropWhile isBlank } := by
  have hbraces := Taken.of_isRun hsplits.leftBraces
  rw [hd.fewestBraces] at hbraces
  have hinside := inside?_append hd hclear.inner_last hclear.inner hclose
  have hopen := open?_append hd hsplits.leftControl hbraces hsplits.operator.1 hsplits.operator.2
    hclear.inner_head hinside
  have hspace := tagAfterSpace?_append hd hsplits.spaceBefore (tagAtFront?_append hopen)
  rw [firstTag?_append hd hsplits.textBefore hclear.textBefore hclear.textBefore_last
    hsplits.spaceBefore hspace, ← hsplits.left, ← hsplits.right]

theorem close?_of_clear (hd : d.IsUsual) {t : Text} {o : Occurrence} (hsplits : d.Splits t o)
    (hclear : o.Clear) (hruns : ¬(d.mostBraces = 2 ∧ o.RunsOn)) :
    d.close? (o.tag.rightBraces ++ (o.tag.rightControl ++ (d.right ++
        (o.spaceAfter ++ o.textAfter)))) =
      some ⟨o.tag.rightBraces, o.tag.rightControl, o.spaceAfter ++ o.textAfter⟩ := by
  have hbraces := Taken.of_isRun hsplits.rightBraces
  rw [hd.fewestBraces] at hbraces
  apply close?_append hd hbraces hsplits.rightControl
  · intro _ hhead
    obtain ⟨hspace, hhead⟩ := Text.head?_of_space_append hsplits.spaceAfter (by decide) hhead
    exact hclear.textAfter_head hspace hhead
  · intro hmost hbraces hcontrol hprefix
    have hhead : (o.spaceAfter ++ o.textAfter).head? = some '~' := by
      obtain ⟨more, hmore⟩ := hprefix
      rw [← hmore]
      rfl
    obtain ⟨hspace, -⟩ := Text.head?_of_space_append hsplits.spaceAfter (by decide) hhead
    rw [hspace] at hprefix
    exact hruns ⟨hmost, hbraces, hcontrol, hspace, hprefix⟩

end Delimiters

namespace Context

/-- A tag that is put into a text is found again with all its parts and with the texts around it.
In a dialect with raw blocks there is one exception: a right delimiter straight after the inside is
taken for two more braces, if the text after it goes on like the end of a tag. -/
theorem firstTag?_ofDialect_iff (dialect : Dialect) {t : Text} {o : Occurrence}
    (hsplits : (usualDelimiters dialect).Splits t o) (hclear : o.Clear) :
    (ofDialect dialect).firstTag? t = some o ↔ ¬(dialect.rawBlocks = true ∧ o.RunsOn) := by
  have hd := Delimiters.isUsual_usualDelimiters dialect
  have ht : t = o.textBefore ++ (o.spaceBefore ++ ((usualDelimiters dialect).left ++
      (o.tag.leftControl ++ (o.tag.leftBraces ++ (o.tag.operator ++ (o.tag.inner ++
        (o.tag.rightBraces ++ (o.tag.rightControl ++ ((usualDelimiters dialect).right ++
          (o.spaceAfter ++ o.textAfter)))))))))) := by
    rw [← hsplits.source, ← hsplits.left, ← hsplits.right]
    simp [Occurrence.source, Tag.text]
  rw [firstTag?, ht]
  change (usualDelimiters dialect).firstTag? _ = some o ↔ _
  by_cases hruns : dialect.rawBlocks = true ∧ o.RunsOn
  · refine iff_of_false ?_ (not_not_intro hruns)
    obtain ⟨hraw, hruns⟩ := hruns
    obtain ⟨after, hafter⟩ := hruns.textAfter
    have hmost := (Delimiters.mostBraces_usualDelimiters dialect).mpr hraw
    have hother := Delimiters.firstTag?_of_close? hd hsplits hclear
      (Delimiters.close?_of_runsOn hd hmost after)
    intro hfound
    rw [hruns.rightBraces, hruns.rightControl, hruns.spaceAfter, ← hafter] at hfound
    have hsame := Option.some.inj (hother.symm.trans hfound)
    have hcontrol := congrArg (fun o => o.tag.rightControl) hsame
    rw [hruns.rightControl] at hcontrol
    cases hcontrol
  · refine iff_of_true ?_ hruns
    rw [← Delimiters.mostBraces_usualDelimiters] at hruns
    have hclose := Delimiters.close?_of_clear hd hsplits hclear hruns
    have hfound := Delimiters.firstTag?_of_close? hd hsplits hclear hclose
    obtain ⟨hspace, htext⟩ := Text.span_append hsplits.spaceAfter hsplits.textAfter
    rw [hfound, hspace, htext]

/-- Every marker is used, and the text before and the text after come as close as they may. -/
theorem firstTag?_ofDialect_iff_markers :
    let o : Occurrence :=
      { textBefore := "a\x7d\x7b b".toList
        spaceBefore := " ".toList
        tag :=
          { left := "\x7b\x7b".toList
            leftControl := "~".toList
            leftBraces := "\x7b".toList
            operator := "#*".toList
            inner := "c \x7d~ d".toList
            rightBraces := "\x7d".toList
            right := "\x7d\x7d".toList }
        spaceAfter := []
        textAfter := "~\x7d\x7d".toList }
    (ofDialect .handlebars).firstTag? o.source = some o := by
  intro o
  have hsplits : (usualDelimiters .handlebars).Splits o.source o := by
    constructor
    case source => rfl
    case left => rfl
    case right => rfl
    case spaceBefore => exact List.forall_mem_singleton.mpr rfl
    case spaceAfter => exact nofun
    case textBefore => intro c hc; cases hc; decide
    case textAfter => intro c hc; cases hc; decide
    case leftControl => exact .inr rfl
    case rightControl => exact .inl rfl
    case leftBraces => exact ⟨1, rfl, by decide, by decide⟩
    case rightBraces => exact ⟨1, rfl, by decide, by decide⟩
    case operator =>
      refine ⟨by decide, ?_⟩
      exact List.forall_mem_cons.mpr ⟨by decide, List.forall_mem_singleton.mpr (by decide)⟩
  have hclear : o.Clear := by
    constructor
    case inner_head => exact ⟨'c', rfl, by decide⟩
    case inner_last => exact ⟨'d', rfl, by decide⟩
    case inner => decide
    case textBefore => decide
    case textBefore_last => exact nofun
    case textAfter_head => intro _ h; cases h
  refine (firstTag?_ofDialect_iff .handlebars hsplits hclear).mpr ?_
  rintro ⟨-, hruns⟩
  cases hruns.rightBraces

/-- A tag that is not found again: the tilde after it is taken for a part of it. -/
theorem firstTag?_runsOn :
    let o : Occurrence :=
      { textBefore := []
        spaceBefore := []
        tag := Tag.ofInner "a".toList
        spaceAfter := []
        textAfter := "~\x7d\x7d".toList }
    (usualDelimiters .handlebars).Splits o.source o ∧ o.Clear ∧
      (ofDialect .handlebars).firstTag? o.source = some
        { o with
          tag := { o.tag with rightBraces := "\x7d\x7d".toList, rightControl := "~".toList }
          textAfter := [] } ∧
      (ofDialect .handlebars).firstTag? o.source ≠ some o := by
  intro o
  have hfound : (ofDialect .handlebars).firstTag? o.source = some
      { o with
        tag := { o.tag with rightBraces := "\x7d\x7d".toList, rightControl := "~".toList }
        textAfter := [] } := by
    rfl
  refine ⟨?_, ?_, hfound, ?_⟩
  · constructor
    case source => rfl
    case left => rfl
    case right => rfl
    case spaceBefore => exact nofun
    case spaceAfter => exact nofun
    case textBefore => exact nofun
    case textAfter => intro c hc; cases hc; decide
    case leftControl => exact .inl rfl
    case rightControl => exact .inl rfl
    case leftBraces => exact ⟨0, rfl, by decide, by decide⟩
    case rightBraces => exact ⟨0, rfl, by decide, by decide⟩
    case operator => exact ⟨by decide, nofun⟩
  · constructor
    case inner_head => exact ⟨'a', rfl, by decide⟩
    case inner_last => exact ⟨'a', rfl, by decide⟩
    case inner => decide
    case textBefore => decide
    case textBefore_last => exact nofun
    case textAfter_head => intro _ h; cases h
  · rw [hfound]
    intro h
    cases congrArg Occurrence.textAfter (Option.some.inj h)

end Context

end TemplateTag
