import TemplateTag.Proofs.Text.Search
import TemplateTag.Tag.Occurrence
/-!
# Splitting a text at a tag

The search for a tag puts each character of the text into exactly one part, whatever the delimiters
are. Each function of the search takes its parts off the front of the text and leaves the rest to the
next one, so that what a function returns is put together again with what comes after it.
-/
namespace TemplateTag

/-- A part that was taken off a text: characters of a class, and not too few or too many of them. -/
structure Taken (p : Char → Bool) (fewest most : Nat) (taken : Text) : Prop where
  all : ∀ c ∈ taken, p c = true
  fewest_le : fewest ≤ taken.length
  le_most : taken.length ≤ most

/-- A run of one character. -/
def IsRun (c : Char) (fewest most : Nat) (t : Text) : Prop :=
  ∃ n, t = List.replicate n c ∧ fewest ≤ n ∧ n ≤ most

/-- A text is split at a tag: the parts make up the text, and each of them has its shape. -/
structure Delimiters.Splits (d : Delimiters) (t : Text) (o : Occurrence) : Prop where
  source : o.source = t
  left : o.tag.left = d.left
  right : o.tag.right = d.right
  spaceBefore : ∀ c ∈ o.spaceBefore, isBlank c = true
  spaceAfter : ∀ c ∈ o.spaceAfter, isBlank c = true
  textBefore : ∀ c, o.textBefore.getLast? = some c → isBlank c = false
  textAfter : ∀ c, o.textAfter.head? = some c → isBlank c = false
  leftControl : o.tag.leftControl = [] ∨ o.tag.leftControl = ['~']
  rightControl : o.tag.rightControl = [] ∨ o.tag.rightControl = ['~']
  leftBraces : IsRun '\x7b' d.fewestBraces d.mostBraces o.tag.leftBraces
  rightBraces : IsRun '\x7d' d.fewestBraces d.mostBraces o.tag.rightBraces
  operator : o.tag.operator.length ≤ 2 ∧ ∀ c ∈ o.tag.operator, c ∈ "^#/!&>*".toList

namespace Taken

theorem isRun {c : Char} {fewest most : Nat} {t : Text} (h : Taken (· == c) fewest most t) :
    IsRun c fewest most t := by
  refine ⟨t.length, ?_, h.fewest_le, h.le_most⟩
  rw [List.eq_replicate_iff]
  exact ⟨rfl, fun d hd => eq_of_beq (h.all d hd)⟩

theorem control {t : Text} (h : Taken Delimiters.isControl 0 1 t) : t = [] ∨ t = ['~'] := by
  cases t with
  | nil => exact .inl rfl
  | cons c rest =>
    have hrest : rest = [] := by
      have hlength := h.le_most
      rw [List.length_cons] at hlength
      exact List.eq_nil_of_length_eq_zero (by omega)
    have hc : c = '~' := by simpa [Delimiters.isControl] using h.all c (List.mem_cons_self ..)
    rw [hrest, hc]
    exact .inr rfl

end Taken

namespace Delimiters

theorem braces_build (rawBlocks rawBlockActive : Bool) (left right : Text) :
    ((build rawBlocks rawBlockActive left right).fewestBraces,
        (build rawBlocks rawBlockActive left right).mostBraces) =
      if rawBlockActive then (2, 2) else if rawBlocks then (0, 2) else (0, 1) := by
  cases rawBlockActive <;> cases rawBlocks <;> rfl

theorem fewestBraces_le_build (rawBlocks rawBlockActive : Bool) (left right : Text) :
    (build rawBlocks rawBlockActive left right).fewestBraces ≤
      (build rawBlocks rawBlockActive left right).mostBraces := by
  cases rawBlockActive <;> simp [build]

section Take

variable {β : Type} {p : Char → Bool} {read : Text → Option β} {fewest most : Nat}
  {t taken : Text} {b : β}

private theorem eq_nil_of_map_read (h : (read t).map (([] : Text), ·) = some (taken, b)) :
    taken = [] ∧ read t = some b := by
  obtain ⟨b', hb, heq⟩ := Option.map_eq_some_iff.mp h
  cases heq
  exact ⟨rfl, hb⟩

private theorem taken_nil (p : Char → Bool) (most : Nat) : Taken p 0 most [] :=
  ⟨nofun, Nat.le_refl 0, Nat.zero_le most⟩

theorem takeFor?_eq_some (hle : fewest ≤ most)
    (h : takeFor? p read fewest most t = some (taken, b)) :
    ∃ rest, t = taken ++ rest ∧ Taken p fewest most taken ∧ read rest = some b := by
  induction t generalizing fewest most taken with
  | nil =>
    rw [takeFor?] at h
    split at h
    · next hfewest =>
      obtain ⟨rfl, hread⟩ := eq_nil_of_map_read h
      rw [hfewest]
      exact ⟨[], rfl, taken_nil p most, hread⟩
    · cases h
  | cons c t ih =>
    rw [takeFor?] at h
    split at h
    · next later b' htake =>
      cases h
      split at htake
      · next hc =>
        rw [Bool.and_eq_true, decide_eq_true_eq] at hc
        obtain ⟨rest, rfl, hlater, hread⟩ := ih (Nat.sub_le_sub_right hle 1) htake
        have hfewest := hlater.fewest_le
        have hmost := hlater.le_most
        refine ⟨rest, rfl, ⟨?_, ?_, ?_⟩, hread⟩
        · intro d hd
          rcases List.mem_cons.mp hd with rfl | hd
          · exact hc.2
          · exact hlater.all d hd
        · rw [List.length_cons]
          omega
        · rw [List.length_cons]
          omega
      · cases htake
    · split at h
      · next hfewest =>
        obtain ⟨rfl, hread⟩ := eq_nil_of_map_read h
        rw [hfewest]
        exact ⟨c :: t, rfl, taken_nil p most, hread⟩
      · cases h

end Take

section Parts

variable {d : Delimiters} {t : Text} {closing : Closing}

theorem close?_eq_some (hd : d.fewestBraces ≤ d.mostBraces) (h : d.close? t = some closing) :
    t = closing.braces ++ (closing.control ++ (d.right ++ closing.rest)) ∧
      Taken (· == '\x7d') d.fewestBraces d.mostBraces closing.braces ∧
      Taken isControl 0 1 closing.control := by
  obtain ⟨⟨braces, control, rest⟩, htake, rfl⟩ := Option.map_eq_some_iff.mp h
  obtain ⟨t₁, rfl, hbraces, htake⟩ := takeFor?_eq_some hd htake
  obtain ⟨t₂, rfl, hcontrol, hright⟩ := takeFor?_eq_some (Nat.zero_le 1) htake
  rw [Text.isPrefixOf?_eq_some.mp hright]
  exact ⟨rfl, hbraces, hcontrol⟩

theorem inside?_eq_some {inner : Text} (h : d.inside? t = some (inner, closing)) :
    ∃ rest, t = inner ++ rest ∧ d.close? rest = some closing := by
  induction t generalizing inner with
  | nil =>
    rw [inside?] at h
    obtain ⟨closing', hclose, heq⟩ := Option.map_eq_some_iff.mp h
    cases heq
    exact ⟨[], rfl, hclose⟩
  | cons c t ih =>
    rw [inside?] at h
    split at h
    · next closing' hclose =>
      cases h
      exact ⟨c :: t, rfl, hclose⟩
    · obtain ⟨⟨inner', closing'⟩, hinside, heq⟩ := Option.map_eq_some_iff.mp h
      cases heq
      obtain ⟨rest, rfl, hclose⟩ := ih hinside
      exact ⟨rest, rfl, hclose⟩

theorem open?_eq_some (hd : d.fewestBraces ≤ d.mostBraces) {control braces operator inner : Text}
    (h : d.open? t = some (control, braces, operator, inner, closing)) :
    ∃ rest, t = control ++ (braces ++ (operator ++ (inner ++ rest))) ∧
      Taken isControl 0 1 control ∧
      Taken (· == '\x7b') d.fewestBraces d.mostBraces braces ∧
      Taken isOperator 0 2 operator ∧ d.close? rest = some closing := by
  obtain ⟨t₁, rfl, hcontrol, htake⟩ := takeFor?_eq_some (Nat.zero_le 1) h
  obtain ⟨t₂, rfl, hbraces, htake⟩ := takeFor?_eq_some hd htake
  obtain ⟨t₃, rfl, hoperator, hinside⟩ := takeFor?_eq_some (Nat.zero_le 2) htake
  obtain ⟨rest, rfl, hclose⟩ := inside?_eq_some hinside
  exact ⟨rest, rfl, hcontrol, hbraces, hoperator, hclose⟩

theorem not_blank_of_head?_dropWhile {c : Char} (h : (t.dropWhile isBlank).head? = some c) :
    isBlank c = false := by
  have hhead := List.head?_dropWhile_not isBlank t
  rw [h] at hhead
  simpa using hhead

theorem tagAtFront?_eq_some (hd : d.fewestBraces ≤ d.mostBraces) {o : Occurrence}
    (h : d.tagAtFront? t = some o) : d.Splits t o ∧ o.textBefore = [] ∧ o.spaceBefore = [] := by
  rw [tagAtFront?] at h
  obtain ⟨rest, hleft, h⟩ := Option.bind_eq_some_iff.mp h
  obtain ⟨⟨control, braces, operator, inner, closing⟩, hopen, h⟩ := Option.bind_eq_some_iff.mp h
  cases h
  obtain ⟨rest', rfl, hcontrol, hbraces, hoperator, hclose⟩ := open?_eq_some hd hopen
  obtain ⟨rfl, hbraces', hcontrol'⟩ := close?_eq_some hd hclose
  rw [Text.isPrefixOf?_eq_some.mp hleft]
  refine ⟨?_, rfl, rfl⟩
  constructor
  case source =>
    have hrest := List.takeWhile_append_dropWhile (p := isBlank) (l := closing.rest)
    simp [Occurrence.source, Tag.text, hrest]
  case left => rfl
  case right => rfl
  case spaceBefore => exact nofun
  case spaceAfter => exact fun c hc => List.all_eq_true.mp List.all_takeWhile c hc
  case textBefore => exact nofun
  case textAfter => exact fun c hc => not_blank_of_head?_dropWhile hc
  case leftControl => exact hcontrol.control
  case rightControl => exact hcontrol'.control
  case leftBraces => exact hbraces.isRun
  case rightBraces => exact hbraces'.isRun
  case operator =>
    refine ⟨hoperator.le_most, ?_⟩
    intro c hc
    exact List.contains_iff_mem.mp (hoperator.all c hc)

theorem tagAfterSpace?_eq_some (hd : d.fewestBraces ≤ d.mostBraces) {o : Occurrence}
    (h : d.tagAfterSpace? t = some o) : d.Splits t o ∧ o.textBefore = [] := by
  obtain ⟨⟨space, found⟩, htake, rfl⟩ := Option.map_eq_some_iff.mp h
  obtain ⟨rest, rfl, hspace, hfound⟩ := takeFor?_eq_some (Nat.zero_le _) htake
  obtain ⟨hsplits, hbefore, hnone⟩ := tagAtFront?_eq_some hd hfound
  have hsource := hsplits.source
  rw [Occurrence.source, hbefore, hnone] at hsource
  refine ⟨{ hsplits with source := ?_, spaceBefore := hspace.all }, hbefore⟩
  rw [Occurrence.source, hbefore, ← hsource]
  simp

theorem tagAfterSpace?_cons_blank {c : Char} (hc : isBlank c = true)
    (h : d.tagAfterSpace? t ≠ none) : d.tagAfterSpace? (c :: t) ≠ none := by
  rw [tagAfterSpace?, ne_eq, Option.map_eq_none_iff] at h ⊢
  obtain ⟨⟨space, found⟩, htake⟩ := Option.ne_none_iff_exists'.mp h
  rw [takeFor?]
  simp [hc, htake]

theorem firstTag?_cons (d : Delimiters) (c : Char) (t : Text) :
    d.firstTag? (c :: t) =
      match d.tagAfterSpace? (c :: t) with
      | some found => some found
      | none =>
        (d.firstTag? t).map fun found => { found with textBefore := c :: found.textBefore } := by
  rfl

theorem tagAfterSpace?_of_textBefore {o : Occurrence} (h : d.firstTag? t = some o)
    (hbefore : o.textBefore = []) : d.tagAfterSpace? t = some o := by
  cases t with
  | nil => exact h
  | cons c t =>
    rw [firstTag?_cons] at h
    split at h
    · next hfound =>
      cases h
      exact hfound
    · obtain ⟨found, -, rfl⟩ := Option.map_eq_some_iff.mp h
      cases hbefore

theorem firstTag?_eq_some (hd : d.fewestBraces ≤ d.mostBraces) {o : Occurrence}
    (h : d.firstTag? t = some o) : d.Splits t o := by
  induction t generalizing o with
  | nil => exact (tagAfterSpace?_eq_some hd h).1
  | cons c t ih =>
    rw [firstTag?_cons] at h
    split at h
    · next hfound =>
      cases h
      exact (tagAfterSpace?_eq_some hd hfound).1
    · next hnone =>
      obtain ⟨found, hfound, rfl⟩ := Option.map_eq_some_iff.mp h
      have hsplits := ih hfound
      refine { hsplits with source := ?_, textBefore := ?_ }
      · rw [← hsplits.source]
        rfl
      · intro last hlast
        by_cases hbefore : found.textBefore = []
        · -- were `c` blank, the tag would have been found with `c` in the space before it
          rw [hbefore] at hlast
          cases hlast
          rw [Bool.eq_false_iff]
          intro hc
          have hspace := tagAfterSpace?_of_textBefore hfound hbefore
          exact tagAfterSpace?_cons_blank hc (by simp [hspace]) hnone
        · rw [List.getLast?_cons, List.getLast?_eq_some_getLast hbefore] at hlast
          apply hsplits.textBefore
          rw [List.getLast?_eq_some_getLast hbefore]
          exact hlast

end Parts

end Delimiters

end TemplateTag
