import TemplateTag.Proofs.Context.Splitting
import TemplateTag.Proofs.Text.Span
import TemplateTag.Template
/-!
# The scan of a template

The search for tags as a sequence of steps, each in the text that the step before it left over. A
tag between delimiters takes up characters unless both delimiters are empty and there need be no
braces. So the scan ends, and it ends soon enough for `tags?`; otherwise every text has a tag and
there is no last step.
-/
namespace TemplateTag

namespace Occurrence

/-- The text up to the text after the tag. -/
def front (o : Occurrence) : Text :=
  o.textBefore ++ o.spaceBefore ++ o.tag.text ++ o.spaceAfter

theorem source_eq (o : Occurrence) : o.source = o.front ++ o.textAfter := rfl

/-- The spans of tags that are found one after another from a position on. -/
def places : Nat → List Occurrence → List Span
  | _, [] => []
  | p, o :: found =>
    ⟨p + (o.textBefore ++ o.spaceBefore).length,
        p + (o.textBefore ++ o.spaceBefore).length + o.tag.text.length⟩ ::
      places (p + o.front.length) found

end Occurrence

namespace Delimiters

variable {d : Delimiters} {t rest : Text} {o : Occurrence} {found : List Occurrence}

/-- A tag between the delimiters has at least one character. -/
def TakesUp (d : Delimiters) : Prop :=
  d.left ≠ [] ∨ d.right ≠ [] ∨ 0 < d.fewestBraces

theorem Splits.text_ne_nil (h : d.Splits t o) (hd : d.TakesUp) : 0 < o.tag.text.length := by
  obtain ⟨n, hbraces, hfewest, -⟩ := h.leftBraces
  rw [Tag.text, h.left, h.right, hbraces]
  simp only [List.length_append, List.length_replicate]
  rcases hd with hleft | hright | hpos
  · have := List.length_pos_iff.mpr hleft
    omega
  · have := List.length_pos_iff.mpr hright
    omega
  · omega

theorem Splits.length_textAfter_lt (h : d.Splits t o) (hd : d.TakesUp) :
    o.textAfter.length < t.length := by
  have htag := h.text_ne_nil hd
  rw [← h.source, Occurrence.source]
  simp only [List.length_append]
  omega

theorem isSome_firstTag?_of_not_takesUp (hd : ¬d.TakesUp) (t : Text) : (d.firstTag? t).isSome := by
  rw [TakesUp, not_or, not_or, Decidable.not_not, Decidable.not_not, Nat.not_lt, Nat.le_zero] at hd
  obtain ⟨hleft, hright, hbraces⟩ := hd
  rw [isSome_firstTag?_iff hbraces, hleft, hright]
  exact ⟨t, [], [], by simp⟩

theorem forall_length_textAfter_lt_iff (hle : d.fewestBraces ≤ d.mostBraces) :
    (∀ t o, d.firstTag? t = some o → o.textAfter.length < t.length) ↔ d.TakesUp := by
  constructor
  · intro h
    by_cases hd : d.TakesUp
    · exact hd
    · obtain ⟨o, ho⟩ := Option.isSome_iff_exists.mp (isSome_firstTag?_of_not_takesUp hd [])
      exact absurd (h [] o ho) (Nat.not_lt_zero _)
  · intro hd t o ho
    exact (firstTag?_eq_some hle ho).length_textAfter_lt hd

theorem takesUp_build (rawBlocks rawBlockActive : Bool) (left right : Text) :
    (build rawBlocks rawBlockActive left right).TakesUp ↔
      ¬(left = [] ∧ right = []) ∨ rawBlockActive = true := by
  rw [Decidable.not_and_iff_not_or_not, or_assoc]
  cases rawBlockActive <;> simp [TakesUp, build]

/-- Each step takes the text after the tag that is found, and the scan stops where there is none. -/
inductive Scans (d : Delimiters) : Text → List Occurrence → Text → Prop
  | stop {t : Text} (none : d.firstTag? t = none) : Scans d t [] t
  | next {t rest : Text} {o : Occurrence} {found : List Occurrence} (some : d.firstTag? t = some o)
    (later : Scans d o.textAfter found rest) : Scans d t (o :: found) rest

namespace Scans

theorem firstTag?_rest (h : d.Scans t found rest) : d.firstTag? rest = none := by
  induction h with
  | stop hnone => exact hnone
  | next _ _ ih => exact ih

theorem length_add_le (hle : d.fewestBraces ≤ d.mostBraces) (hd : d.TakesUp)
    (h : d.Scans t found rest) : found.length + rest.length ≤ t.length := by
  induction h with
  | stop => simp
  | next hfound _ ih =>
    have hlt := (firstTag?_eq_some hle hfound).length_textAfter_lt hd
    rw [List.length_cons]
    omega

theorem suffix (hle : d.fewestBraces ≤ d.mostBraces) (h : d.Scans t found rest) : rest <:+ t := by
  induction h with
  | stop => exact List.suffix_refl _
  | next hfound _ ih =>
    rw [← (firstTag?_eq_some hle hfound).source, Occurrence.source_eq]
    exact ih.trans (List.suffix_append ..)

theorem map_slice_places (hle : d.fewestBraces ≤ d.mostBraces) (h : d.Scans t found rest)
    (before : Text) :
    (Occurrence.places before.length found).map (Span.slice (before ++ t)) =
      found.map fun o => o.tag.text := by
  induction h generalizing before with
  | stop => rfl
  | @next t rest o found hfound _ ih =>
    have hsource := (firstTag?_eq_some hle hfound).source
    have hfirst := Span.slice_append (before ++ (o.textBefore ++ o.spaceBefore)) o.tag.text
      (o.spaceAfter ++ o.textAfter)
    have hlater := ih (before ++ o.front)
    rw [List.length_append, List.append_assoc before, ← o.source_eq, hsource] at hlater
    have hwhole : before ++ (o.textBefore ++ o.spaceBefore) ++ o.tag.text ++
        (o.spaceAfter ++ o.textAfter) = before ++ t := by
      rw [← hsource, Occurrence.source]
      simp
    rw [List.length_append, hwhole] at hfirst
    rw [Occurrence.places, List.map_cons, List.map_cons, hfirst, hlater]

theorem bounds_of_mem_places (hle : d.fewestBraces ≤ d.mostBraces) (hd : d.TakesUp)
    (h : d.Scans t found rest) {p : Nat} {s : Span} (hs : s ∈ Occurrence.places p found) :
    p ≤ s.start ∧ s.start < s.stop ∧ s.stop + rest.length ≤ p + t.length := by
  induction h generalizing p with
  | stop => cases hs
  | @next t rest o found hfound later ih =>
    have hsplits := firstTag?_eq_some hle hfound
    have htag := hsplits.text_ne_nil hd
    have hrest := later.length_add_le hle hd
    rw [← hsplits.source, Occurrence.source]
    rw [Occurrence.places, List.mem_cons] at hs
    rcases hs with rfl | hs
    · simp only [List.length_append]
      omega
    · have hlater := ih hs
      rw [Occurrence.front] at hlater
      simp only [List.length_append] at hlater ⊢
      omega

theorem places_pairwise (hle : d.fewestBraces ≤ d.mostBraces) (hd : d.TakesUp)
    (h : d.Scans t found rest) (p : Nat) :
    (Occurrence.places p found).Pairwise fun s s' => s.stop ≤ s'.start := by
  induction h generalizing p with
  | stop => exact .nil
  | @next t rest o found hfound later ih =>
    refine List.pairwise_cons.mpr ⟨?_, ih _⟩
    intro s hs
    have hlater := (later.bounds_of_mem_places hle hd hs).1
    rw [Occurrence.front] at hlater
    simp only [List.length_append] at hlater ⊢
    omega

end Scans

theorem tagsWithin?_eq_some_iff {most : Nat} :
    d.tagsWithin? most t = some found ↔ found.length < most ∧ ∃ rest, d.Scans t found rest := by
  induction most generalizing t found with
  | zero => simp [tagsWithin?]
  | succ most ih =>
    rw [tagsWithin?]
    cases hfirst : d.firstTag? t with
    | none =>
      constructor
      · intro h
        cases h
        exact ⟨Nat.succ_pos most, t, .stop hfirst⟩
      · rintro ⟨-, rest, h⟩
        cases h with
        | stop => rfl
        | next hsome => simp [hfirst] at hsome
    | some o =>
      constructor
      · intro h
        obtain ⟨later, hlater, rfl⟩ := Option.map_eq_some_iff.mp h
        obtain ⟨hlength, rest, hscan⟩ := ih.mp hlater
        exact ⟨Nat.succ_lt_succ hlength, rest, .next hfirst hscan⟩
      · rintro ⟨hlength, rest, h⟩
        cases h with
        | stop hnone => simp [hfirst] at hnone
        | next hsome hscan =>
          obtain rfl := Option.some.inj (hfirst.symm.trans hsome)
          exact Option.map_eq_some_iff.mpr
            ⟨_, ih.mpr ⟨Nat.lt_of_succ_lt_succ hlength, rest, hscan⟩, rfl⟩

/-- The tags of a text are those of its scan, and there is no result if the scan does not end. -/
theorem tags?_eq_some_iff (hle : d.fewestBraces ≤ d.mostBraces) :
    d.tags? t = some found ↔ ∃ rest, d.Scans t found rest := by
  rw [tags?, tagsWithin?_eq_some_iff, and_iff_right_iff_imp]
  rintro ⟨rest, h⟩
  by_cases hd : d.TakesUp
  · have hlength := h.length_add_le hle hd
    omega
  · have hsome := isSome_firstTag?_of_not_takesUp hd rest
    rw [h.firstTag?_rest] at hsome
    cases hsome

theorem exists_scans (hle : d.fewestBraces ≤ d.mostBraces) (hd : d.TakesUp) (t : Text) :
    ∃ found rest, d.Scans t found rest := by
  cases hfirst : d.firstTag? t with
  | none => exact ⟨[], t, .stop hfirst⟩
  | some o =>
    have hlt := (firstTag?_eq_some hle hfirst).length_textAfter_lt hd
    obtain ⟨found, rest, h⟩ := exists_scans hle hd o.textAfter
    exact ⟨o :: found, rest, .next hfirst h⟩
termination_by t.length

end Delimiters

namespace Settings

theorem tag_summarizeAll (s : Settings) (tags : List Tag) :
    (s.summarizeAll tags).value.map TagSummary.tag = tags.map Tag.text := by
  induction tags with
  | nil => rfl
  | cons tag tags ih => simp [summarizeAll, summarize, ih]

end Settings

/-- Parts of a text, one behind the other, and a rest at its end that none of them reaches. -/
structure StandInOrder (t : Text) (parts : List Text) (rest : Text) (spans : List Span) : Prop where
  slices : spans.map (Span.slice t) = parts
  in_text : ∀ s ∈ spans, s.start < s.stop ∧ s.stop + rest.length ≤ t.length
  in_order : spans.Pairwise fun s s' => s.stop ≤ s'.start
  rest : rest <:+ t

theorem Delimiters.Scans.standInOrder {d : Delimiters} (hle : d.fewestBraces ≤ d.mostBraces)
    (hd : d.TakesUp) {t rest : Text} {found : List Occurrence} (h : d.Scans t found rest) :
    StandInOrder t (found.map fun o => o.tag.text) rest (Occurrence.places 0 found) := by
  refine ⟨h.map_slice_places hle [], ?_, h.places_pairwise hle hd 0, h.suffix hle⟩
  intro s hs
  have hbounds := h.bounds_of_mem_places hle hd hs
  rw [Nat.zero_add] at hbounds
  exact hbounds.2

namespace Context

theorem readTemplate?_of_scans {ctx : Context}
    (hle : ctx.delimiters.fewestBraces ≤ ctx.delimiters.mostBraces) {template rest : Text}
    {found : List Occurrence} (h : ctx.delimiters.Scans template found rest) :
    ∃ summaries ctx', ctx.readTemplate? template = some (summaries, ctx') ∧
      summaries.map TagSummary.tag = found.map fun o => o.tag.text := by
  refine ⟨_, _, Option.map_eq_some_iff.mpr
    ⟨found, (Delimiters.tags?_eq_some_iff hle).mpr ⟨rest, h⟩, rfl⟩, ?_⟩
  rw [Settings.tag_summarizeAll, List.map_map]
  rfl

theorem readTemplate?_eq_none {ctx : Context}
    (hle : ctx.delimiters.fewestBraces ≤ ctx.delimiters.mostBraces) {template : Text}
    (h : ¬∃ found rest, ctx.delimiters.Scans template found rest) :
    ctx.readTemplate? template = none := by
  rw [readTemplate?, Option.map_eq_none_iff, Option.eq_none_iff_forall_ne_some]
  intro found hfound
  exact h ⟨found, (Delimiters.tags?_eq_some_iff hle).mp hfound⟩

/-- A scan comes nearer to its end with every tag, unless both delimiters are empty and were set
outside a raw block. Then all tags of a template are read, not more of them than it has characters,
in order and up to a rest without a tag. With two empty delimiters every text has a tag, so that the
scan has no end and there is nothing to return. -/
theorem readTemplate?_withDelimiters (ctx : Context) (left right : Text) (hleft : '=' ∉ left)
    (hright : '=' ∉ right) :
    let d := (ctx.withDelimiters left right).delimiters
    let progresses := ¬(left = [] ∧ right = []) ∨ ctx.settings.rawBlockActive = true
    ((∀ t o, d.firstTag? t = some o → o.textAfter.length < t.length) ↔ progresses) ∧
      ∀ user : Context, user.delimiters = d → ∀ template : Text,
        (progresses → ∃ summaries user' found rest spans,
          user.readTemplate? template = some (summaries, user') ∧
            summaries.length ≤ template.length ∧
            d.Scans template found rest ∧
            summaries.map TagSummary.tag = (found.map fun o => o.tag.text) ∧
            StandInOrder template (summaries.map TagSummary.tag) rest spans ∧
            d.firstTag? rest = none) ∧
        (¬progresses →
          (∀ t, (d.firstTag? t).isSome) ∧
            (¬∃ found rest, d.Scans template found rest) ∧
            user.readTemplate? template = none) := by
  intro d progresses
  have hd : d = .build ctx.settings.dialect.rawBlocks ctx.settings.rawBlockActive left right :=
    delimiters_withDelimiters ctx hleft hright
  have hle : d.fewestBraces ≤ d.mostBraces := by
    rw [hd]
    exact Delimiters.fewestBraces_le_build ..
  have htakes : d.TakesUp ↔ progresses := by
    rw [hd]
    exact Delimiters.takesUp_build ..
  rw [← htakes]
  refine ⟨Delimiters.forall_length_textAfter_lt_iff hle, ?_⟩
  intro user huser template
  constructor
  · intro hprogress
    obtain ⟨found, rest, hscan⟩ := Delimiters.exists_scans hle hprogress template
    rw [← huser] at hle hscan
    obtain ⟨summaries, user', hread, htags⟩ := readTemplate?_of_scans hle hscan
    rw [huser] at hle hscan
    refine ⟨summaries, user', found, rest, Occurrence.places 0 found, hread, ?_, hscan, htags, ?_,
      hscan.firstTag?_rest⟩
    · have hlength := congrArg List.length htags
      have hfound := hscan.length_add_le hle hprogress
      rw [List.length_map, List.length_map] at hlength
      omega
    · rw [htags]
      exact hscan.standInOrder hle hprogress
  · intro hprogress
    have hsome := Delimiters.isSome_firstTag?_of_not_takesUp hprogress
    have hnone : ¬∃ found rest, d.Scans template found rest := by
      rintro ⟨found, rest, hscan⟩
      have hrest := hsome rest
      rw [hscan.firstTag?_rest] at hrest
      cases hrest
    refine ⟨hsome, hnone, ?_⟩
    rw [← huser] at hle hnone
    exact readTemplate?_eq_none hle hnone

/-- Two empty delimiters, set inside a raw block and outside. -/
theorem readTemplate?_withDelimiters_empty :
    let inside := ((ofDialect .handlebars).withRawBlockActive true).withDelimiters [] []
    let outside := (ofDialect .handlebars).withDelimiters [] []
    (∃ summaries ctx',
      inside.readTemplate? "a \x7b\x7bb\x7d\x7d".toList = some (summaries, ctx') ∧
        summaries.length ≤ 7) ∧
      outside.readTemplate? [] = none := by
  intro inside outside
  have hinside := (readTemplate?_withDelimiters ((ofDialect .handlebars).withRawBlockActive true)
    [] [] (by decide) (by decide)).2 inside rfl "a \x7b\x7bb\x7d\x7d".toList
  have houtside := (readTemplate?_withDelimiters (ofDialect .handlebars) [] [] (by decide)
    (by decide)).2 outside rfl []
  obtain ⟨summaries, ctx', -, -, -, hread, hlength, -⟩ := hinside.1 (.inr rfl)
  exact ⟨⟨summaries, ctx', hread, hlength⟩, (houtside.2 (by decide)).2.2⟩

end Context

end TemplateTag
