import TemplateTag.Proofs.Argument.Path
import TemplateTag.Proofs.Text.Brackets
import TemplateTag.Proofs.Text.Fields
/-!
# Names with and without brackets

The steps of a path, written with points between them, are read one by one: as long as no content of
brackets holds a closing bracket, the steps that have a name are those that are read (`ofGlyphs_join`).
The marks `./` are dropped before that, also where they stand in brackets (`dropHereMarks_join`).
-/
namespace TemplateTag

namespace Step

section Glyphs

theorem gather_mark {c : Char} (hc : c ∈ "./[]".toList) (glyphs : List Glyph) :
    gather (.plain c :: glyphs) = ([], ofGlyphs glyphs) := by
  have hends : (isSeparator c || c = '[' || c = ']') = true := by
    simp only [String.reduceToList, List.mem_cons, List.not_mem_nil, or_false] at hc
    rcases hc with rfl | rfl | rfl | rfl <;> rfl
  simp only [gather, if_pos hends]
  rfl

theorem ofGlyphs_mark {c : Char} (hc : c ∈ "./[]".toList) (glyphs : List Glyph) :
    ofGlyphs (.plain c :: glyphs) = ofGlyphs glyphs := by
  rw [ofGlyphs, gather_mark hc]
  rfl

theorem gather_plain {name : Text} (h : ∀ c ∈ name, c ∉ "./[]".toList) (glyphs : List Glyph) :
    gather (name.map .plain ++ glyphs) = (name ++ (gather glyphs).1, (gather glyphs).2) := by
  induction name with
  | nil => rfl
  | cons c name ih =>
    have hc := h c (List.mem_cons_self ..)
    simp only [String.reduceToList, List.mem_cons, List.not_mem_nil, or_false, not_or] at hc
    have hends : ¬(isSeparator c || c = '[' || c = ']') = true := by
      simp [isSeparator, hc]
    rw [List.map_cons, List.cons_append, gather, ih fun d hd => h d (List.mem_cons_of_mem c hd)]
    simp only [if_neg hends]
    rfl

end Glyphs

/-- The step as it stands in a path. -/
def written : Step → Text
  | plain name => name
  | bracketed content => '[' :: (content ++ [']'])

/-- The step without the marks `./` in its brackets. -/
def unmarked : Step → Step
  | plain name => plain name
  | bracketed content => bracketed (dropHereMarks content)

/-- A name without brackets is told from what is around it, and so is the content of brackets, which
may be empty. -/
def Readable : Step → Prop
  | plain name => name ≠ [] ∧ ∀ c ∈ name, c ∉ "./[]".toList
  | bracketed content => ']' ∉ content

/-- Steps written with points between them. -/
def join (steps : List Step) : Text :=
  ['.'].intercalate (steps.map written)

theorem join_singleton (s : Step) : join [s] = s.written :=
  List.intercalate_singleton

theorem join_cons_cons (s u : Step) (steps : List Step) :
    join (s :: u :: steps) = s.written ++ '.' :: join (u :: steps) := by
  rw [join, List.map_cons, List.map_cons, List.intercalate_cons_cons, List.append_assoc]
  rfl

theorem ofGlyphs_written {s : Step} (h : s.Readable) {t : Text} (ht : ∀ c ∈ t.head?, c = '.') :
    ofGlyphs (Glyph.ofText Glyph.closesLater (s.written ++ t)) =
      [s].filter (! ·.name.isEmpty) ++ ofGlyphs (Glyph.ofText Glyph.closesLater t) := by
  cases s with
  | plain n =>
    obtain ⟨hne, hn⟩ := h
    have hopen : '[' ∉ n := fun hmem => hn '[' hmem (by simp)
    have hrest : (gather (Glyph.ofText Glyph.closesLater t)).1 = [] := by
      cases t with
      | nil => rfl
      | cons c t =>
        obtain rfl := ht c rfl
        exact congrArg Prod.fst (gather_mark (by simp) (Glyph.ofText Glyph.closesLater t))
    rw [written, Glyph.ofText_append _ hopen, ofGlyphs, ofGlyphs, gather_plain hn]
    simp [hrest, consPlain, hne, name]
  | bracketed content =>
    rw [written, List.cons_append, List.append_assoc, List.singleton_append]
    cases content with
    | nil => rfl
    | cons c content =>
      rw [Glyph.ofText_bracketed (List.cons_ne_nil c content) h]
      rfl

theorem ofGlyphs_join {steps : List Step} (h : ∀ s ∈ steps, s.Readable) :
    ofGlyphs (Glyph.ofText Glyph.closesLater (join steps)) =
      steps.filter (! ·.name.isEmpty) := by
  induction steps with
  | nil => rfl
  | cons s steps ih =>
    have hs := h s (List.mem_cons_self ..)
    cases steps with
    | nil =>
      have hread := ofGlyphs_written hs (t := []) (by simp)
      rw [List.append_nil] at hread
      rw [join_singleton, hread]
      exact List.append_nil _
    | cons u steps =>
      have hlater := ih fun v hv => h v (List.mem_cons_of_mem s hv)
      have hpoint : Glyph.ofText Glyph.closesLater ('.' :: join (u :: steps)) =
          .plain '.' :: Glyph.ofText Glyph.closesLater (join (u :: steps)) := rfl
      rw [join_cons_cons, ofGlyphs_written hs (by simp), hpoint, ofGlyphs_mark (by simp), hlater,
        ← List.filter_append]
      rfl

theorem dropHereMarks_written {s : Step} (h : s.Readable) {t : Text} (ht : t.head? ≠ some '/') :
    dropHereMarks (s.written ++ t) = s.unmarked.written ++ dropHereMarks t := by
  rw [dropHereMarks_append ht]
  cases s with
  | plain n =>
    have hpoint : '.' ∉ n := fun hmem => h.2 '.' hmem (by simp)
    rw [written, unmarked, written, dropHereMarks_of_not_mem (by simp) hpoint]
  | bracketed content =>
    have hcontent : dropHereMarks (content ++ [']']) = dropHereMarks content ++ [']'] :=
      dropHereMarks_append (by simp)
    rw [written, unmarked, written, dropHereMarks, hcontent]
    rintro rest heq
    exact absurd heq (by decide)

theorem head?_written {s : Step} (h : s.Readable) : ∀ c ∈ s.written.head?, c ≠ '.' ∧ c ≠ '/' := by
  cases s with
  | plain n =>
    intro c hc
    have hmarks := h.2 c (List.mem_of_head? hc)
    simp only [String.reduceToList, List.mem_cons, not_or] at hmarks
    exact ⟨hmarks.1, hmarks.2.1⟩
  | bracketed content => simp [written]

theorem written_ne_nil {s : Step} (h : s.Readable) : s.written ≠ [] := by
  cases s with
  | plain n => exact h.1
  | bracketed content => exact List.cons_ne_nil _ _

theorem head?_join {steps : List Step} (h : ∀ s ∈ steps, s.Readable) :
    ∀ c ∈ (join steps).head?, c ≠ '.' ∧ c ≠ '/' := by
  apply Text.head?_intercalate
  intro t ht
  obtain ⟨s, hs, rfl⟩ := List.mem_map.mp ht
  exact ⟨written_ne_nil (h s hs), head?_written (h s hs)⟩

theorem dropHereMarks_join {steps : List Step} (h : ∀ s ∈ steps, s.Readable) :
    dropHereMarks (join steps) = join (steps.map unmarked) := by
  induction steps with
  | nil => rfl
  | cons s steps ih =>
    have hs := h s (List.mem_cons_self ..)
    cases steps with
    | nil =>
      have hdrop := dropHereMarks_written hs (t := []) (by simp)
      rw [List.append_nil, dropHereMarks, List.append_nil] at hdrop
      rw [List.map_singleton, join_singleton, join_singleton, hdrop]
    | cons u steps =>
      have hlater := fun v hv => h v (List.mem_cons_of_mem s hv)
      have hpoint : dropHereMarks ('.' :: join (u :: steps)) =
          '.' :: dropHereMarks (join (u :: steps)) := by
        rw [dropHereMarks]
        rintro rest - hrest
        exact (head?_join hlater '/' (by rw [hrest]; rfl)).2 rfl
      rw [join_cons_cons, dropHereMarks_written hs (by simp), hpoint, ih hlater]
      exact (join_cons_cons ..).symm

theorem written_infix_join {s : Step} {steps : List Step} (h : s ∈ steps) :
    s.written <:+: join steps :=
  Text.infix_intercalate (List.mem_map_of_mem h)

theorem infix_written (content : Text) : content <:+: (bracketed content).written :=
  ⟨['['], [']'], rfl⟩

theorem unmarked_eq_self_iff {s : Step} :
    s.unmarked = s ↔ ∀ content, s = bracketed content → ¬"./".toList <:+: content := by
  cases s with
  | plain n => simp [unmarked]
  | bracketed content => simp [unmarked, dropHereMarks_eq_self_iff]

theorem map_unmarked_of_free {steps : List Step}
    (h : ∀ content, bracketed content ∈ steps → ¬"./".toList <:+: content) :
    steps.map unmarked = steps := by
  rw [List.map_congr_left (g := id), List.map_id]
  intro s hs
  apply unmarked_eq_self_iff.mpr
  rintro content rfl
  exact h content hs

theorem hasInfix_join {steps : List Step} (h : ∀ s ∈ steps, s.Readable) :
    (join steps).hasInfix "./".toList = true ↔
      ∃ content, bracketed content ∈ steps ∧ "./".toList <:+: content := by
  rw [Text.hasInfix_iff]
  constructor
  · intro hmark
    apply Classical.byContradiction
    intro hnone
    have hsteps : steps.map unmarked = steps :=
      map_unmarked_of_free fun content hcontent hin => hnone ⟨content, hcontent, hin⟩
    have hjoin := dropHereMarks_join h
    rw [hsteps] at hjoin
    exact dropHereMarks_eq_self_iff.mp hjoin hmark
  · rintro ⟨content, hcontent, hmark⟩
    exact hmark.trans ((infix_written content).trans (written_infix_join hcontent))

theorem Readable.unmarked {s : Step} (h : s.Readable) : s.unmarked.Readable := by
  cases s with
  | plain n => exact h
  | bracketed content => exact fun hmem => h ((dropHereMarks_sublist content).subset hmem)

theorem isThis_unmarked (d : Dialect) (s : Step) : s.unmarked.isThis d = s.isThis d := by
  cases s <;> rfl

/-- The steps without the marks in their brackets. A name of which nothing is left is none. -/
def kept (steps : List Step) : List Step :=
  (steps.map unmarked).filter (! ·.name.isEmpty)

/-- A path with brackets is read without its marks. -/
theorem ofText_join {steps : List Step} (h : ∀ s ∈ steps, s.Readable) {content : Text}
    (hcontent : bracketed content ∈ steps) {advanced : Bool} (hadvanced : advanced = true) :
    ofText advanced (dropHereMarks (join steps)) = kept steps := by
  have hunmarked : ∀ u ∈ steps.map unmarked, u.Readable := by
    intro u hu
    obtain ⟨s, hs, rfl⟩ := List.mem_map.mp hu
    exact (h s hs).unmarked
  have hclosing : ']' ∈ join (steps.map unmarked) := by
    have hwritten := written_infix_join (List.mem_map_of_mem (f := unmarked) hcontent)
    exact hwritten.subset (by simp [unmarked, written])
  rw [dropHereMarks_join h, ofText, if_pos (by simp [hadvanced, hclosing]),
    ofGlyphs_join hunmarked, kept]

theorem map_name_kept_iff {steps : List Step} (h : ∀ s ∈ steps, s.name ≠ []) :
    (kept steps).map name = steps.map name ↔
      ∀ content, bracketed content ∈ steps → ¬"./".toList <:+: content := by
  constructor
  · intro hnames content hcontent
    have hlength : (kept steps).length = (steps.map unmarked).length := by
      simpa using congrArg List.length hnames
    have hall : kept steps = steps.map unmarked := List.filter_sublist.eq_of_length hlength
    rw [hall, List.map_map] at hnames
    have hname := List.map_inj_left.mp hnames _ hcontent
    exact dropHereMarks_eq_self_iff.mp hname
  · intro hfree
    have hall : ∀ s ∈ steps, (!s.name.isEmpty) = true := by simpa using h
    rw [kept, map_unmarked_of_free hfree, List.filter_eq_self.mpr hall]

end Step

end TemplateTag
