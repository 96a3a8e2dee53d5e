import TemplateTag.Context
import TemplateTag.Proofs.Argument.Path
import TemplateTag.Proofs.Text.Fields
/-!
# Paths and their texts

The text of a path is read as that path if its names need no brackets and the text is no literal.
-/
namespace TemplateTag

/-- A text that can stand between the points of a path without brackets around it. -/
structure PathPart (t : Text) : Prop where
  ne_nil : t ≠ []
  ink : ∀ c ∈ t, isBlank c = false
  unmarked : ∀ c ∈ t, c ∉ "./[]".toList

/-- A name that needs no brackets. -/
structure BareName (d : Dialect) (name : Text) : Prop extends PathPart name where
  ne_this : d.implicitThis = true → name ≠ "this".toList

instance (t : Text) : Decidable (PathPart t) :=
  decidable_of_iff
    (t ≠ [] ∧ t.all (fun c => !isBlank c && !"./[]".toList.contains c) = true) <| by
    simp only [List.all_eq_true, Bool.and_eq_true, Bool.not_eq_true', List.contains_eq_mem,
      decide_eq_false_iff_not]
    exact ⟨fun h => ⟨h.1, fun c hc => (h.2 c hc).1, fun c hc => (h.2 c hc).2⟩,
      fun h => ⟨h.ne_nil, fun c hc => ⟨h.ink c hc, h.unmarked c hc⟩⟩⟩

instance (d : Dialect) (name : Text) : Decidable (BareName d name) :=
  decidable_of_iff (PathPart name ∧ (d.implicitThis = true → name ≠ "this".toList))
    ⟨fun h => ⟨h.1, h.2⟩, fun h => ⟨h.toPathPart, h.ne_this⟩⟩

/-- The steps of a path that can be told from its text: names without brackets, and in front of them
perhaps the current context if the dialect has a word for it. -/
inductive LegiblePath (d : Dialect) : Nat → List Segment → Prop
  | ofNames (levels : Nat) {names : List Text} (bare : ∀ name ∈ names, BareName d name) :
    LegiblePath d levels (names.map .name)
  | fromHere {names : List Text} (bare : ∀ name ∈ names, BareName d name) (ne_nil : names ≠ [])
    (implicitThis : d.implicitThis = true) : LegiblePath d 0 (.current :: names.map .name)

theorem Argument.text_path (levels : Nat) (segments : List Segment) :
    (path levels segments).text =
      stepsUp levels ++ ['.'].intercalate (segments.map Segment.text) := rfl

theorem Segment.map_text_name (names : List Text) : (names.map name).map text = names := by
  rw [List.map_map]
  exact List.map_id names

theorem forall_pathPart_this {parts : List Text} (h : ∀ t ∈ parts, PathPart t) :
    ∀ t ∈ "this".toList :: parts, PathPart t :=
  List.forall_mem_cons.mpr ⟨by decide, h⟩

section Parts

variable {parts : List Text} (h : ∀ t ∈ parts, PathPart t)

include h

theorem not_mem_intercalate {c : Char} (hc : c ∈ "/[]".toList) : c ∉ ['.'].intercalate parts := by
  intro hmem
  rcases Text.mem_intercalate hmem with rfl | ⟨t, ht, hct⟩
  · revert hc
    decide
  · exact (h t ht).unmarked c hct (List.mem_cons_of_mem '.' hc)

theorem ofText_intercalate (advanced : Bool) :
    Step.ofText advanced (dropHereMarks (['.'].intercalate parts)) = parts.map .plain := by
  have hslash : '/' ∉ ['.'].intercalate parts := not_mem_intercalate h (by simp)
  have hbracket : ']' ∉ ['.'].intercalate parts := not_mem_intercalate h (by simp)
  have hfields : Text.fields Step.isSeparator (['.'].intercalate parts) = parts := by
    apply Text.fields_intercalate rfl
    intro t ht
    refine ⟨(h t ht).ne_nil, fun c hc => ?_⟩
    have hmarks := (h t ht).unmarked c hc
    simp only [String.reduceToList, List.mem_cons, not_or] at hmarks
    simp [Step.isSeparator, hmarks.1, hmarks.2.1]
  rw [dropHereMarks_of_not_mem (by simp) hslash, Step.ofText, if_neg (by simp [hbracket]), hfields]

theorem hasInfix_intercalate : Text.hasInfix (['.'].intercalate parts) "./".toList = false := by
  rw [Bool.eq_false_iff]
  intro hmark
  have hslash : '/' ∉ ['.'].intercalate parts := not_mem_intercalate h (by simp)
  exact hslash ((Text.hasInfix_iff.mp hmark).subset (by simp))

theorem readPath_intercalate (d : Dialect) (head : Bool) (levels : Nat) :
    let rest := ['.'].intercalate parts
    readPath d head (stepsUp levels ++ rest) =
      { value := pathArgument d head levels rest
        report :=
          { diagnostics :=
              if 0 < levels && !d.parentAccess then [.parentAccess (stepsUp levels ++ rest)] else []
            usage := { parents := levels } } } := by
  apply readPath_stepsUp
  · apply Text.head?_intercalate
    intro t ht
    refine ⟨(h t ht).ne_nil, fun c hc => ⟨(h t ht).ink c (List.mem_of_head? hc), ?_⟩⟩
    rintro rfl
    exact (h t ht).unmarked '.' (List.mem_of_head? hc) (by simp)
  · apply Text.getLast?_intercalate
    exact fun t ht => ⟨(h t ht).ne_nil, fun c hc => (h t ht).ink c (List.mem_of_getLast? hc)⟩

end Parts

section Names

variable {d : Dialect} {names : List Text} (h : ∀ name ∈ names, BareName d name)

include h

theorem isThis_of_bareNames : ∀ s ∈ names.map Step.plain, s.isThis d = false := by
  intro s hs
  obtain ⟨name, hname, rfl⟩ := List.mem_map.mp hs
  cases hthis : d.implicitThis with
  | false => simp [Step.isThis, hthis]
  | true => simpa [Step.isThis, hthis] using (h name hname).ne_this hthis

theorem filter_isThis_of_bareNames :
    ((names.map Step.plain).filter (! ·.isThis d)).map Step.name = names := by
  have hall : ∀ s ∈ names.map Step.plain, (!s.isThis d) = true := by
    intro s hs
    rw [isThis_of_bareNames h s hs, Bool.not_false]
  rw [List.filter_eq_self.mpr hall, List.map_map]
  exact List.map_id names

theorem pathArgument_names (hd : d.stringParams = false) (head : Bool) (levels : Nat) :
    pathArgument d head levels (['.'].intercalate names) = .path levels (names.map .name) := by
  have hparts : ∀ t ∈ names, PathPart t := fun t ht => (h t ht).toPathPart
  rw [pathArgument_of_steps hd head levels (ofText_intercalate hparts _)
    (filter_isThis_of_bareNames h), if_neg]
  rintro ⟨hmark | ⟨s, hs, hthis⟩, -⟩
  · rw [hasInfix_intercalate hparts] at hmark
    cases hmark
  · simp [isThis_of_bareNames h s hs] at hthis

theorem pathArgument_this (hd : d.stringParams = false) (hne : names ≠ [])
    (hthis : d.implicitThis = true) (head : Bool) :
    pathArgument d head 0 (['.'].intercalate ("this".toList :: names)) =
      .path 0 (.current :: names.map .name) := by
  have hparts := forall_pathPart_this fun t ht => (h t ht).toPathPart
  have hstep : (Step.plain "this".toList).isThis d = true := by simp [Step.isThis, hthis]
  have hnames : ((("this".toList :: names).map Step.plain).filter (! ·.isThis d)).map Step.name =
      names := by
    rw [List.map_cons, List.filter_cons_of_neg (by rw [hstep]; decide), filter_isThis_of_bareNames h]
  rw [pathArgument_of_steps hd head 0 (ofText_intercalate hparts _) hnames, if_pos]
  exact ⟨.inr ⟨_, List.mem_cons_self .., hstep⟩, rfl, hne⟩

end Names

namespace Context

/-- A path that can be told from its text is read from it, unless the text is a literal. The steps up
are counted, and reported once where the dialect does not let a path leave its context. -/
theorem readValue_text (ctx : Context) (hd : ctx.settings.dialect.stringParams = false)
    (position : Position) {levels : Nat} {segments : List Segment}
    (h : LegiblePath ctx.settings.dialect levels segments)
    (hliteral : literal? (Argument.path levels segments).text = none) :
    let path := Argument.path levels segments
    ctx.readValue position path.text =
      (path, { ctx with
        report := ctx.report ++
          { diagnostics :=
              if 0 < levels && !ctx.settings.dialect.parentAccess then [.parentAccess path.text]
              else []
            usage := { parents := levels } } }) := by
  intro path
  rw [readValue, absorb, TemplateTag.readValue, hliteral]
  cases h with
  | ofNames levels bare =>
    have hparts := fun t ht => (bare t ht).toPathPart
    simp only [path, Argument.text_path, Segment.map_text_name, readPath_intercalate hparts,
      pathArgument_names bare hd]
  | fromHere bare ne_nil implicitThis =>
    have hparts := forall_pathPart_this fun t ht => (bare t ht).toPathPart
    simp only [path, Argument.text_path, List.map_cons, Segment.map_text_name, Segment.text,
      readPath_intercalate hparts, pathArgument_this bare hd ne_nil implicitThis]

theorem readValue_text_parents :
    let ctx := ofDialect { Dialect.handlebars with parentAccess := false }
    let up := Argument.path 2 [.name "a-b".toList, .name "\"7".toList]
    let here := Argument.path 0 [.current, .name "true".toList]
    (literal? up.text = none ∧ (ctx.readValue .named up.text).1 = up ∧
      (ctx.readValue .named up.text).2.report =
        { diagnostics := [.parentAccess "../../a-b.\"7".toList], usage := { parents := 2 } }) ∧
    literal? here.text = none ∧ ctx.readValue (.positional 1) here.text = (here, ctx) := by
  intro ctx up here
  have hnames : ∀ name ∈ ["a-b".toList, "\"7".toList], BareName ctx.settings.dialect name :=
    List.forall_mem_cons.mpr ⟨by decide, List.forall_mem_singleton.mpr (by decide)⟩
  have hname : ∀ name ∈ ["true".toList], BareName ctx.settings.dialect name :=
    List.forall_mem_singleton.mpr (by decide)
  have hliteral : literal? up.text = none ∧ literal? here.text = none := by decide +kernel
  have hreadUp := readValue_text ctx rfl .named (.ofNames 2 hnames) hliteral.1
  have hreadHere := readValue_text ctx rfl (.positional 1) (.fromHere hname (by simp) rfl) hliteral.2
  exact ⟨⟨hliteral.1, congrArg Prod.fst hreadUp, congrArg (·.2.report) hreadUp⟩, hliteral.2,
    hreadHere⟩

end Context

end TemplateTag
