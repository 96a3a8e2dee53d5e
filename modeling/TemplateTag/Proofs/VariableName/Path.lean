import TemplateTag.Proofs.Argument.Steps
import TemplateTag.Proofs.VariableName.Exposed
import TemplateTag.Proofs.VariableName.Normalized
import TemplateTag.Proofs.VariableName.Tests
/-!
# The check of well-formed paths

A path of plain and bracketed steps has no fault, with two exceptions (`fault?_path_iff`): a mark `./`
in front of a bracketed step is taken for a segment that comes to a bracket, and special characters in
brackets are exposed by a line break.
-/
namespace TemplateTag

/-- What a path starts with: steps up, if any, or the mark of the current context. -/
inductive PathStart where
  | up (levels : Nat)
  | here
  deriving DecidableEq

def PathStart.text : PathStart → Text
  | up levels => stepsUp levels
  | here => "./".toList

namespace Step

/-- A plain name needs no protection, and the content of brackets does not end before them. -/
def WellFormed : Step → Prop
  | plain name => name ≠ [] ∧ ∀ c ∈ name, c ∉ "./[]".toList ∧ VariableName.needsProtection c = false
  | bracketed content => content ≠ [] ∧ ']' ∉ content

/-- The step with its content masked. -/
def masked : Step → Step
  | plain name => plain name
  | bracketed _ => bracketed "XXX".toList

/-- Steps as they stand behind another one. -/
def behind (steps : List Step) : Text :=
  steps.flatMap fun s => '.' :: s.written

theorem behind_cons (s : Step) (steps : List Step) :
    behind (s :: steps) = '.' :: (s.written ++ behind steps) := rfl

theorem join_cons (s : Step) (steps : List Step) : join (s :: steps) = s.written ++ behind steps := by
  induction steps generalizing s with
  | nil => rw [join_singleton, behind, List.flatMap_nil, List.append_nil]
  | cons u steps ih => rw [join_cons_cons, ih, behind_cons]

theorem head?_behind (steps : List Step) : ∀ c ∈ (behind steps).head?, c = '.' := by
  cases steps with
  | nil => simp [behind]
  | cons s steps => simp [behind_cons]

theorem WellFormed.readable {s : Step} (h : s.WellFormed) : s.Readable := by
  cases s with
  | plain name => exact ⟨h.1, fun c hc => (h.2 c hc).1⟩
  | bracketed content => exact h.2

theorem written_eq_append_cons {content before after : Text} {c : Char}
    (h : (bracketed content).written = before ++ c :: after) :
    c = ']' ∧ after = [] ∨ c ∈ '[' :: content ∧ ']' ∈ after := by
  have hsplit : ('[' :: content) ++ [']'] = before ++ c :: after := h
  rcases List.append_eq_append_iff.mp hsplit with ⟨u, -, hu⟩ | ⟨u, hu, hafter⟩
  · cases u with
    | nil =>
      obtain ⟨rfl, rfl⟩ := List.cons.inj hu
      exact .inl ⟨rfl, rfl⟩
    | cons d u => simp at hu
  · cases u with
    | nil =>
      obtain ⟨rfl, rfl⟩ := List.cons.inj hafter
      exact .inl ⟨rfl, rfl⟩
    | cons d u =>
      obtain ⟨rfl, rfl⟩ := List.cons.inj hafter
      exact .inr ⟨by simp [hu], by simp⟩

end Step

namespace VariableName

theorem anySuffix_append {test : Text → Bool} {s t : Text}
    (h : ∀ before c after, s = before ++ c :: after → test (c :: (after ++ t)) = false) :
    Text.anySuffix test (s ++ t) = Text.anySuffix test t := by
  induction s with
  | nil => rfl
  | cons c s ih =>
    rw [List.cons_append, Text.anySuffix, h [] c s rfl, Bool.false_or]
    exact ih fun before d after hs => h (c :: before) d after (by rw [hs]; rfl)

theorem runThen_append {p q : Char → Bool} {s t : Text} (hs : ∀ c ∈ s, q c = false)
    (ht : ∀ c ∈ t.head?, p c = false ∧ q c = false) : runThen p q (s ++ t) = false := by
  have hstart {u : Text} (hu : ∀ c ∈ u.head?, q c = false) : Text.startsIn q u = false := by
    cases u with
    | nil => rfl
    | cons c u => exact hu c rfl
  induction s with
  | nil =>
    cases t with
    | nil => rfl
    | cons c t => simp [runThen, (ht c rfl).1]
  | cons c s ih =>
    have hnext : Text.startsIn q (s ++ t) = false := by
      apply hstart
      intro d hd
      cases s with
      | nil => exact (ht d hd).2
      | cons e s => exact hs d (by simp_all)
    rw [List.cons_append, runThen, hnext, ih fun d hd => hs d (List.mem_cons_of_mem c hd)]
    simp

section Tests

variable {s : Step} {steps : List Step} {t : Text}

theorem not_isBracket_of_plain {name : Text} (h : (Step.plain name).WellFormed) :
    ∀ c ∈ name, isBracket c = false := by
  intro c hc
  have hmarks := (h.2 c hc).1
  simp only [String.reduceToList, List.mem_cons, not_or] at hmarks
  simp [isBracket, hmarks]

theorem not_mem_plain {name : Text} (h : (Step.plain name).WellFormed) {b : Char}
    (hb : isBracket b = true) : b ∉ name := by
  intro hmem
  rw [not_isBracket_of_plain h b hmem] at hb
  cases hb

theorem unclosed_written (h : s.WellFormed) (ht : ∀ c ∈ t.head?, c = '.') :
    unclosed (s.written ++ t) = unclosed t := by
  apply anySuffix_append
  intro before c after hs
  simp only
  cases s with
  | plain name => rw [not_isBracket_of_plain h c (by simp [show name = _ from hs])]; rfl
  | bracketed content =>
    rcases Step.written_eq_append_cons hs with ⟨-, rfl⟩ | ⟨-, hclosing⟩
    · cases t with
      | nil => simp
      | cons d t => simp [ht d rfl]
    · have hall : (after ++ t).all (fun d => d != ']' && d != '.') = false := by
        rw [List.all_eq_false]
        exact ⟨']', List.mem_append_left t hclosing, by decide⟩
      rw [hall, Bool.and_false]

theorem closedInside_written (h : s.WellFormed) (ht : ∀ c ∈ t.head?, c = '.') :
    closedInside (s.written ++ t) = closedInside t := by
  apply anySuffix_append
  intro before c after hs
  simp only
  by_cases hc : c = ']'
  · subst hc
    cases s with
    | plain name => exact absurd (by simp [show name = _ from hs]) (not_mem_plain h (b := ']') rfl)
    | bracketed content =>
      rcases Step.written_eq_append_cons hs with ⟨-, rfl⟩ | ⟨hmem, -⟩
      · cases t with
        | nil => rfl
        | cons d t => simp [runThen, ht d rfl]
      · exact absurd hmem (by simpa using h.2)
  · simp [hc]

theorem unopened_written (h : s.WellFormed) (ht : ∀ c ∈ t.head?, c = '.') :
    unopened (s.written ++ t) = false := by
  cases s with
  | plain name =>
    apply runThen_append (not_isBracket_of_plain h)
    intro c hc
    obtain rfl := ht c hc
    exact ⟨rfl, rfl⟩
  | bracketed content => rfl

theorem masked_written (h : s.WellFormed) (t : Text) :
    masked (s.written ++ t) = s.masked.written ++ masked t := by
  cases s with
  | plain name => exact masked_append (not_mem_plain h rfl) t
  | bracketed content =>
    rw [Step.written, List.cons_append, List.append_assoc]
    exact masked_bracketed h.1 h.2 t

theorem runThen_masked_written (h : s.WellFormed) (ht : ∀ c ∈ t.head?, c = '.') :
    runThen (fun d => !isBracket d && d != '.') (· == '[') (s.masked.written ++ masked t) =
      false := by
  cases s with
  | plain name =>
    apply runThen_append
    · intro c hc
      exact beq_false_of_ne (ne_of_mem_of_not_mem hc (not_mem_plain h rfl))
    · cases t with
      | nil => simp [masked, Glyph.ofText, Glyph.scan]
      | cons c t =>
        obtain rfl := ht c rfl
        rw [masked_cons (by decide)]
        rintro c ⟨⟩
        exact ⟨rfl, rfl⟩
  | bracketed content => rfl

theorem openedInside_point (t : Text) : openedInside ('.' :: t) =
    (runThen (fun d => !isBracket d && d != '.') (· == '[') t || openedInside t) := rfl

theorem openedInside_written (h : s.WellFormed) (t : Text) :
    openedInside (s.masked.written ++ t) = openedInside t := by
  apply anySuffix_append
  intro before c after hs
  have hc : c ≠ '.' := by
    rintro rfl
    cases s with
    | plain name =>
      have hpoint : '.' ∈ name := by simp [show name = _ from hs]
      exact (h.2 '.' hpoint).1 (by simp)
    | bracketed content =>
      have hpoint : '.' ∈ "[XXX]".toList := by
        rw [show "[XXX]".toList = _ from hs]
        simp
      exact absurd hpoint (by decide)
  simp [hc]

/-- What a test says of the steps behind another one, told from what it says of each. -/
theorem any_behind (test : Text → Bool) (f : Step → Bool) (hnil : test [] = false)
    (hstep : ∀ s steps, s.WellFormed → (∀ u ∈ steps, u.WellFormed) →
      test ('.' :: (s.written ++ Step.behind steps)) = (f s || test (Step.behind steps)))
    (h : ∀ s ∈ steps, s.WellFormed) : test (Step.behind steps) = steps.any f := by
  induction steps with
  | nil => exact hnil
  | cons s steps ih =>
    obtain ⟨hs, hsteps⟩ := List.forall_mem_cons.mp h
    rw [Step.behind_cons, hstep s steps hs hsteps, ih hsteps, List.any_cons]

theorem unclosed_behind (h : ∀ s ∈ steps, s.WellFormed) : unclosed (Step.behind steps) = false := by
  rw [any_behind unclosed (fun _ => false) rfl ?_ h]
  · simp
  · intro s steps hs _
    exact unclosed_written hs (Step.head?_behind steps)

theorem closedInside_behind (h : ∀ s ∈ steps, s.WellFormed) :
    closedInside (Step.behind steps) = false := by
  rw [any_behind closedInside (fun _ => false) rfl ?_ h]
  · simp
  · intro s steps hs _
    exact closedInside_written hs (Step.head?_behind steps)

theorem openedInside_behind (h : ∀ s ∈ steps, s.WellFormed) :
    openedInside (masked (Step.behind steps)) = false := by
  rw [any_behind (fun t => openedInside (masked t)) (fun _ => false) rfl ?_ h]
  · simp
  · intro s steps hs _
    rw [masked_cons (by decide), masked_written hs, openedInside_point,
      runThen_masked_written hs (Step.head?_behind steps), openedInside_written hs]

end Tests

section Exposed

variable {steps : List Step}

/-- Special characters that the step leaves outside brackets. -/
def exposes : Step → Bool
  | .plain _ => false
  | .bracketed content => (uncovered content).any needsProtection

theorem any_exposed_point (t : Text) :
    (exposed ('.' :: t)).any needsProtection = (exposed t).any needsProtection := by
  have hpoint : exposed ('.' :: t) = '.' :: exposed t := exposed_append (s := ['.']) (by decide) t
  rw [hpoint]
  rfl

theorem any_exposed_plain {name : Text} (h : (Step.plain name).WellFormed) (t : Text) :
    (exposed (name ++ t)).any needsProtection = (exposed t).any needsProtection := by
  have hsafe : name.any needsProtection = false := by
    rw [List.any_eq_false]
    intro c hc
    simp [(h.2 c hc).2]
  rw [exposed_append (not_mem_plain h rfl), List.any_append, hsafe, Bool.false_or]

theorem any_exposed_behind_of_closing (h : ∀ s ∈ steps, s.WellFormed) {content rest : Text}
    (hsteps : Step.behind steps = content ++ ']' :: rest) (hclosing : ']' ∉ content)
    (hline : '\n' ∉ content) :
    (exposed (Step.behind steps)).any needsProtection = (exposed rest).any needsProtection := by
  induction steps generalizing content with
  | nil => simp [Step.behind] at hsteps
  | cons s steps ih =>
    obtain ⟨hs, hlater⟩ := List.forall_mem_cons.mp h
    rw [Step.behind_cons] at hsteps ⊢
    cases s with
    | plain name =>
      have hfront : ']' ∉ '.' :: name := by
        rw [List.mem_cons, not_or]
        exact ⟨by decide, not_mem_plain hs rfl⟩
      obtain ⟨between, rfl, hrest⟩ := Text.exists_append_of_not_mem hfront hsteps
      rw [any_exposed_point, Step.written, any_exposed_plain hs]
      exact ih hlater hrest (fun hmem => hclosing (List.mem_append_right _ hmem))
        fun hmem => hline (List.mem_append_right _ hmem)
    | bracketed name =>
      have hfront : ']' ∉ '.' :: '[' :: name := by simpa using hs.2
      have hsplit : ('.' :: '[' :: name) ++ ']' :: Step.behind steps = content ++ ']' :: rest := by
        simpa [Step.written] using hsteps
      obtain ⟨between, rfl, hrest⟩ := Text.exists_append_of_not_mem hfront hsplit
      obtain rfl : Step.behind steps = rest := by
        cases between with
        | nil => exact (List.cons.inj hrest).2
        | cons c between =>
          obtain ⟨rfl, -⟩ := List.cons.inj hrest
          simp at hclosing
      have hname : '\n' ∉ name := fun hmem => hline (by simp [hmem])
      rw [any_exposed_point, Step.written, List.cons_append, List.append_assoc]
      exact congrArg (·.any needsProtection) (exposed_bracketed hs.1 hs.2 hname _)

theorem any_exposed_empty_bracketed (h : ∀ s ∈ steps, s.WellFormed) :
    (exposed ('[' :: ']' :: Step.behind steps)).any needsProtection =
      (exposed (Step.behind steps)).any needsProtection := by
  cases hopens : Glyph.closesOnLine (']' :: Step.behind steps) with
  | false =>
    have hclose : exposed (']' :: Step.behind steps) = ']' :: exposed (Step.behind steps) :=
      exposed_append (s := [']']) (by decide) _
    rw [exposed_unopened hopens, hclose]
    rfl
  | true =>
    -- The first closing bracket is taken into the content, which then ends with a later step.
    obtain ⟨-, content, rest, hsteps, hclosing, hline⟩ := closesOnLine_cons_iff.mp hopens
    rw [any_exposed_behind_of_closing h hsteps hclosing hline, hsteps, exposed_eq,
      Glyph.ofText_opened hclosing (hsteps ▸ hopens)]
    rfl

theorem any_exposed_written {s : Step} (hs : s.WellFormed) (h : ∀ u ∈ steps, u.WellFormed) :
    (exposed (s.written ++ Step.behind steps)).any needsProtection =
      (exposes s || (exposed (Step.behind steps)).any needsProtection) := by
  cases s with
  | plain name => exact any_exposed_plain hs _
  | bracketed content =>
    rw [Step.written, List.cons_append, List.append_assoc]
    exact any_exposed_bracketed (any_exposed_empty_bracketed h) hs.1 hs.2

theorem any_exposed_behind (h : ∀ s ∈ steps, s.WellFormed) :
    (exposed (Step.behind steps)).any needsProtection = steps.any exposes := by
  apply any_behind (fun t => (exposed t).any needsProtection) exposes rfl _ h
  intro s steps hs hsteps
  rw [any_exposed_point, any_exposed_written hs hsteps]

end Exposed

section Path

variable (start : PathStart) {s : Step} {steps : List Step} {tag : Text}

theorem mem_start : ∀ c ∈ start.text, c = '.' ∨ c = '/' := by
  cases start with
  | up levels => exact mem_stepsUp
  | here => simp [PathStart.text]

theorem anySuffix_start {test : Text → Bool}
    (h : ∀ u, test ('.' :: u) = false ∧ test ('/' :: u) = false) (t : Text) :
    Text.anySuffix test (start.text ++ t) = Text.anySuffix test t := by
  apply anySuffix_append
  intro before c after hstart
  rcases mem_start start c (by simp [hstart]) with rfl | rfl
  · exact (h _).1
  · exact (h _).2

theorem unopened_path (hs : s.WellFormed) :
    unopened (start.text ++ (s.written ++ Step.behind steps)) = false := by
  cases start with
  | up levels =>
    cases levels with
    | zero => exact unopened_written hs (Step.head?_behind steps)
    | succ levels => rw [PathStart.text, stepsUp_succ]; rfl
  | here => rfl

theorem unclosed_path (hs : s.WellFormed) (h : ∀ u ∈ steps, u.WellFormed) :
    unclosed (start.text ++ (s.written ++ Step.behind steps)) = false := by
  rw [unclosed, anySuffix_start start fun _ => ⟨rfl, rfl⟩]
  exact (unclosed_written hs (Step.head?_behind steps)).trans (unclosed_behind h)

theorem closedInside_path (hs : s.WellFormed) (h : ∀ u ∈ steps, u.WellFormed) :
    closedInside (start.text ++ (s.written ++ Step.behind steps)) = false := by
  rw [closedInside, anySuffix_start start fun _ => ⟨rfl, rfl⟩]
  exact (closedInside_written hs (Step.head?_behind steps)).trans (closedInside_behind h)

theorem openedInside_path (hs : s.WellFormed) (h : ∀ u ∈ steps, u.WellFormed) :
    openedInside (normalized (start.text ++ (s.written ++ Step.behind steps))) = true ↔
      start = .here ∧ ∃ content, s = .bracketed content := by
  have hinside : openedInside (s.masked.written ++ masked (Step.behind steps)) = false :=
    (openedInside_written hs _).trans (openedInside_behind h)
  rw [normalized_eq]
  cases start with
  | up levels =>
    have hpoint : ¬"../".toList <+: s.written ++ Step.behind steps := by
      rintro ⟨rest, hrest⟩
      obtain ⟨c, t, ht⟩ := List.exists_cons_of_ne_nil (Step.written_ne_nil hs.readable)
      rw [ht] at hrest
      obtain ⟨rfl, -⟩ := List.cons.inj hrest
      exact (Step.head?_written hs.readable '.' (by rw [ht]; rfl)).1 rfl
    rw [PathStart.text, dropParents_stepsUp_append levels hpoint, masked_written hs, hinside]
    simp
  | here =>
    -- The mark stays, and its slash is a text between the point and what the first step starts with.
    have hdrop (t : Text) : dropParents ('.' :: '/' :: t) = '.' :: '/' :: t := by
      rw [dropParents]
      rintro rest heq
      simp at heq
    have hrun := runThen_masked_written hs (Step.head?_behind steps)
    have hmark : openedInside ('/' :: (s.masked.written ++ masked (Step.behind steps))) = false :=
      hinside
    simp only [PathStart.text, String.reduceToList, List.cons_append, List.nil_append, hdrop]
    rw [masked_cons (by decide), masked_cons (by decide), masked_written hs, openedInside_point,
      runThen, hrun, hmark]
    cases s with
    | plain name =>
      obtain ⟨c, name, rfl⟩ := List.exists_cons_of_ne_nil hs.1
      have hc : (c == '[') = false :=
        beq_false_of_ne (ne_of_mem_of_not_mem (List.mem_cons_self ..) (not_mem_plain hs rfl))
      simp [Step.masked, Step.written, Text.startsIn, hc]
    | bracketed content => simp [Step.masked, Step.written, isBracket, Text.startsIn]

theorem any_exposed_path (hs : s.WellFormed) (h : ∀ u ∈ steps, u.WellFormed) :
    (exposed (start.text ++ (s.written ++ Step.behind steps))).any needsProtection =
      (s :: steps).any exposes := by
  have hopen : '[' ∉ start.text := fun hmem => absurd (mem_start start '[' hmem) (by decide)
  have hsafe : start.text.any needsProtection = false := by
    rw [List.any_eq_false]
    intro c hc
    rcases mem_start start c hc with rfl | rfl <;> decide
  rw [exposed_append hopen, List.any_append, hsafe, Bool.false_or, any_exposed_written hs h,
    any_exposed_behind h, List.any_cons]

/-- What is wrong with a well-formed path, if anything. -/
theorem fault?_path_eq_none_iff (hs : s.WellFormed) (h : ∀ u ∈ steps, u.WellFormed) :
    fault? (start.text ++ Step.join (s :: steps)) = none ↔
      ¬(start = .here ∧ ∃ content, s = .bracketed content) ∧ (s :: steps).any exposes = false := by
  have hopened := not_congr (openedInside_path start hs h)
  rw [Bool.not_eq_true] at hopened
  rw [Step.join_cons, fault?_eq_none_iff, unopened_path start hs, unclosed_path start hs h,
    closedInside_path start hs h, any_exposed_path start hs h, hopened]
  simp

/-- A well-formed path is accepted just if no mark stands in front of a bracketed step and no special
character stands where a line break leaves it uncovered. -/
theorem diagnostics_check_path (hne : steps ≠ []) (h : ∀ s ∈ steps, s.WellFormed) :
    (check (start.text ++ Step.join steps) tag).report.diagnostics = [] ↔
      ¬(start = .here ∧ ∃ content, steps.head? = some (.bracketed content)) ∧
        ∀ content, .bracketed content ∈ steps → ∀ c ∈ uncovered content, needsProtection c = false := by
  obtain ⟨s, steps, rfl⟩ := List.exists_cons_of_ne_nil hne
  obtain ⟨hs, hsteps⟩ := List.forall_mem_cons.mp h
  rw [diagnostics_check_eq_nil, fault?_path_eq_none_iff start hs hsteps, List.head?_cons]
  simp only [Option.some.injEq]
  refine and_congr Iff.rfl ?_
  rw [List.any_eq_false]
  constructor
  · intro hcovered content hcontent c hc
    have hsafe := hcovered _ hcontent
    simp only [exposes, List.any_eq_true, not_exists, not_and] at hsafe
    simpa using hsafe c hc
  · intro hcovered u hu
    cases u with
    | plain name => simp [exposes]
    | bracketed content => simpa [exposes] using hcovered content hu

theorem diagnostics_check_path_parents :
    let steps : List Step := [.bracketed "e f".toList, .plain "a".toList, .bracketed "g\n[h!.".toList]
    (steps ≠ [] ∧ ∀ s ∈ steps, s.WellFormed) ∧
      "../[e f].a.[g\n[h!.]".toList = (PathStart.up 1).text ++ Step.join steps ∧
      (check "../[e f].a.[g\n[h!.]".toList []).report.diagnostics = [] := by
  intro steps
  have h : ∀ s ∈ steps, s.WellFormed := by
    simp [steps, Step.WellFormed, needsProtection]
  have hcovered : ∀ content, .bracketed content ∈ steps →
      ∀ c ∈ uncovered content, needsProtection c = false := by
    simp [steps, uncovered, needsProtection]
  exact ⟨⟨by simp [steps], h⟩, by decide,
    (diagnostics_check_path (.up 1) (by simp [steps]) h).mpr ⟨by simp, hcovered⟩⟩

/-- A line break exposes the content of the brackets that it is in, and a mark is taken for the text
in front of a bracket. -/
theorem diagnostics_check_path_rejected :
    ((Step.bracketed "a\n!".toList).WellFormed ∧
      "[a\n!]".toList = (PathStart.up 0).text ++ Step.join [.bracketed "a\n!".toList] ∧
      (check "[a\n!]".toList []).report.diagnostics =
        [.malformedName "[a\n!]".toList [] .unprotected]) ∧
    (Step.bracketed "a b".toList).WellFormed ∧
      "./[a b]".toList = PathStart.here.text ++ Step.join [.bracketed "a b".toList] ∧
      (check "./[a b]".toList []).report.diagnostics =
        [.malformedName "./[a b]".toList [] .brackets] := by
  refine ⟨⟨⟨by decide, by decide⟩, by decide, by decide⟩, ⟨by decide, by decide⟩, by decide, by decide⟩

end Path

end VariableName

end TemplateTag
