import TemplateTag.Proofs.Context.History
import TemplateTag.Proofs.Session.Basic
import TemplateTag.Proofs.Tag.Occurrence
/-!
# What holds in every session

A session is a new state and the operations that are performed on it. Between two operations it is
nothing but a context (`perform_ofContext`): no subexpression is entered, and there are delimiters.
-/
namespace TemplateTag

namespace Context

/-- Does the operation only read? -/
def Operation.isReading : Operation → Bool
  | split _ _ | readValue _ _ | readSubexpression _ | readTag _ => true
  | _ => false

theorem perform_of_isReading (ctx : Context) {op : Operation} (h : op.isReading = true) :
    ∃ added : Report, ctx.perform op = { ctx with report := ctx.report ++ added } := by
  cases op with
  | split | readValue | readSubexpression | readTag => exact ⟨_, rfl⟩
  | _ => cases h

theorem withDelimiters_of_not_isAllowed (ctx : Context) {left right : Text}
    (h : ¬Delimiters.isAllowed left right = true) :
    ctx.withDelimiters left right =
      { ctx with report := ctx.report ++ { diagnostics := [.equalsInDelimiter left right] } } := by
  rw [withDelimiters, if_neg h]
  rfl

theorem exists_report_perform (ctx : Context) (op : Operation) :
    ∃ added : Report, (ctx.perform op).report = ctx.report ++ added := by
  cases op with
  | setDialect | setRawBlockActive | setHelpers | setMaxDepth =>
    exact ⟨{}, (Report.append_empty ctx.report).symm⟩
  | setDelimiters left right =>
    by_cases h : Delimiters.isAllowed left right = true
    · refine ⟨{}, ?_⟩
      rw [perform, withDelimiters, if_pos h, Report.append_empty]
    · rw [perform, withDelimiters_of_not_isAllowed ctx h]
      exact ⟨_, rfl⟩
  | split | readValue | readSubexpression | readTag => exact ⟨_, rfl⟩

theorem delimiters_perform (ctx : Context) {op : Operation}
    (h : ∀ left right, op = .setDelimiters left right → ¬Delimiters.isAllowed left right = true) :
    (ctx.perform op).delimiters = ctx.delimiters := by
  cases op with
  | setDelimiters left right => rw [perform, withDelimiters_of_not_isAllowed ctx (h left right rfl)]
  | _ => rfl

end Context

namespace Session

open Context (Operation)

def perform (s : Session) : Operation → Session
  | .setDialect d => { s with settings := { s.settings with dialect := d } }
  | .setRawBlockActive active => { s with settings := { s.settings with rawBlockActive := active } }
  | .setHelpers hasHelper => { s with settings := { s.settings with hasHelper := hasHelper } }
  | .setMaxDepth maxDepth => { s with settings := { s.settings with maxDepth := maxDepth } }
  | .setDelimiters left right => ((setDelimiters left right).run s).2
  | .split tag source => ((rawArguments tag source).run s).2
  | .readValue position source => ((readValue position source).run s).2
  | .readSubexpression source => ((readSubexpression source).run s).2
  | .readTag tag => ((readTag tag).run s).2

def performAll (s : Session) (ops : List Operation) : Session :=
  ops.foldl perform s

/-- A state without delimiters. -/
def blank (d : Dialect) : Session where
  settings := { dialect := d }

/-- The operation that sets the usual delimiters. -/
def setUsual : Operation :=
  .setDelimiters "\x7b\x7b".toList "\x7d\x7d".toList

/-- A new session, with the usual delimiters. -/
def new (d : Dialect) : Session :=
  (blank d).perform setUsual

/-- The state of a session between two operations. -/
def ofContext (ctx : Context) : Session where
  settings := ctx.settings
  delimiters? := some ctx.delimiters
  report := ctx.report

theorem new_eq (d : Dialect) : new d = ofContext (.ofDialect d) := rfl

theorem Reads.run_ofContext {α : Type} {ctx : Context} {m : Action α} {x : Reported α}
    (h : Reads (ofContext ctx) m x (ofContext ctx)) :
    m.run (ofContext ctx) = ((ctx.absorb x).1, ofContext (ctx.absorb x).2) :=
  h ctx.report

theorem setDelimiters_ofContext (ctx : Context) (left right : Text) :
    ((setDelimiters left right).run (ofContext ctx)).2 =
      ofContext (ctx.withDelimiters left right) := by
  rw [setDelimiters, Context.withDelimiters]
  by_cases h : Delimiters.isAllowed left right = true
  · rw [if_pos h, if_pos h]
    rfl
  · rw [if_neg h, if_neg h]
    rfl

/-- An operation leaves as many subexpressions entered as it found, and so does to the state what it
does to the context. -/
theorem perform_ofContext (ctx : Context) (op : Operation) :
    (ofContext ctx).perform op = ofContext (ctx.perform op) := by
  cases op with
  | setDialect | setRawBlockActive | setHelpers | setMaxDepth => rfl
  | setDelimiters left right => exact setDelimiters_ofContext ctx left right
  | split tag source => rfl
  | readValue position source => rfl
  | readSubexpression source =>
    have hread := (reads_readCall (ofContext ctx) source).map (Argument.subexpression source)
    exact congrArg Prod.snd hread.run_ofContext
  | readTag tag =>
    have hread := reads_readTag (s := ofContext ctx) rfl tag
    exact congrArg Prod.snd hread.run_ofContext

theorem performAll_ofContext (ctx : Context) (ops : List Operation) :
    (ofContext ctx).performAll ops = ofContext (ctx.performAll ops) := by
  induction ops generalizing ctx with
  | nil => rfl
  | cons op ops ih =>
    have hrest := ih (ctx.perform op)
    rw [← perform_ofContext] at hrest
    exact hrest

theorem performAll_append_singleton (s : Session) (ops : List Operation) (op : Operation) :
    s.performAll (ops ++ [op]) = (s.performAll ops).perform op := by
  rw [performAll, List.foldl_append]
  rfl

/-- The delimiters are those of the last pair without an equals sign, built with the settings at
that time: these are the texts of the pair, and the braces inside them are as many as the template
allowed then. -/
def HasLastDelimiters (d : Dialect) (ops : List Operation) : Prop :=
  ∃ before left right after,
    setUsual :: ops = before ++ .setDelimiters left right :: after ∧
      ('=' ∉ left ∧ '=' ∉ right) ∧
      (∀ left' right', .setDelimiters left' right' ∈ after → '=' ∈ left' ∨ '=' ∈ right') ∧
      let settings := ((blank d).performAll before).settings
      ∃ delimiters, ((new d).performAll ops).delimiters? = some delimiters ∧
        delimiters = .build settings.dialect.rawBlocks settings.rawBlockActive left right ∧
        delimiters.left = left ∧ delimiters.right = right ∧
        (delimiters.fewestBraces, delimiters.mostBraces) =
          if settings.rawBlockActive then (2, 2)
          else if settings.dialect.rawBlocks then (0, 2)
          else (0, 1)

theorem hasLastDelimiters_nil (d : Dialect) : HasLastDelimiters d [] :=
  ⟨[], "\x7b\x7b".toList, "\x7d\x7d".toList, [], rfl, by decide, nofun, _, rfl, rfl, rfl, rfl,
    Delimiters.braces_build ..⟩

theorem HasLastDelimiters.append_singleton {d : Dialect} {ops : List Operation}
    (h : HasLastDelimiters d ops) (op : Operation) : HasLastDelimiters d (ops ++ [op]) := by
  have hops := performAll_ofContext (.ofDialect d) ops
  rw [← new_eq] at hops
  by_cases hset : ∃ left right, op = .setDelimiters left right ∧
      Delimiters.isAllowed left right = true
  · obtain ⟨left, right, rfl, hallowed⟩ := hset
    refine ⟨setUsual :: ops, left, right, [], rfl, Delimiters.isAllowed_iff.mp hallowed, nofun,
      _, ?_, rfl, rfl, rfl, Delimiters.braces_build ..⟩
    have hbefore : (blank d).performAll (setUsual :: ops) = (new d).performAll ops := rfl
    rw [performAll_append_singleton, hbefore, hops, perform_ofContext, Context.perform,
      Context.withDelimiters, if_pos hallowed]
    rfl
  · have hrefused : ∀ left right, op = .setDelimiters left right →
        ¬Delimiters.isAllowed left right = true :=
      fun left right hop hallowed => hset ⟨left, right, hop, hallowed⟩
    obtain ⟨before, left, right, after, hsplit, hallowed, hafter, last, hlast, hfields⟩ := h
    refine ⟨before, left, right, after ++ [op], ?_, hallowed, ?_, last, ?_, hfields⟩
    · rw [← List.cons_append, hsplit, List.append_assoc, List.cons_append]
    · intro left' right' hmem
      rcases List.mem_append.mp hmem with hmem | hmem
      · exact hafter left' right' hmem
      · have hnot := hrefused left' right' (List.mem_singleton.mp hmem).symm
        rw [Delimiters.isAllowed_iff] at hnot
        by_cases hleft : '=' ∈ left'
        · exact .inl hleft
        · exact .inr (Decidable.byContradiction fun hright => hnot ⟨hleft, hright⟩)
    · rw [performAll_append_singleton, ← hlast, hops, perform_ofContext]
      exact congrArg some (Context.delimiters_perform _ hrefused)

theorem HasLastDelimiters.append {d : Dialect} {ops : List Operation}
    (h : HasLastDelimiters d ops) (more : List Operation) : HasLastDelimiters d (ops ++ more) := by
  induction more generalizing ops with
  | nil => rwa [List.append_nil]
  | cons op more ih =>
    rw [List.append_cons]
    exact ih (h.append_singleton op)

/-- Between two operations nothing is entered and the delimiters are those that were set last. An
operation adds to the report and takes nothing out of it. Reading changes nothing else, and neither
does a pair of delimiters that is refused. -/
theorem new_performAll (d : Dialect) (ops : List Operation) :
    let s := (new d).performAll ops
    s = ofContext ((Context.ofDialect d).performAll ops) ∧
      s.entered = 0 ∧
      HasLastDelimiters d ops ∧
      ∀ op : Operation,
        s.report.diagnostics <+: (s.perform op).report.diagnostics ∧
          s.report.usage.parents ≤ (s.perform op).report.usage.parents ∧
          s.report.usage.subexpressions ≤ (s.perform op).report.usage.subexpressions ∧
          (op.isReading = true →
            ∃ added : Report, s.perform op = { s with report := s.report ++ added }) ∧
          ∀ left right, op = .setDelimiters left right → '=' ∈ left ∨ '=' ∈ right →
            s.perform op =
              { s with report := s.report ++ { diagnostics := [.equalsInDelimiter left right] } } := by
  intro s
  have hs : s = ofContext ((Context.ofDialect d).performAll ops) := by
    rw [← performAll_ofContext, ← new_eq]
  refine ⟨hs, by rw [hs]; rfl, (hasLastDelimiters_nil d).append ops, ?_⟩
  rw [hs]
  generalize (Context.ofDialect d).performAll ops = ctx
  intro op
  rw [perform_ofContext]
  obtain ⟨added, hadded⟩ := ctx.exists_report_perform op
  have hreport : (ofContext (ctx.perform op)).report = (ofContext ctx).report ++ added := hadded
  rw [hreport]
  refine ⟨List.prefix_append _ _, Nat.le_add_right _ _, Nat.le_add_right _ _, ?_, ?_⟩
  · intro hreading
    obtain ⟨added, hperform⟩ := ctx.perform_of_isReading hreading
    rw [hperform]
    exact ⟨added, rfl⟩
  · rintro left right rfl hequals
    have hrefused : ¬Delimiters.isAllowed left right = true := by
      rw [Delimiters.isAllowed_iff]
      exact fun hboth => hequals.elim hboth.1 hboth.2
    rw [Context.perform, Context.withDelimiters_of_not_isAllowed ctx hrefused]
    rfl

/-- A pair that is refused, after a call that is nested too deep. -/
theorem new_performAll_refused :
    ∃ s, s = (new .handlebars).performAll [.setMaxDepth 0, .readTag (Tag.ofInner "f (g x)".toList)] ∧
      s.perform (.setDelimiters "<%=".toList "%>".toList) =
        { s with
          report := s.report ++
            { diagnostics := [.equalsInDelimiter "<%=".toList "%>".toList] } } := by
  obtain ⟨-, -, -, hstep⟩ :=
    new_performAll .handlebars [.setMaxDepth 0, .readTag (Tag.ofInner "f (g x)".toList)]
  refine ⟨_, rfl, ?_⟩
  generalize (new .handlebars).performAll _ = s at hstep ⊢
  obtain ⟨-, -, -, -, hrefused⟩ := hstep (.setDelimiters "<%=".toList "%>".toList)
  exact hrefused _ _ rfl (.inl (by decide))

end Session

end TemplateTag
