import TemplateTag.Context
import TemplateTag.Proofs.Reading.Syntax
/-!
# The history of a context

A context is used in a sequence of operations. What a tag is read as, and what reading it adds to
the report, is settled by the settings at that moment and not by the operations before.
-/
namespace TemplateTag

theorem Delimiters.isAllowed_iff {left right : Text} :
    isAllowed left right = true ↔ '=' ∉ left ∧ '=' ∉ right := by
  simp [isAllowed]

namespace Context

/-- The contexts read the same arguments from a tag. -/
structure SameSyntax (ctx ctx' : Context) : Prop where
  dialect : ctx.settings.dialect.SameSyntax ctx'.settings.dialect
  maxDepth : ctx.settings.maxDepth = ctx'.settings.maxDepth

/-- The contexts may differ in their delimiters and in their reports only. -/
structure SameSettings (ctx ctx' : Context) : Prop where
  dialect : ctx.settings.dialect = ctx'.settings.dialect
  rawBlockActive : ctx.settings.rawBlockActive = ctx'.settings.rawBlockActive
  hasHelper : ∀ name, ctx.settings.hasHelper name = ctx'.settings.hasHelper name
  maxDepth : ctx.settings.maxDepth = ctx'.settings.maxDepth

theorem SameSettings.settings_eq {ctx ctx' : Context} (h : ctx.SameSettings ctx') :
    ctx.settings = ctx'.settings := by
  obtain ⟨⟨d, active, helpers, depth⟩, _, _⟩ := ctx
  obtain ⟨⟨d', active', helpers', depth'⟩, _, _⟩ := ctx'
  obtain ⟨rfl, rfl, hhelpers, rfl⟩ := h
  obtain rfl : helpers = helpers' := funext hhelpers
  rfl

/-- What can be done with a context. -/
inductive Operation where
  | setDialect (d : Dialect)
  | setRawBlockActive (active : Bool)
  | setHelpers (hasHelper : Text → Bool)
  | setMaxDepth (maxDepth : Nat)
  | setDelimiters (left right : Text)
  | split (tag source : Text)
  | readValue (position : Position) (source : Text)
  | readSubexpression (source : Text)
  | readTag (tag : Tag)

/-- Does the operation leave the settings as they are? -/
def Operation.keepsSettings : Operation → Bool
  | setDialect _ | setRawBlockActive _ | setHelpers _ | setMaxDepth _ => false
  | _ => true

def perform (ctx : Context) : Operation → Context
  | .setDialect d => ctx.withDialect d
  | .setRawBlockActive active => ctx.withRawBlockActive active
  | .setHelpers hasHelper => ctx.withHelpers hasHelper
  | .setMaxDepth maxDepth => ctx.withMaxDepth maxDepth
  | .setDelimiters left right => ctx.withDelimiters left right
  | .split tag source => (ctx.split tag source).2
  | .readValue position source => (ctx.readValue position source).2
  | .readSubexpression source => (ctx.readSubexpression source).2
  | .readTag tag => (ctx.readTag tag).2

def performAll (ctx : Context) (ops : List Operation) : Context :=
  ops.foldl perform ctx

theorem settings_absorb {α : Type} (ctx : Context) (reading : Reported α) :
    (ctx.absorb reading).2.settings = ctx.settings := rfl

theorem settings_withDelimiters (ctx : Context) (left right : Text) :
    (ctx.withDelimiters left right).settings = ctx.settings := by
  rw [withDelimiters]
  split
  · rfl
  · exact settings_absorb ctx _

theorem settings_perform (ctx : Context) {op : Operation} (h : op.keepsSettings = true) :
    (ctx.perform op).settings = ctx.settings := by
  cases op with
  | setDialect | setRawBlockActive | setHelpers | setMaxDepth => cases h
  | setDelimiters left right => exact settings_withDelimiters ctx left right
  | split | readValue | readSubexpression | readTag => exact settings_absorb ctx _

theorem settings_performAll (ctx : Context) {ops : List Operation}
    (h : ∀ op ∈ ops, op.keepsSettings = true) : (ctx.performAll ops).settings = ctx.settings := by
  induction ops generalizing ctx with
  | nil => rfl
  | cons op ops ih =>
    have hop := settings_perform ctx (h op (by simp))
    have hops := ih (ctx.perform op) fun op' hop' => h op' (by simp [hop'])
    exact hops.trans hop

/-- Both contexts read the tag as the same and add the same to their reports. -/
def ReadsLike (ctx ctx' : Context) (tag : Tag) : Prop :=
  (ctx.readTag tag).1 = (ctx'.readTag tag).1 ∧
    ∃ added : Report,
      (ctx.readTag tag).2 = { ctx with report := ctx.report ++ added } ∧
      (ctx'.readTag tag).2 = { ctx' with report := ctx'.report ++ added }

theorem readsLike_of_settings_eq {ctx ctx' : Context} (h : ctx.settings = ctx'.settings)
    (tag : Tag) : ctx.ReadsLike ctx' tag := by
  refine ⟨?_, (ctx.settings.readTag tag).report, rfl, ?_⟩
  · rw [readTag, readTag, h]
    rfl
  · rw [h]
    rfl

/-- Four features of the dialect and the depth limit settle the arguments of a tag. The settings
settle all that comes of reading it, whatever was done with the context before. -/
theorem readTag_determined {ctx ctx' : Context} (h : ctx.SameSyntax ctx') (tag : Tag) :
    (ctx.readTag tag).1.args = (ctx'.readTag tag).1.args ∧
      (ctx.SameSettings ctx' → ctx.ReadsLike ctx' tag) ∧
      ∀ ops : List Operation, (∀ op ∈ ops, op.keepsSettings = true) →
        ctx.ReadsLike (ctx.performAll ops) tag := by
  refine ⟨?_, ?_, ?_⟩
  · exact Settings.readTag_args h.dialect h.maxDepth tag
  · intro hsettings
    exact readsLike_of_settings_eq hsettings.settings_eq tag
  · intro ops hops
    exact readsLike_of_settings_eq (settings_performAll ctx hops).symm tag

/-- A context without history and one with a registered helper, another dialect and a report. -/
theorem readTag_determined_handlebars :
    let fresh := ofDialect .handlebars
    let used := (((ofDialect { Dialect.handlebars with noEscape := true }).withHelpers
      fun name => name == "b".toList).readTag (Tag.ofInner "(b".toList)).2
    fresh.SameSyntax used ∧
      (fresh.readTag (Tag.ofInner "a (b c)".toList)).1.args =
        (used.readTag (Tag.ofInner "a (b c)".toList)).1.args := by
  intro fresh used
  have h : fresh.SameSyntax used := ⟨⟨rfl, rfl, rfl, rfl⟩, rfl⟩
  exact ⟨h, (readTag_determined h _).1⟩

end Context

end TemplateTag
