import TemplateTag.Proofs.Reading.WellFormed
/-!
# Well-formed tags

What can be relied on in the arguments of a tag, whatever the state of the context and however deep
an argument is nested.
-/
namespace TemplateTag.Context

/-- The list of a tag is well formed, and so is the list of every call in it. A call stands in the
tag, and inside the call around it, which is longer. Only a path of one name that is first in its
list, or that names a partial, may have an empty name. -/
theorem readTag_wellFormed (ctx : Context) (tag : Tag) :
    let args := (ctx.readTag tag).1.args
    ListWellFormed ctx.settings.dialect
        (fun i => i = 0 ∨ ∃ name, tag.partial? (ctx.split tag.text tag.inner).1 = some (i, name))
        args ∧
      ∀ source inside, HasCall args source inside →
        ListWellFormed ctx.settings.dialect (· = 0) inside ∧
          IsParenthesized source ∧ source <:+: tag.inner ∧
          ∀ source' inside', .subexpression source' inside' ∈ inside.values →
            source' <:+: source ∧ source'.length < source.length := by
  intro args
  refine ⟨Settings.wellFormed_readTag tag, ?_⟩
  intro source inside h
  obtain ⟨hcall, hpart, room, rfl⟩ := h.of_callsFrom (Settings.callsFrom_readTag tag)
  refine ⟨Settings.wellFormed_readCall room source, isParenthesized_of_isCall hcall, hpart, ?_⟩
  intro source' inside' h'
  cases room with
  | zero => cases h'
  | succ room =>
    obtain ⟨hmade, -⟩ := Settings.callsFrom_readCall room source source' inside' h'
    obtain ⟨-, hbody⟩ := of_mem_callsIn hmade
    exact ⟨hbody.trans (infix_of_isCall hcall), length_lt_of_mem_callsIn hmade⟩

theorem readTag_wellFormed_partial :
    let tag := (Tag.ofInner "\"a b\" k=(f (g this.x))".toList).withOperator ['>']
    ∃ inside, HasCall ((ofDialect .handlebars).readTag tag).1.args "(f (g this.x))".toList inside ∧
      ListWellFormed .handlebars (· = 0) inside ∧ "(f (g this.x))".toList <:+: tag.inner := by
  intro tag
  have hmem : .subexpression "(f (g this.x))".toList
        { positional := [.ofName "f".toList, .subexpression "(g this.x)".toList
          { positional := [.ofName "g".toList, .path 0 [.current, .name "x".toList]] }] } ∈
      ((ofDialect .handlebars).readTag tag).1.args.values :=
    List.mem_of_getElem? (i := 1) rfl
  have hinside := (readTag_wellFormed (ofDialect .handlebars) tag).2 _ _ (.here hmem)
  exact ⟨_, .here hmem, hinside.1, hinside.2.2.1⟩

end TemplateTag.Context
