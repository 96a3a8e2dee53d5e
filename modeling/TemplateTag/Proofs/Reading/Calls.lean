import TemplateTag.Context
import TemplateTag.Proofs.Arguments
import TemplateTag.Proofs.Reading.Syntax
/-!
# The calls in an argument list

A raw argument makes at most one call (`callOf?`), and every call in a list was made by a raw
argument. A call that stays within the depth limit is read as the same with more room, so that each
call in a list can be read again from its own text.
-/
namespace TemplateTag

/-- A call stands somewhere in the list, on its own or among the arguments of another one. -/
inductive HasCall : ArgumentList → Text → ArgumentList → Prop where
  | here {l args : ArgumentList} {source : Text} (h : .subexpression source args ∈ l.values) :
    HasCall l source args
  | within {l inner args : ArgumentList} {outer source : Text}
    (h : .subexpression outer inner ∈ l.values) (hinner : HasCall inner source args) :
    HasCall l source args

/-- The argument that is placed, unless block parameters are. -/
def Placement.argument? : Placement → Option Argument
  | positional a => some a
  | named _ a => some a
  | blockParams _ => none

theorem mem_values_place {l : ArgumentList} {p : Placement} {a : Argument}
    (h : a ∈ (l.place p).values) : a ∈ l.values ∨ p.argument? = some a := by
  cases p with
  | positional b => exact (Arguments.mem_values_push h).imp_right fun hab => by rw [hab]; rfl
  | named name b => exact (Arguments.mem_values_bindName h).imp_right fun hab => by rw [hab]; rfl
  | blockParams names => exact .inl h

theorem mem_values_placePartial {tag : Tag} {raws : List Text} {l : ArgumentList}
    {source : Text} {args : ArgumentList}
    (h : .subexpression source args ∈ (tag.placePartial raws l).values) :
    .subexpression source args ∈ l.values := by
  rw [Tag.placePartial] at h
  split at h
  · exact h
  · rcases List.mem_append.mp h with h | h
    · rcases List.mem_or_eq_of_mem_set h with h | h
      · exact List.mem_append_left _ h
      · cases h
    · exact List.mem_append_right _ h

/-- The argument is no call. -/
def Argument.IsPlain (a : Argument) : Prop :=
  ∀ source args, a ≠ .subexpression source args

theorem isPlain_pathArgument (d : Dialect) (head : Bool) (levels : Nat) (rest : Text) :
    (pathArgument d head levels rest).IsPlain := by
  intro source args h
  simp only [pathArgument] at h
  split at h
  · cases h
  · split at h <;> cases h

theorem isPlain_readValue (d : Dialect) (position : Position) (source : Text) :
    (readValue d position source).value.IsPlain := by
  rw [readValue]
  split
  · next kind text _ =>
    intro source args h
    cases kind <;> cases hhead : position.isHead <;> rw [hhead] at h <;> cases h
  · rw [readPath_eq]
    exact isPlain_pathArgument d _ _ _

namespace Report

/-- No call in the report was nested too deep. -/
def InDepth (r : Report) : Prop :=
  ∀ limit tag, .tooDeep limit tag ∉ r.diagnostics

theorem inDepth_append {r s : Report} : (r ++ s).InDepth ↔ r.InDepth ∧ s.InDepth := by
  simp only [InDepth, diagnostics_append, List.mem_append, not_or, forall_and]

/-- Nothing in the report comes from a call. -/
structure CallFree (r : Report) : Prop where
  inDepth : r.InDepth
  subexpressions : r.usage.subexpressions = 0

theorem callFree_empty : CallFree {} :=
  ⟨fun _ _ => List.not_mem_nil, rfl⟩

theorem CallFree.append {r s : Report} (hr : r.CallFree) (hs : s.CallFree) : (r ++ s).CallFree :=
  ⟨inDepth_append.mpr ⟨hr.inDepth, hs.inDepth⟩, by simp [hr.subexpressions, hs.subexpressions]⟩

end Report

theorem callFree_readValue (d : Dialect) (position : Position) (source : Text) :
    (readValue d position source).report.CallFree := by
  rw [readValue]
  split
  · exact Report.callFree_empty
  · rw [readPath_eq]
    refine ⟨fun limit tag h => ?_, rfl⟩
    split at h <;> simp at h

theorem callFree_readCheckedValue (d : Dialect) (tag : Text) (position : Position) (raw : Text) :
    (readCheckedValue d tag position raw).report.CallFree := by
  have hcheck : (VariableName.check raw tag).report.CallFree := by
    rw [VariableName.check]
    split
    · exact ⟨fun limit t h => by simp at h, rfl⟩
    · exact Report.callFree_empty
  rw [readCheckedValue]
  split
  · exact hcheck.append (callFree_readValue d position raw)
  · exact callFree_readValue d position raw

theorem callFree_bindingCheck (d : Dialect) (tag : Text) (b : Binding) :
    (b.check d tag).report.CallFree := by
  rw [Binding.check]
  split
  · exact ⟨fun limit t h => by simp at h, rfl⟩
  · exact Report.callFree_empty

/-- The call that a raw argument makes: the argument itself, or the value that it binds a name
to. -/
def callOf? (d : Dialect) (raw : Text) : Option Text :=
  if isCall raw then some raw
  else if (blockParamNames? raw).isSome then none
  else ((if d.namedArguments then Binding.ofText? raw else none).map Binding.value).filter isCall

/-- The place of an argument with a name or without one. -/
def Placement.under : Option Text → Argument → Placement
  | none, a => positional a
  | some name, a => named name a

theorem Placement.argument?_under (name : Option Text) (a : Argument) :
    (under name a).argument? = some a := by
  cases name <;> rfl

theorem readArgument_of_callOf?_eq_none {d : Dialect} {raw : Text} (h : callOf? d raw = none)
    (tag : Text) (index : Nat) :
    ∃ reading : Reported Placement, reading.report.CallFree ∧
      (∀ a, reading.value.argument? = some a → a.IsPlain) ∧
      ∀ call, readArgument d call tag index raw = reading := by
  have hplain (position : Position) (value : Text) :
      (readCheckedValue d tag position value).value.IsPlain := by
    rw [readCheckedValue_value]
    exact isPlain_readValue d position value
  rw [callOf?] at h
  split at h
  · cases h
  · next hraw =>
    simp only [readArgument, if_neg hraw]
    cases hnames : blockParamNames? raw with
    | some names =>
      refine ⟨pure (.blockParams names), Report.callFree_empty, ?_, fun call => rfl⟩
      intro a ha
      cases ha
    | none =>
      rw [hnames] at h
      cases hbinding : if d.namedArguments then Binding.ofText? raw else none with
      | none =>
        refine ⟨.positional <$> readCheckedValue d tag (.positional index) raw, ?_, ?_,
          fun call => rfl⟩
        · rw [Reported.report_map]
          exact callFree_readCheckedValue d tag _ raw
        · rintro a ⟨⟩
          exact hplain _ raw
      | some b =>
        rw [hbinding] at h
        have hvalue : ¬isCall b.value = true := by simpa using h
        refine ⟨b.check d tag >>= fun _ => .named b.key <$> readCheckedValue d tag .named b.value,
          ?_, ?_, fun call => by simp only [if_neg hvalue]⟩
        · rw [Reported.report_bind, Reported.report_map]
          exact (callFree_bindingCheck d tag b).append (callFree_readCheckedValue d tag _ b.value)
        · rintro a ⟨⟩
          exact hplain _ b.value

theorem readArgument_of_callOf?_eq_some {d : Dialect} {raw source : Text}
    (h : callOf? d raw = some source) (tag : Text) :
    ∃ check : Reported Unit, ∃ name : Option Text, check.report.CallFree ∧
      ∀ index call, readArgument d call tag index raw =
        check >>= fun _ => (fun args => .under name (.subexpression source args)) <$>
          call source := by
  rw [callOf?] at h
  split at h
  · next hraw =>
    cases h
    refine ⟨pure (), none, Report.callFree_empty, fun index call => ?_⟩
    rw [readArgument, if_pos hraw, pure_bind]
    rfl
  · next hraw =>
    simp only [readArgument, if_neg hraw]
    cases hnames : blockParamNames? raw with
    | some names =>
      rw [hnames] at h
      cases h
    | none =>
      rw [hnames] at h
      cases hbinding : if d.namedArguments then Binding.ofText? raw else none with
      | none =>
        rw [hbinding] at h
        cases h
      | some b =>
        rw [hbinding] at h
        obtain ⟨rfl, hvalue⟩ : b.value = source ∧ isCall source = true := by simpa using h
        refine ⟨b.check d tag, some b.key, callFree_bindingCheck d tag b, fun index call => ?_⟩
        simp only [if_pos hvalue, Functor.map_map]
        rfl

section Stable

variable {d : Dialect} {call call' : Text → Reported ArgumentList} {tag : Text}

theorem readArgument_stable
    (hcall : ∀ source, (call source).report.InDepth → (call' source).value = (call source).value)
    {index : Nat} {raw : Text} (h : (readArgument d call tag index raw).report.InDepth) :
    (readArgument d call' tag index raw).value = (readArgument d call tag index raw).value := by
  cases hsource : callOf? d raw with
  | none =>
    obtain ⟨reading, -, -, hreading⟩ := readArgument_of_callOf?_eq_none hsource tag index
    rw [hreading, hreading]
  | some source =>
    obtain ⟨check, name, -, hreading⟩ := readArgument_of_callOf?_eq_some hsource tag
    rw [hreading] at h
    have hdepth := (Report.inDepth_append.mp h).2
    rw [Reported.report_map] at hdepth
    rw [hreading, hreading, Reported.value_bind, Reported.value_bind, Reported.value_map,
      Reported.value_map, hcall source hdepth]

/-- Calls that agree within the depth limit lead to the same arguments. -/
theorem readArguments_stable
    (hcall : ∀ source, (call source).report.InDepth → (call' source).value = (call source).value)
    {l : ArgumentList} {raws : List Text}
    (h : (readArguments d call tag l raws).report.InDepth) :
    (readArguments d call' tag l raws).value = (readArguments d call tag l raws).value := by
  induction raws generalizing l with
  | nil => rfl
  | cons raw raws ih =>
    rw [readArguments] at h ⊢
    have hparts := Report.inDepth_append.mp h
    rw [readArguments, Reported.value_bind, Reported.value_bind,
      readArgument_stable hcall hparts.1, ih hparts.2]

theorem of_mem_values_readArguments {l : ArgumentList} {raws : List Text} {source : Text}
    {args : ArgumentList}
    (hmem : .subexpression source args ∈ (readArguments d call tag l raws).value.values) :
    .subexpression source args ∈ l.values ∨
      source ∈ raws.filterMap (callOf? d) ∧ (call source).value = args := by
  induction raws generalizing l with
  | nil => exact .inl hmem
  | cons raw raws ih =>
    rw [readArguments] at hmem
    rcases ih hmem with hplaced | ⟨hraws, hvalue⟩
    · rcases mem_values_place hplaced with hold | hnew
      · exact .inl hold
      · refine .inr ?_
        cases hsource : callOf? d raw with
        | none =>
          obtain ⟨reading, -, hplain, hreading⟩ :=
            readArgument_of_callOf?_eq_none hsource tag l.positional.length
          rw [hreading] at hnew
          exact absurd rfl (hplain _ hnew source args)
        | some source' =>
          obtain ⟨check, name, -, hreading⟩ := readArgument_of_callOf?_eq_some hsource tag
          rw [hreading, Reported.value_bind, Reported.value_map, Placement.argument?_under] at hnew
          cases hnew
          exact ⟨List.mem_filterMap.mpr ⟨raw, List.mem_cons_self .., hsource⟩, rfl⟩
    · refine .inr ⟨?_, hvalue⟩
      obtain ⟨raw', hraw', hsource⟩ := List.mem_filterMap.mp hraws
      exact List.mem_filterMap.mpr ⟨raw', List.mem_cons_of_mem raw hraw', hsource⟩

theorem inDepth_call {l : ArgumentList} {raws : List Text}
    (h : (readArguments d call tag l raws).report.InDepth) {source : Text}
    (hsource : source ∈ raws.filterMap (callOf? d)) : (call source).report.InDepth := by
  induction raws generalizing l with
  | nil => cases hsource
  | cons raw raws ih =>
    rw [readArguments] at h
    have hparts := Report.inDepth_append.mp h
    obtain ⟨raw', hraw', hcall⟩ := List.mem_filterMap.mp hsource
    rcases List.mem_cons.mp hraw' with rfl | hraw'
    · obtain ⟨check, name, -, hreading⟩ := readArgument_of_callOf?_eq_some hcall tag
      rw [hreading] at hparts
      have hdepth := (Report.inDepth_append.mp hparts.1).2
      rwa [Reported.report_map] at hdepth
    · exact ih hparts.2 (List.mem_filterMap.mpr ⟨raw', hraw', hcall⟩)

end Stable

namespace Settings

variable {s : Settings}

theorem not_inDepth_readCall_zero (source : Text) : ¬(s.readCall 0 source).report.InDepth := by
  intro h
  exact h s.maxDepth (Text.lastBytes 32 source) (by simp [readCall])

theorem inDepth_readArguments_of_readCall {room : Nat} {source : Text}
    (h : (s.readCall (room + 1) source).report.InDepth) :
    (readArguments s.dialect (s.readCall room) source {}
      (rawArguments s.dialect true source (callBody source)).value).report.InDepth := by
  simp only [readCall, Reported.report_bind, Report.inDepth_append] at h
  exact h.2.2.1

/-- More room changes nothing for a call that has enough. -/
theorem readCall_stable {room room' : Nat} (hle : room ≤ room') {source : Text}
    (h : (s.readCall room source).report.InDepth) :
    (s.readCall room' source).value = (s.readCall room source).value := by
  induction room generalizing room' source with
  | zero => exact absurd h (not_inDepth_readCall_zero source)
  | succ room ih =>
    obtain ⟨room', rfl⟩ : ∃ k, room' = k + 1 := ⟨room' - 1, by omega⟩
    simp only [readCall, Reported.value_bind, Reported.value_pure]
    apply readArguments_stable
    · intro source' h'
      exact ih (by omega) h'
    · exact inDepth_readArguments_of_readCall h

/-- The calls that stand on their own in the list are those of the reading with so much room. -/
def ReadsCalls (s : Settings) (room : Nat) (l : ArgumentList) : Prop :=
  ∀ source args, .subexpression source args ∈ l.values →
    (s.readCall room source).value = args ∧ (s.readCall room source).report.InDepth

theorem readsCalls_readArguments {room : Nat} {tag : Text} {raws : List Text}
    (h : (readArguments s.dialect (s.readCall room) tag {} raws).report.InDepth) :
    s.ReadsCalls room (readArguments s.dialect (s.readCall room) tag {} raws).value := by
  intro source args hmem
  rcases of_mem_values_readArguments hmem with hnone | ⟨hsource, hvalue⟩
  · cases hnone
  · exact ⟨hvalue, inDepth_call h hsource⟩

theorem readCall_of_hasCall {l : ArgumentList} {source : Text} {args : ArgumentList}
    (h : HasCall l source args) {room : Nat} (hroom : room ≤ s.maxDepth)
    (hl : s.ReadsCalls room l) : (s.readCall s.maxDepth source).value = args := by
  induction h generalizing room with
  | here h =>
    obtain ⟨hvalue, hdepth⟩ := hl _ _ h
    rw [readCall_stable hroom hdepth, hvalue]
  | within h hinner ih =>
    obtain ⟨hvalue, hdepth⟩ := hl _ _ h
    cases room with
    | zero => exact absurd hdepth (not_inDepth_readCall_zero _)
    | succ room =>
      apply ih (Nat.le_of_succ_le hroom)
      rw [← hvalue]
      exact readsCalls_readArguments (inDepth_readArguments_of_readCall hdepth)

end Settings

end TemplateTag
