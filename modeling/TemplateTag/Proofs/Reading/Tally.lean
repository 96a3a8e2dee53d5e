import Mathlib.Algebra.Ring.Nat
import TemplateTag.Proofs.Reading.Bindings
import TemplateTag.Proofs.Reading.Nodes
/-!
# Tallies

A tally counts a thing in the report of a reading, and the same thing in the arguments that come of
it. What shows in the arguments is in the report (`atMost_readTag`). The report only has more than
that if an argument hides something, if a name is bound again, or if the name of a partial takes the
place of an argument.
-/
namespace TemplateTag

/-- The name of an unknown helper that is reported. -/
def Diagnostic.unknownHelper? : Diagnostic → Option Text
  | unknownHelper name => some name
  | _ => none

/-- Something that is counted in reports and in arguments. -/
structure Tally (s : Settings) where
  ofReport : Report → Nat
  /-- The count for an argument on its own, without the arguments inside it. -/
  ofNode : Argument → Nat
  ofReport_empty : ofReport {} = 0
  ofReport_append (r r' : Report) : ofReport (r ++ r') = ofReport r + ofReport r'
  ofReport_diagnostic (d : Diagnostic) (h : d.unknownHelper? = none) :
    ofReport { diagnostics := [d] } = 0
  ofNode_ofName (name : Text) : ofNode (.ofName name) = 0
  ofNode_readValue_le (position : Position) (source : Text) :
    ofNode (readValue s.dialect position source).value ≤
      ofReport (readValue s.dialect position source).report
  ofNode_subexpression (source : Text) (args : ArgumentList) :
    ofNode (.subexpression source args) =
      ofReport Reported.countSubexpression.report + ofReport (s.checkHelper args).report

/-- At most so many, and as many under a condition. -/
structure AtMost (exact : Prop) (a b : Nat) : Prop where
  le : a ≤ b
  eq : exact → a = b

theorem AtMost.mono {exact exact' : Prop} {a b : Nat} (h : AtMost exact a b)
    (himp : exact' → exact) : AtMost exact' a b :=
  ⟨h.le, fun he => h.eq (himp he)⟩

/-- The nodes that a placement puts into a list. -/
def Placement.nodes : Placement → List Argument
  | positional a => a.nodes
  | named _ a => a.nodes
  | blockParams _ => []

/-- The argument in the list that the name of a partial takes the place of. -/
def Tag.displaced? (tag : Tag) (raws : List Text) (l : ArgumentList) : Option Argument :=
  (tag.partial? raws).bind fun slot => l.get? slot.1

/-- The argument that is read from a tag and then gives way to the name of a partial. -/
def Settings.displaced? (s : Settings) (tag : Tag) : Option Argument :=
  let raws := (rawArguments s.dialect false tag.text tag.inner).value
  tag.displaced? raws (readArguments s.dialect (s.readCall s.maxDepth) tag.text {} raws).value

namespace Tally

variable {s : Settings} (T : Tally s)

/-- Every value shows what was counted when it was read. -/
def Exact : Prop :=
  ∀ position source, T.ofNode (readValue s.dialect position source).value =
    T.ofReport (readValue s.dialect position source).report

def total (nodes : List Argument) : Nat :=
  (nodes.map T.ofNode).sum

theorem total_nil : T.total [] = 0 := rfl

theorem total_append (nodes nodes' : List Argument) :
    T.total (nodes ++ nodes') = T.total nodes + T.total nodes' := by
  rw [total, List.map_append, List.sum_append]
  rfl

theorem total_nodes_subexpression (source : Text) (args : ArgumentList) :
    T.total (Argument.subexpression source args).nodes =
      T.ofNode (.subexpression source args) + T.total args.nodes := by
  rw [Argument.nodes, total, List.map_cons, List.sum_cons]
  rfl

theorem atMost_total_assign (name : Text) (a : Argument) (bindings : List (Text × Argument)) :
    AtMost (name ∉ bindings.map Prod.fst)
      (T.total (((Arguments.assign name a bindings).map Prod.snd).flatMap Argument.nodes))
      (T.total ((bindings.map Prod.snd).flatMap Argument.nodes) + T.total a.nodes) := by
  induction bindings with
  | nil => exact ⟨by simp [Arguments.assign, total], by simp [Arguments.assign, total]⟩
  | cons p bindings ih =>
    obtain ⟨other, b⟩ := p
    rw [Arguments.assign]
    by_cases hname : other = name
    · rw [if_pos hname, hname]
      simp only [List.map_cons, List.flatMap_cons, total_append]
      exact ⟨by omega, fun h => absurd (List.mem_cons_self ..) h⟩
    · rw [if_neg hname]
      simp only [List.map_cons, List.flatMap_cons, total_append]
      have hle := ih.le
      refine ⟨by omega, fun h => ?_⟩
      have heq := ih.eq fun hmem => h (List.mem_cons_of_mem _ hmem)
      omega

/-- An argument that is put into a list adds its nodes. It only takes others away if its name is
bound already. -/
theorem atMost_total_place (l : ArgumentList) (p : Placement) :
    AtMost (∀ name, p.name? = some name → name ∉ l.named.map Prod.fst)
      (T.total (l.place p).nodes) (T.total l.nodes + T.total p.nodes) := by
  simp only [Arguments.nodes_eq, Arguments.values, List.flatMap_append, total_append]
  cases p with
  | positional a =>
    simp only [Arguments.place, Arguments.push, List.flatMap_append, total_append,
      List.flatMap_singleton, Placement.nodes]
    exact ⟨by omega, fun _ => by omega⟩
  | blockParams names =>
    simp only [Arguments.place, Arguments.withBlockParams, Placement.nodes, total_nil]
    exact ⟨by omega, fun _ => by omega⟩
  | named name a =>
    have hassign := T.atMost_total_assign name a l.named
    simp only [Arguments.place, Arguments.bindName, Placement.nodes]
    have hle := hassign.le
    refine ⟨by omega, fun h => ?_⟩
    have heq := hassign.eq (h name rfl)
    omega

theorem ofReport_nameCheck (raw tag : Text) : T.ofReport (VariableName.check raw tag).report = 0 := by
  rw [VariableName.check]
  split
  · exact T.ofReport_diagnostic _ rfl
  · exact T.ofReport_empty

theorem ofReport_bindingCheck (d : Dialect) (tag : Text) (b : Binding) :
    T.ofReport (b.check d tag).report = 0 := by
  rw [Binding.check]
  split
  · exact T.ofReport_diagnostic _ rfl
  · exact T.ofReport_empty

theorem ofReport_rawArguments (d : Dialect) (nested : Bool) (tag source : Text) :
    T.ofReport (rawArguments d nested tag source).report = 0 := by
  have hcheck (ending : Ending) : T.ofReport (ending.check nested tag).report = 0 := by
    rw [Ending.check]
    split
    · exact T.ofReport_diagnostic _ rfl
    · exact T.ofReport_empty
  rw [rawArguments]
  split
  · exact T.ofReport_empty
  · split
    · rw [Reported.report_bind, T.ofReport_append, hcheck, Nat.zero_add]
      exact T.ofReport_empty
    · exact T.ofReport_empty

theorem ofReport_readCheckedValue (tag : Text) (position : Position) (raw : Text) :
    T.ofReport (readCheckedValue s.dialect tag position raw).report =
      T.ofReport (readValue s.dialect position raw).report := by
  rw [readCheckedValue]
  split
  · rw [Reported.report_bind, T.ofReport_append, T.ofReport_nameCheck, Nat.zero_add]
  · rfl

theorem atMost_readCheckedValue (tag : Text) (position : Position) (raw : Text) :
    AtMost T.Exact
      (T.total (readCheckedValue s.dialect tag position raw).value.nodes)
      (T.ofReport (readCheckedValue s.dialect tag position raw).report) := by
  have hnodes : (readValue s.dialect position raw).value.nodes =
      [(readValue s.dialect position raw).value] := by
    have hplain := isPlain_readValue s.dialect position raw
    cases hvalue : (readValue s.dialect position raw).value with
    | subexpression source args => exact absurd hvalue (hplain source args)
    | path levels segments => rfl
    | literal kind text => rfl
  rw [T.ofReport_readCheckedValue, readCheckedValue_value, hnodes, total, List.map_singleton,
    List.sum_singleton]
  exact ⟨T.ofNode_readValue_le position raw, fun h => h position raw⟩

/-- No more shows in a call than its report has, and no less under a condition. -/
def Covers (exact : Prop) (call : Text → Reported ArgumentList) (source : Text) : Prop :=
  AtMost exact (T.total (Argument.subexpression source (call source).value).nodes)
    (T.ofReport (call source).report)

section Calls

variable {exact : Prop} {call : Text → Reported ArgumentList} {tag : Text}

theorem atMost_readArgument (hexact : exact → T.Exact) {index : Nat} {raw : Text}
    (hcall : ∀ source, callOf? s.dialect raw = some source → T.Covers exact call source) :
    AtMost exact (T.total (readArgument s.dialect call tag index raw).value.nodes)
      (T.ofReport (readArgument s.dialect call tag index raw).report) := by
  rw [callOf?] at hcall
  rw [readArgument]
  by_cases hraw : isCall raw = true
  · rw [if_pos hraw] at hcall ⊢
    rw [Reported.report_map]
    exact hcall raw rfl
  · rw [if_neg hraw] at hcall ⊢
    cases hnames : blockParamNames? raw with
    | some names =>
      have hzero : T.ofReport {} = 0 := T.ofReport_empty
      exact ⟨Nat.zero_le _, fun _ => hzero.symm⟩
    | none =>
      rw [hnames] at hcall
      cases hbinding : if s.dialect.namedArguments then Binding.ofText? raw else none with
      | none =>
        simp only [Reported.report_map]
        exact (T.atMost_readCheckedValue tag _ raw).mono hexact
      | some b =>
        rw [hbinding] at hcall
        simp only [Reported.report_bind, Reported.report_map, T.ofReport_append,
          T.ofReport_bindingCheck, Nat.zero_add]
        by_cases hvalue : isCall b.value = true
        · rw [if_pos hvalue, Reported.report_map]
          exact hcall b.value (by simp [hvalue])
        · rw [if_neg hvalue]
          exact (T.atMost_readCheckedValue tag _ b.value).mono hexact

theorem atMost_readArguments (hexact : exact → T.Exact) (call : Text → Reported ArgumentList)
    (tag : Text) (l : ArgumentList) (raws : List Text)
    (hcall : ∀ source ∈ raws.filterMap (callOf? s.dialect), T.Covers exact call source)
    (hnames : exact → (l.named.map Prod.fst ++ raws.filterMap (boundName? s.dialect)).Nodup) :
    AtMost exact (T.total (readArguments s.dialect call tag l raws).value.nodes)
      (T.total l.nodes + T.ofReport (readArguments s.dialect call tag l raws).report) := by
  induction raws generalizing l with
  | nil =>
    have hzero : T.ofReport {} = 0 := T.ofReport_empty
    exact ⟨Nat.le_add_right _ _, fun _ => by rw [readArguments, Reported.report_pure, hzero]; rfl⟩
  | cons raw raws ih =>
    rw [readArguments, Reported.value_bind, Reported.report_bind, T.ofReport_append]
    generalize hreading : readArgument s.dialect call tag l.positional.length raw = reading
    have hraw : AtMost exact (T.total reading.value.nodes) (T.ofReport reading.report) := by
      rw [← hreading]
      exact T.atMost_readArgument hexact fun source hsource =>
        hcall source (List.mem_filterMap.mpr ⟨raw, List.mem_cons_self .., hsource⟩)
    have hname : reading.value.name? = boundName? s.dialect raw := by
      rw [← hreading, name?_readArgument]
    have hnew : exact → ∀ name, reading.value.name? = some name →
        name ∉ l.named.map Prod.fst := by
      intro he name hbound hmem
      rw [hname] at hbound
      have hdisjoint := (List.nodup_append.mp (hnames he)).2.2
      rw [List.filterMap_cons_some hbound] at hdisjoint
      exact hdisjoint name hmem name (List.mem_cons_self ..) rfl
    -- A placement loses something only if it binds a name again. So the names that are bound already
    -- and those that are still to come are kept in one list, which `place` does not change.
    have hplace := (T.atMost_total_place l reading.value).mono hnew
    have hcalls : ∀ source ∈ raws.filterMap (callOf? s.dialect), T.Covers exact call source := by
      intro source hsource
      obtain ⟨raw', hraw', hsource⟩ := List.mem_filterMap.mp hsource
      exact hcall source (List.mem_filterMap.mpr ⟨raw', List.mem_cons_of_mem raw hraw', hsource⟩)
    have hkeys : exact → ((l.place reading.value).named.map Prod.fst ++
        raws.filterMap (boundName? s.dialect)).Nodup := by
      intro he
      have hkeys := hnames he
      rw [List.filterMap_cons, ← hname] at hkeys
      rw [keys_place (hnew he), List.append_assoc]
      cases hbound : reading.value.name? <;> simpa [hbound] using hkeys
    have hrest := ih (l.place reading.value) hcalls hkeys
    have hle := hraw.le
    have hle' := hplace.le
    have hle'' := hrest.le
    refine ⟨by omega, fun he => ?_⟩
    have heq := hraw.eq he
    have heq' := hplace.eq he
    have heq'' := hrest.eq he
    omega

end Calls

/-- What shows in a call is in its report. The report has no more than that if every value shows what
was counted, and no name is bound twice in a list of a call that is entered. -/
theorem atMost_readCall {room entered : Nat} (h : room + entered = s.maxDepth) (source : Text) :
    T.Covers
      (T.Exact ∧ BindOnce s.dialect s.maxDepth (callTrace s.dialect room entered source))
      (s.readCall room) source := by
  have hempty := T.ofReport_empty
  induction room generalizing entered source with
  | zero =>
    have hdeep := T.ofReport_diagnostic (.tooDeep s.maxDepth (Text.lastBytes 32 source)) rfl
    have hhelper : T.ofReport (s.checkHelper {}).report = 0 := T.ofReport_empty
    rw [Covers, total_nodes_subexpression, T.ofNode_subexpression]
    simp only [Settings.readCall, Reported.report_bind, Reported.report_pure, T.ofReport_append,
      Reported.report_diagnose, Reported.value_bind, Reported.value_pure]
    rw [hdeep, hhelper, hempty]
    exact ⟨Nat.le_refl _, fun _ => rfl⟩
  | succ room ih =>
    have hexact : T.Exact ∧
        BindOnce s.dialect s.maxDepth (callTrace s.dialect (room + 1) entered source) →
        T.Exact := And.left
    have hargs := T.atMost_readArguments hexact (s.readCall room) source {}
      (rawArguments s.dialect true source (Settings.callBody source)).value
      (fun inside hinside => by
        rw [callsIn_eq] at hinside
        have hroom : room + (entered + 1) = s.maxDepth := by omega
        exact (ih hroom inside).mono fun he => ⟨he.1, fun call hmem => he.2 call
          (List.mem_cons_of_mem _ (List.mem_flatMap.mpr ⟨inside, hinside, hmem⟩))⟩)
      (fun he => by
        rw [namesIn_eq]
        exact he.2 (entered, source) (mem_callTrace_self ..) (by omega))
    rw [Covers, total_nodes_subexpression, T.ofNode_subexpression]
    simp only [Settings.readCall, Reported.report_bind, Reported.report_pure, T.ofReport_append,
      Reported.value_bind, Reported.value_pure, T.ofReport_rawArguments, hempty]
    have hnil : T.total (Arguments.nodes {}) = 0 := rfl
    have hle := hargs.le
    refine ⟨by omega, fun he => ?_⟩
    have heq := hargs.eq he
    omega

private theorem total_set (name : Text) (positional : List Argument) (index : Nat) :
    T.total ((positional.set index (.ofName name)).flatMap Argument.nodes) +
        T.total (positional[index]?.toList.flatMap Argument.nodes) =
      T.total (positional.flatMap Argument.nodes) := by
  have hname : T.total (Argument.ofName name).nodes = 0 := by
    have hnodes : (Argument.ofName name).nodes = [.ofName name] := rfl
    rw [hnodes, total, List.map_singleton, List.sum_singleton, T.ofNode_ofName]
  induction positional generalizing index with
  | nil => rfl
  | cons a positional ih =>
    cases index with
    | zero =>
      simp only [List.set_cons_zero, List.flatMap_cons, total_append, List.getElem?_cons_zero,
        Option.toList_some, List.flatMap_nil, List.append_nil]
      omega
    | succ index =>
      have hrest := ih index
      simp only [List.set_cons_succ, List.flatMap_cons, total_append, List.getElem?_cons_succ]
      omega

theorem total_placePartial (tag : Tag) (raws : List Text) (l : ArgumentList) :
    T.total (tag.placePartial raws l).nodes +
        T.total ((tag.displaced? raws l).toList.flatMap Argument.nodes) =
      T.total l.nodes := by
  rw [Tag.placePartial, Tag.displaced?]
  cases hpartial : tag.partial? raws with
  | none => exact Nat.add_zero _
  | some slot =>
    have hset := T.total_set slot.2 l.positional slot.1
    simp only [Arguments.nodes_eq, Arguments.values, List.flatMap_append, total_append,
      Option.bind_some, Arguments.get?]
    omega

/-- What shows in the arguments of a tag is in the report. The report has no more than that, and what
the name of a partial displaced, if every value shows what was counted and no name is bound twice. -/
theorem atMost_readTag (tag : Tag) :
    AtMost (T.Exact ∧ tag.NamesOnce s.dialect s.maxDepth)
      (T.total ((s.readTag tag).value.args.nodes ++
        (s.displaced? tag).toList.flatMap Argument.nodes))
      (T.ofReport (s.readTag tag).report) := by
  have hempty := T.ofReport_empty
  have hexact : T.Exact ∧ tag.NamesOnce s.dialect s.maxDepth → T.Exact := And.left
  have hargs := T.atMost_readArguments hexact (s.readCall s.maxDepth) tag.text {}
    (rawArguments s.dialect false tag.text tag.inner).value
    (fun source hsource => by
      rw [callsIn_eq] at hsource
      exact (T.atMost_readCall (Nat.add_zero s.maxDepth) source).mono fun he =>
        ⟨he.1, fun call hmem => he.2.2 call (List.mem_flatMap.mpr ⟨source, hsource, hmem⟩)⟩)
    (fun he => by
      rw [namesIn_eq]
      exact he.2.1)
  have hplace := T.total_placePartial tag
    (rawArguments s.dialect false tag.text tag.inner).value
    (readArguments s.dialect (s.readCall s.maxDepth) tag.text {}
      (rawArguments s.dialect false tag.text tag.inner).value).value
  have hnil : T.total (Arguments.nodes {}) = 0 := rfl
  simp only [total_append, Settings.displaced?, Settings.readTag, Reported.report_bind,
    Reported.report_pure, T.ofReport_append, Reported.value_bind, Reported.value_pure,
    T.ofReport_rawArguments, hempty]
  have hle := hargs.le
  refine ⟨by omega, fun he => ?_⟩
  have heq := hargs.eq he
  omega

/-- Nothing that is read is ever counted. -/
structure Silent : Prop where
  value (position : Position) (source : Text) :
    T.ofReport (readValue s.dialect position source).report = 0
  call : T.ofReport Reported.countSubexpression.report = 0
  helper (args : ArgumentList) : T.ofReport (s.checkHelper args).report = 0

namespace Silent

variable {T}

theorem readArgument (h : T.Silent) {call : Text → Reported ArgumentList}
    (hcall : ∀ source, T.ofReport (call source).report = 0) (tag : Text) (index : Nat)
    (raw : Text) : T.ofReport (readArgument s.dialect call tag index raw).report = 0 := by
  rw [TemplateTag.readArgument]
  split
  · rw [Reported.report_map, hcall]
  · split
    · exact T.ofReport_empty
    · split
      · rw [Reported.report_map, T.ofReport_readCheckedValue, h.value]
      · next b _ =>
        rw [Reported.report_bind, T.ofReport_append, T.ofReport_bindingCheck, Reported.report_map]
        split
        · rw [Reported.report_map, hcall]
        · rw [T.ofReport_readCheckedValue, h.value]

theorem readArguments (h : T.Silent) {call : Text → Reported ArgumentList}
    (hcall : ∀ source, T.ofReport (call source).report = 0) (tag : Text) (l : ArgumentList)
    (raws : List Text) : T.ofReport (readArguments s.dialect call tag l raws).report = 0 := by
  induction raws generalizing l with
  | nil => exact T.ofReport_empty
  | cons raw raws ih =>
    rw [TemplateTag.readArguments, Reported.report_bind, T.ofReport_append, ih,
      h.readArgument hcall]

theorem readCall (h : T.Silent) (room : Nat) (source : Text) :
    T.ofReport (s.readCall room source).report = 0 := by
  have hempty := T.ofReport_empty
  induction room generalizing source with
  | zero =>
    have hdeep := T.ofReport_diagnostic (.tooDeep s.maxDepth (Text.lastBytes 32 source)) rfl
    simp only [Settings.readCall, Reported.report_bind, Reported.report_pure, T.ofReport_append,
      Reported.report_diagnose, h.call, hdeep, hempty]
  | succ room ih =>
    simp only [Settings.readCall, Reported.report_bind, Reported.report_pure, T.ofReport_append,
      h.call, T.ofReport_rawArguments, h.readArguments ih, h.helper, hempty]

theorem readTag (h : T.Silent) (tag : Tag) : T.ofReport (s.readTag tag).report = 0 := by
  have hempty := T.ofReport_empty
  simp only [Settings.readTag, Reported.report_bind, Reported.report_pure, T.ofReport_append,
    T.ofReport_rawArguments, h.readArguments (h.readCall s.maxDepth), hempty]

end Silent

end Tally

end TemplateTag
