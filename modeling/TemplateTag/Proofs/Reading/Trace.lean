import TemplateTag.Proofs.RawArgument.Part
import TemplateTag.Proofs.RawArgument.Shape
import TemplateTag.Proofs.Reading.Calls
/-!
# The calls that a reading makes

`callTrace` lists the calls that are made while a call is read, each with the number of calls that
are entered at that time. The list settles what calls leave in a report, it has every call that
stands in the result, and a call in it is shorter than the text by the parentheses around it.
-/
namespace TemplateTag

theorem of_callOf?_eq_some {d : Dialect} {raw source : Text} (h : callOf? d raw = some source) :
    isCall source = true ∧ source <:+ raw := by
  rw [callOf?] at h
  split at h
  · next hraw =>
    cases h
    exact ⟨hraw, List.suffix_rfl⟩
  · split at h
    · cases h
    · obtain ⟨hmap, hcall⟩ := Option.filter_eq_some_iff.mp h
      obtain ⟨b, hb, rfl⟩ := Option.map_eq_some_iff.mp hmap
      split at hb
      · exact ⟨hcall, (Binding.of_ofText? hb).2⟩
      · cases hb

/-- The calls that the raw arguments of a text make. -/
def callsIn (d : Dialect) (inner : Text) : List Text :=
  (rawArguments d false [] inner).value.filterMap (callOf? d)

theorem callsIn_eq (d : Dialect) (nested : Bool) (tag inner : Text) :
    (rawArguments d nested tag inner).value.filterMap (callOf? d) = callsIn d inner := by
  rw [callsIn, rawArguments_value (.refl d) nested false tag []]

theorem of_mem_callsIn {d : Dialect} {inner source : Text} (h : source ∈ callsIn d inner) :
    isCall source = true ∧ source <:+: inner := by
  obtain ⟨raw, hraw, hsource⟩ := List.mem_filterMap.mp h
  obtain ⟨hcall, hend⟩ := of_callOf?_eq_some hsource
  exact ⟨hcall, hend.isInfix.trans (infix_of_mem_rawArguments hraw)⟩

/-- A call inside a text that is read as a call is shorter than the text. -/
theorem length_lt_of_mem_callsIn {d : Dialect} {source inside : Text}
    (h : inside ∈ callsIn d (Settings.callBody source)) : inside.length < source.length := by
  obtain ⟨hcall, hpart⟩ := of_mem_callsIn h
  cases hbody : source.between? ['('] [')'] with
  | some content =>
    have hsource := congrArg List.length (Text.between?_eq_some.mp hbody)
    have hle := hpart.length_le
    simp only [Settings.callBody, hbody, Option.getD_some] at hle
    simp only [List.length_append, List.length_singleton] at hsource
    omega
  | none =>
    rw [Settings.callBody, hbody, Option.getD_none] at hpart
    apply Nat.lt_of_le_of_ne hpart.length_le
    intro hlength
    rw [hpart.eq_of_length hlength, isCall_iff, Settings.callBody, hbody, Option.getD_none] at hcall
    have hsource := congrArg List.length hcall.1
    simp only [List.cons_append, List.length_cons, List.length_append, List.length_nil] at hsource
    omega

/-- A call and the calls inside it, as far as there is room for them, in the order in which they are
made. Each comes with the number of calls that are entered at that time. -/
def callTrace (d : Dialect) : (room entered : Nat) → Text → List (Nat × Text)
  | 0, entered, source => [(entered, source)]
  | room + 1, entered, source =>
    (entered, source) ::
      (callsIn d (Settings.callBody source)).flatMap (callTrace d room (entered + 1))

theorem mem_callTrace_self (d : Dialect) (room entered : Nat) (source : Text) :
    (entered, source) ∈ callTrace d room entered source := by
  cases room <;> exact List.mem_cons_self ..

theorem of_mem_callTrace {d : Dialect} {room entered : Nat} {source : Text}
    (hcall : isCall source = true) {n : Nat} {c : Text}
    (h : (n, c) ∈ callTrace d room entered source) :
    isCall c = true ∧ c.length + 2 * n ≤ source.length + 2 * entered := by
  induction room generalizing entered source with
  | zero =>
    cases List.mem_singleton.mp h
    exact ⟨hcall, Nat.le_refl _⟩
  | succ room ih =>
    rcases List.mem_cons.mp h with heq | h
    · cases heq
      exact ⟨hcall, Nat.le_refl _⟩
    · obtain ⟨inside, hinside, hc⟩ := List.mem_flatMap.mp h
      obtain ⟨hcall', hbody⟩ := of_mem_callsIn hinside
      obtain ⟨hc, hlength⟩ := ih hcall' hc
      have hsource := length_of_isCall hcall
      have hle := hbody.length_le
      exact ⟨hc, by omega⟩

/-- The calls that are made for a tag if calls may nest `limit` levels deep. -/
def Tag.callTrace (d : Dialect) (limit : Nat) (tag : Tag) : List (Nat × Text) :=
  (callsIn d tag.inner).flatMap (TemplateTag.callTrace d limit 0)

theorem of_mem_tagTrace {d : Dialect} {limit n : Nat} {tag : Tag} {source : Text}
    (h : (n, source) ∈ tag.callTrace d limit) :
    isCall source = true ∧ source.length + 2 * n ≤ tag.inner.length := by
  obtain ⟨outer, houter, hsource⟩ := List.mem_flatMap.mp h
  obtain ⟨hcall, hpart⟩ := of_mem_callsIn houter
  obtain ⟨hsource, hlength⟩ := of_mem_callTrace hcall hsource
  have hle := hpart.length_le
  exact ⟨hsource, by omega⟩

/-- Is it the complaint about a call that is nested too deep? -/
def Diagnostic.isTooDeep : Diagnostic → Bool
  | tooDeep _ _ => true
  | _ => false

namespace Report

/-- What calls leave in a report: the complaints about those that are nested too deep, and the count
of all of them. -/
def ofCalls (r : Report) : Report where
  diagnostics := r.diagnostics.filter Diagnostic.isTooDeep
  usage := { subexpressions := r.usage.subexpressions }

@[simp] theorem ofCalls_append (r s : Report) : (r ++ s).ofCalls = r.ofCalls ++ s.ofCalls := by
  ext <;> simp [ofCalls]

theorem CallFree.ofCalls_eq {r : Report} (h : r.CallFree) : r.ofCalls = {} := by
  have hnone : r.diagnostics.filter Diagnostic.isTooDeep = [] := by
    refine List.filter_eq_nil_iff.mpr fun d hd => ?_
    cases d with
    | tooDeep limit tag => exact absurd hd (h.inDepth limit tag)
    | _ => simp [Diagnostic.isTooDeep]
  rw [ofCalls, hnone, h.subexpressions]

/-- What calls leave in a report if a call is too deep that is made inside `limit` others. -/
def ofTrace (limit : Nat) (calls : List (Nat × Text)) : Report where
  diagnostics :=
    (calls.filter (·.1 == limit)).map fun call => .tooDeep limit (Text.lastBytes 32 call.2)
  usage := { subexpressions := calls.length }

theorem ofTrace_append (limit : Nat) (calls calls' : List (Nat × Text)) :
    ofTrace limit (calls ++ calls') = ofTrace limit calls ++ ofTrace limit calls' := by
  ext <;> simp [ofTrace]

theorem ofTrace_cons {limit n : Nat} (h : n ≠ limit) (source : Text) (calls : List (Nat × Text)) :
    ofTrace limit ((n, source) :: calls) =
      { usage := { subexpressions := 1 } } ++ ofTrace limit calls := by
  ext <;> simp [ofTrace, h, Nat.add_comm]

end Report

theorem ofCalls_readArgument (d : Dialect) (call : Text → Reported ArgumentList) (tag : Text)
    (index : Nat) (raw : Text) :
    (readArgument d call tag index raw).report.ofCalls =
      match callOf? d raw with
      | none => {}
      | some source => (call source).report.ofCalls := by
  cases hsource : callOf? d raw with
  | none =>
    obtain ⟨reading, hfree, -, hreading⟩ := readArgument_of_callOf?_eq_none hsource tag index
    rw [hreading, hfree.ofCalls_eq]
  | some source =>
    obtain ⟨check, name, hfree, hreading⟩ := readArgument_of_callOf?_eq_some hsource tag
    rw [hreading, Reported.report_bind, Reported.report_map, Report.ofCalls_append,
      hfree.ofCalls_eq, Report.empty_append]

theorem ofCalls_readArguments {d : Dialect} {call : Text → Reported ArgumentList} {limit : Nat}
    {trace : Text → List (Nat × Text)}
    (hcall : ∀ source, (call source).report.ofCalls = .ofTrace limit (trace source)) (tag : Text)
    (l : ArgumentList) (raws : List Text) :
    (readArguments d call tag l raws).report.ofCalls =
      .ofTrace limit ((raws.filterMap (callOf? d)).flatMap trace) := by
  induction raws generalizing l with
  | nil => rfl
  | cons raw raws ih =>
    rw [readArguments, Reported.report_bind, Report.ofCalls_append, ih, ofCalls_readArgument]
    cases hsource : callOf? d raw with
    | none => rw [List.filterMap_cons_none hsource, Report.empty_append]
    | some source =>
      rw [List.filterMap_cons_some hsource, List.flatMap_cons, Report.ofTrace_append, ← hcall]

namespace Settings

variable {s : Settings}

theorem callFree_checkHelper (args : ArgumentList) : (s.checkHelper args).report.CallFree := by
  have hunknown (name : Text) : (Reported.diagnose (.unknownHelper name)).report.CallFree :=
    ⟨fun limit tag h => by simp at h, rfl⟩
  rw [checkHelper]
  split
  · exact Report.callFree_empty
  · split
    · exact Report.callFree_empty
    · split
      · exact hunknown _
      · split
        · exact Report.callFree_empty
        · exact hunknown _

theorem callFree_rawArguments (d : Dialect) (nested : Bool) (tag source : Text) :
    (rawArguments d nested tag source).report.CallFree := by
  have hcheck (ending : Ending) : (ending.check nested tag).report.CallFree := by
    rw [Ending.check]
    split
    · exact ⟨fun limit t h => by simp at h, rfl⟩
    · exact Report.callFree_empty
  rw [rawArguments]
  split
  · exact Report.callFree_empty
  · split
    · exact (hcheck _).append Report.callFree_empty
    · exact Report.callFree_empty

/-- The trace of a call settles what calls leave in the report: a count of each, and a complaint
about those that are made without room. -/
theorem ofCalls_readCall {room entered : Nat} (h : room + entered = s.maxDepth) (source : Text) :
    (s.readCall room source).report.ofCalls =
      .ofTrace s.maxDepth (callTrace s.dialect room entered source) := by
  induction room generalizing entered source with
  | zero =>
    have hdepth : entered = s.maxDepth := by omega
    simp [readCall, callTrace, Report.ofTrace, Report.ofCalls, Diagnostic.isTooDeep, hdepth]
  | succ room ih =>
    have hroom : room + (entered + 1) = s.maxDepth := by omega
    have hcalls := ofCalls_readArguments (d := s.dialect) (ih hroom) source {}
      (rawArguments s.dialect true source (callBody source)).value
    rw [callsIn_eq] at hcalls
    rw [callTrace, Report.ofTrace_cons (by omega), ← hcalls]
    simp only [readCall, Reported.report_bind, Reported.report_pure, Report.ofCalls_append,
      (callFree_rawArguments ..).ofCalls_eq, (callFree_checkHelper _).ofCalls_eq,
      Report.empty_append, Report.append_empty]
    rfl

theorem ofCalls_readTag (tag : Tag) :
    (s.readTag tag).report.ofCalls = .ofTrace s.maxDepth (tag.callTrace s.dialect s.maxDepth) := by
  have hcalls := ofCalls_readArguments (d := s.dialect)
    (ofCalls_readCall (s := s) (Nat.add_zero s.maxDepth)) tag.text {}
    (rawArguments s.dialect false tag.text tag.inner).value
  rw [callsIn_eq] at hcalls
  rw [Tag.callTrace, ← hcalls]
  simp only [readTag, Reported.report_bind, Reported.report_pure, Report.ofCalls_append,
    (callFree_rawArguments ..).ofCalls_eq, Report.empty_append, Report.append_empty]

end Settings

/-- The calls that stand on their own in the list were made by raw arguments of the text, and read
with so much room. -/
def Settings.CallsFrom (s : Settings) (room : Nat) (inner : Text) (l : ArgumentList) : Prop :=
  ∀ source args, .subexpression source args ∈ l.values →
    source ∈ callsIn s.dialect inner ∧ (s.readCall room source).value = args

namespace Settings

variable {s : Settings}

theorem callsFrom_readArguments (room : Nat) (nested : Bool) (tag inner : Text) :
    s.CallsFrom room inner (readArguments s.dialect (s.readCall room) tag {}
      (rawArguments s.dialect nested tag inner).value).value := by
  intro source args hmem
  rcases of_mem_values_readArguments hmem with hnone | ⟨hsource, hvalue⟩
  · cases hnone
  · rw [callsIn_eq] at hsource
    exact ⟨hsource, hvalue⟩

theorem callsFrom_readCall (room : Nat) (source : Text) :
    s.CallsFrom room (callBody source) (s.readCall (room + 1) source).value :=
  callsFrom_readArguments room true source (callBody source)

theorem callsFrom_readTag (tag : Tag) :
    s.CallsFrom s.maxDepth tag.inner (s.readTag tag).value.args := by
  intro source args hmem
  exact callsFrom_readArguments s.maxDepth false tag.text tag.inner source args
    (mem_values_placePartial hmem)

theorem values_readCall_zero (source : Text) : (s.readCall 0 source).value.values = [] := rfl

end Settings

/-- A call stands in the list, inside so many others. -/
inductive HasCallAt : Nat → ArgumentList → Text → ArgumentList → Prop where
  | here {l args : ArgumentList} {source : Text} (h : .subexpression source args ∈ l.values) :
    HasCallAt 0 l source args
  | within {n : Nat} {l inner args : ArgumentList} {outer source : Text}
    (h : .subexpression outer inner ∈ l.values) (hinner : HasCallAt n inner source args) :
    HasCallAt (n + 1) l source args

theorem HasCallAt.values_ne_nil {n : Nat} {l args : ArgumentList} {source : Text}
    (h : HasCallAt n l source args) : l.values ≠ [] := by
  cases h with
  | here h => exact List.ne_nil_of_mem h
  | within h => exact List.ne_nil_of_mem h

theorem HasCallAt.mem_callTrace {s : Settings} {n : Nat} {l args : ArgumentList} {source : Text}
    (h : HasCallAt n l source args) {room : Nat} {inner : Text} (hl : s.CallsFrom room inner l)
    (entered : Nat) :
    ∃ outer ∈ callsIn s.dialect inner,
      (entered + n, source) ∈ callTrace s.dialect room entered outer := by
  induction h generalizing room inner entered with
  | here h => exact ⟨_, (hl _ _ h).1, mem_callTrace_self ..⟩
  | within h hinner ih =>
    obtain ⟨houter, hvalue⟩ := hl _ _ h
    refine ⟨_, houter, ?_⟩
    subst hvalue
    cases room with
    | zero => exact absurd (Settings.values_readCall_zero _) hinner.values_ne_nil
    | succ room =>
      obtain ⟨outer', houter', hmem⟩ := ih (Settings.callsFrom_readCall room _) (entered + 1)
      rw [Nat.add_right_comm] at hmem
      exact List.mem_cons_of_mem _ (List.mem_flatMap.mpr ⟨outer', houter', hmem⟩)

theorem HasCallAt.mem_tagTrace {s : Settings} {tag : Tag} {n : Nat} {source : Text}
    {args : ArgumentList} (h : HasCallAt n (s.readTag tag).value.args source args) :
    (n, source) ∈ tag.callTrace s.dialect s.maxDepth := by
  obtain ⟨outer, houter, hmem⟩ := h.mem_callTrace (Settings.callsFrom_readTag tag) 0
  rw [Nat.zero_add] at hmem
  exact List.mem_flatMap.mpr ⟨outer, houter, hmem⟩

end TemplateTag
