import TemplateTag.Context
import TemplateTag.Proofs.Reading.Trace
/-!
# Sessions

The compilation of a template as a sequence of changes to one state, with a counter of the
subexpressions that are entered. The counter decides whether a call may be entered at all and
whether an open parenthesis is reported. `Reads` says that an action returns what a reading without
a state returns, adds its report, and leaves the rest of the state alone.
-/
namespace TemplateTag

structure Session where
  settings : Settings
  delimiters? : Option Delimiters := none
  report : Report := {}
  /-- The number of subexpressions that are entered and not left again. -/
  entered : Nat := 0

namespace Session

/-- A step of a compilation. It can read and change all of the state. -/
abbrev Action (α : Type) : Type :=
  StateM Session α

def askSettings : Action Settings := do
  let s ← get
  return s.settings

/-- Keep the result of a reading and add its report to the state. -/
def tell {α : Type} (x : Reported α) : Action α := do
  modify fun s => { s with report := s.report ++ x.report }
  return x.value

/-- The state inside one more subexpression. -/
def deeper (s : Session) : Session :=
  { s with entered := s.entered + 1 }

/-- Enter a subexpression, unless as many are entered as may be. -/
def enter : Action Bool := do
  let s ← get
  if s.settings.maxDepth ≤ s.entered then return false
  set s.deeper
  return true

def leave : Action Unit :=
  modify fun s => { s with entered := s.entered - 1 }

def rawArguments (tag source : Text) : Action (List Text) := do
  let s ← get
  tell (TemplateTag.rawArguments s.settings.dialect (0 < s.entered) tag source)

def readValue (position : Position) (source : Text) : Action Argument := do
  let s ← askSettings
  tell (TemplateTag.readValue s.dialect position source)

def readArgument (call : Text → Action ArgumentList) (tag : Text) (index : Nat) (raw : Text) :
    Action Placement := do
  let s ← askSettings
  if isCall raw then (.positional <| .subexpression raw ·) <$> call raw
  else
    match blockParamNames? raw with
    | some names => pure (.blockParams names)
    | none =>
      match if s.dialect.namedArguments then Binding.ofText? raw else none with
      | none => .positional <$> tell (readCheckedValue s.dialect tag (.positional index) raw)
      | some b => do
        tell (b.check s.dialect tag)
        .named b.key <$>
          if isCall b.value then .subexpression b.value <$> call b.value
          else tell (readCheckedValue s.dialect tag .named b.value)

def readArguments (call : Text → Action ArgumentList) (tag : Text) :
    ArgumentList → List Text → Action ArgumentList
  | l, [] => pure l
  | l, raw :: rest => do
    let placement ← readArgument call tag l.positional.length raw
    readArguments call tag (l.place placement) rest

/-- Read a call. The calls inside it are shorter (`length_lt_of_mem_callsIn`). -/
def readCall (source : Text) : Action ArgumentList := do
  tell Reported.countSubexpression
  if ← enter then
    let raws ← rawArguments source (Settings.callBody source)
    let args ← readArguments
      (fun inside => if inside.length < source.length then readCall inside else pure {})
      source {} raws
    leave
    let s ← askSettings
    tell (s.checkHelper args)
    return args
  else
    let s ← askSettings
    tell (Reported.diagnose (.tooDeep s.maxDepth (Text.lastBytes 32 source)))
    return {}
termination_by source.length

def readSubexpression (source : Text) : Action Argument :=
  .subexpression source <$> readCall source

def readTag (tag : Tag) : Action TagReading := do
  let raws ← rawArguments tag.text tag.inner
  let args ← readArguments readCall tag.text {} raws
  let s ← askSettings
  return { unescaped := s.unescaped tag, args := tag.placePartial raws args }

def setDelimiters (left right : Text) : Action Unit := do
  if Delimiters.isAllowed left right then
    modify fun s =>
      { s with
        delimiters? :=
          some (.build s.settings.dialect.rawBlocks s.settings.rawBlockActive left right) }
  else tell (Reported.diagnose (.equalsInDelimiter left right))

/-- The action returns the result of the reading, and takes the one state to the other. Whatever the
report was, it has grown by that of the reading. -/
def Reads {α : Type} (s : Session) (m : Action α) (x : Reported α) (s' : Session) : Prop :=
  ∀ r : Report,
    m.run { s with report := r } = (x.value, { s' with report := r ++ x.report })

section Reads

variable {α β : Type} {s s' s'' : Session}

theorem reads_pure (s : Session) (a : α) : Reads s (pure a) (pure a) s := by
  intro r
  rw [Reported.report_pure, Report.append_empty]
  rfl

theorem reads_tell (s : Session) (x : Reported α) : Reads s (tell x) x s := by
  intro r
  rfl

theorem Reads.bind {m : Action α} {x : Reported α} {f : α → Action β} {g : α → Reported β}
    (hm : Reads s m x s') (hf : Reads s' (f x.value) (g x.value) s'') :
    Reads s (m >>= f) (x >>= g) s'' := by
  intro r
  rw [StateT.run_bind, hm r, Reported.report_bind, ← Report.append_assoc]
  exact hf (r ++ x.report)

theorem Reads.step {m : Action α} {a : α} {f : α → Action β} {y : Reported β}
    (hm : Reads s m (pure a) s') (hf : Reads s' (f a) y s'') : Reads s (m >>= f) y s'' := by
  have h := hm.bind (f := f) (g := fun _ => y) hf
  rwa [pure_bind] at h

theorem Reads.map {m : Action α} {x : Reported α} (f : α → β) (hm : Reads s m x s') :
    Reads s (f <$> m) (f <$> x) s' := by
  rw [map_eq_pure_bind, map_eq_pure_bind]
  exact hm.bind (reads_pure s' (f x.value))

theorem reads_askSettings (s : Session) : Reads s askSettings (pure s.settings) s := by
  intro r
  rw [Reported.report_pure, Report.append_empty]
  rfl

theorem reads_rawArguments (s : Session) (tag source : Text) :
    Reads s (rawArguments tag source)
      (TemplateTag.rawArguments s.settings.dialect (0 < s.entered) tag source) s := by
  intro r
  rfl

theorem reads_enter_of_le (h : s.settings.maxDepth ≤ s.entered) :
    Reads s enter (pure false) s := by
  intro r
  simp [enter, h]
  rfl

theorem reads_enter_of_lt (h : s.entered < s.settings.maxDepth) :
    Reads s enter (pure true) s.deeper := by
  intro r
  simp [enter, Nat.not_le.mpr h]
  rfl

theorem reads_leave (s : Session) :
    Reads s.deeper leave (pure ()) s := by
  intro r
  rw [Reported.report_pure, Report.append_empty]
  rfl

end Reads

section Calls

variable {s : Session} {call : Text → Action ArgumentList} {call' : Text → Reported ArgumentList}

theorem reads_readArgument {raw : Text}
    (hcall : ∀ source, callOf? s.settings.dialect raw = some source →
      Reads s (call source) (call' source) s) (tag : Text) (index : Nat) :
    Reads s (readArgument call tag index raw)
      (TemplateTag.readArgument s.settings.dialect call' tag index raw) s := by
  rw [readArgument, TemplateTag.readArgument]
  apply (reads_askSettings s).step
  by_cases hraw : isCall raw = true
  · have hself : callOf? s.settings.dialect raw = some raw := by rw [callOf?, if_pos hraw]
    rw [if_pos hraw, if_pos hraw]
    exact (hcall raw hself).map _
  · rw [if_neg hraw, if_neg hraw]
    cases hnames : blockParamNames? raw with
    | some names => exact reads_pure s _
    | none =>
      cases hbinding : if s.settings.dialect.namedArguments then Binding.ofText? raw else none with
      | none => exact (reads_tell s _).map _
      | some b =>
        apply (reads_tell s _).bind
        apply Reads.map
        by_cases hvalue : isCall b.value = true
        · have hbound : callOf? s.settings.dialect raw = some b.value := by
            simp [callOf?, hraw, hnames, hbinding, hvalue]
          rw [if_pos hvalue, if_pos hvalue]
          exact (hcall b.value hbound).map _
        · rw [if_neg hvalue, if_neg hvalue]
          exact reads_tell s _

theorem reads_readArguments {raws : List Text}
    (hcall : ∀ source ∈ raws.filterMap (callOf? s.settings.dialect),
      Reads s (call source) (call' source) s) (tag : Text) (l : ArgumentList) :
    Reads s (readArguments call tag l raws)
      (TemplateTag.readArguments s.settings.dialect call' tag l raws) s := by
  induction raws generalizing l with
  | nil => exact reads_pure s l
  | cons raw raws ih =>
    rw [readArguments, TemplateTag.readArguments]
    refine Reads.bind (reads_readArgument ?_ tag _) (ih ?_ _)
    · intro source hsource
      exact hcall source (List.mem_filterMap.mpr ⟨raw, List.mem_cons_self .., hsource⟩)
    · intro source hsource
      obtain ⟨raw', hraw', hsource⟩ := List.mem_filterMap.mp hsource
      exact hcall source (List.mem_filterMap.mpr ⟨raw', List.mem_cons_of_mem raw hraw', hsource⟩)

end Calls

/-- Whether a call is entered or not, as many subexpressions are entered after it as before. -/
theorem reads_readCall (s : Session) (source : Text) :
    Reads s (readCall source)
      (s.settings.readCall (s.settings.maxDepth - s.entered) source) s := by
  rw [readCall]
  rcases Nat.lt_or_ge s.entered s.settings.maxDepth with hroom | hfull
  · obtain ⟨room, hmax⟩ : ∃ room, s.settings.maxDepth - s.entered = room + 1 :=
      ⟨s.settings.maxDepth - s.entered - 1, by omega⟩
    have hnext : s.settings.maxDepth - (s.entered + 1) = room := by omega
    rw [hmax, Settings.readCall]
    apply (reads_tell s _).bind
    apply (reads_enter_of_lt hroom).step
    rw [if_pos rfl]
    have hargs : Reads s.deeper
        (readArguments
          (fun inside => if inside.length < source.length then readCall inside else pure {})
          source {}
          (TemplateTag.rawArguments s.settings.dialect true source (Settings.callBody source)).value)
        (TemplateTag.readArguments s.settings.dialect (s.settings.readCall room) source {}
          (TemplateTag.rawArguments s.settings.dialect true source (Settings.callBody source)).value)
        s.deeper := by
      apply reads_readArguments
      intro inside hmade
      have hinside : inside ∈ callsIn s.settings.dialect (Settings.callBody source) := by
        rw [← callsIn_eq _ true source]
        exact hmade
      have hshorter := length_lt_of_mem_callsIn hinside
      rw [if_pos hshorter, ← hnext]
      exact reads_readCall s.deeper inside
    apply (reads_rawArguments s.deeper source (Settings.callBody source)).bind
    apply hargs.bind
    apply (reads_leave s).step
    apply (reads_askSettings s).step
    exact (reads_tell s _).bind (reads_pure s _)
  · rw [Nat.sub_eq_zero_of_le hfull, Settings.readCall]
    apply (reads_tell s _).bind
    apply (reads_enter_of_le hfull).step
    rw [if_neg Bool.false_ne_true]
    apply (reads_askSettings s).step
    exact (reads_tell s _).bind (reads_pure s _)
termination_by source.length

theorem reads_readTag {s : Session} (h : s.entered = 0) (tag : Tag) :
    Reads s (readTag tag) (s.settings.readTag tag) s := by
  have hcut := reads_rawArguments s tag.text tag.inner
  have hcall := reads_readCall s
  rw [h] at hcut hcall
  rw [readTag, Settings.readTag]
  apply hcut.bind
  apply (reads_readArguments (fun source _ => hcall source) tag.text {}).bind
  apply (reads_askSettings s).step
  exact reads_pure s _

end Session

end TemplateTag
