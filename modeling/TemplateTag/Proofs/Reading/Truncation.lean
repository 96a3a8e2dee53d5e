import TemplateTag.Proofs.Reading.Trace
/-!
# Argument lists cut off at a depth

A lower depth limit leaves the arguments of the deepest calls out and changes nothing else in what is
read: `Argument.truncate` does the same to an argument that was read with a higher one.
-/
namespace TemplateTag

namespace Arguments

variable {α β : Type}

/-- The list with every argument changed and every name kept. -/
def map (f : α → β) (l : Arguments α) : Arguments β where
  positional := l.positional.map f
  named := l.named.map fun p => (p.1, f p.2)
  blockParams := l.blockParams

theorem values_map (f : α → β) (l : Arguments α) : (l.map f).values = l.values.map f := by
  simp [values, map]

theorem assign_map (f : α → β) (name : Text) (a : α) (bindings : List (Text × α)) :
    assign name (f a) (bindings.map fun p => (p.1, f p.2)) =
      (assign name a bindings).map fun p => (p.1, f p.2) := by
  induction bindings with
  | nil => rfl
  | cons p bindings ih =>
    obtain ⟨other, b⟩ := p
    rw [List.map_cons, assign, assign]
    by_cases hname : other = name
    · rw [if_pos hname, if_pos hname, List.map_cons]
    · rw [if_neg hname, if_neg hname, List.map_cons, ih]

end Arguments

/-- The placement with another argument in the same place. -/
def Placement.map (f : Argument → Argument) : Placement → Placement
  | positional a => positional (f a)
  | named name a => named name (f a)
  | blockParams names => blockParams names

theorem Placement.map_under (f : Argument → Argument) (name : Option Text) (a : Argument) :
    (under name a).map f = under name (f a) := by
  cases name <;> rfl

theorem Placement.map_eq {f : Argument → Argument} {p : Placement}
    (h : ∀ a, p.argument? = some a → f a = a) : p.map f = p := by
  cases p with
  | positional a => rw [map, h a rfl]
  | named name a => rw [map, h a rfl]
  | blockParams names => rfl

theorem map_place (f : Argument → Argument) (l : ArgumentList) (p : Placement) :
    Arguments.place (l.map f) (p.map f) = (l.place p).map f := by
  cases p with
  | positional a => simp [Arguments.place, Placement.map, Arguments.push, Arguments.map]
  | named name a =>
    simp [Arguments.place, Placement.map, Arguments.bindName, Arguments.map, Arguments.assign_map]
  | blockParams names => rfl

section Calls

variable {f : Argument → Argument} {d : Dialect} {call call' : Text → Reported ArgumentList}

theorem map_readArguments (hplain : ∀ a : Argument, a.IsPlain → f a = a)
    (hcall : ∀ source, f (.subexpression source (call source).value) =
      .subexpression source (call' source).value) (tag : Text) (l : ArgumentList)
    (raws : List Text) :
    (readArguments d call' tag (l.map f) raws).value =
      (readArguments d call tag l raws).value.map f := by
  induction raws generalizing l with
  | nil => rfl
  | cons raw raws ih =>
    have hindex : (l.map f).positional.length = l.positional.length := List.length_map ..
    have hraw : (readArgument d call' tag l.positional.length raw).value =
        (readArgument d call tag l.positional.length raw).value.map f := by
      cases hsource : callOf? d raw with
      | none =>
        obtain ⟨reading, -, hargument, hreading⟩ :=
          readArgument_of_callOf?_eq_none hsource tag l.positional.length
        rw [hreading, hreading, Placement.map_eq fun a ha => hplain a (hargument a ha)]
      | some source =>
        obtain ⟨check, name, -, hreading⟩ := readArgument_of_callOf?_eq_some hsource tag
        rw [hreading, hreading, Reported.value_bind, Reported.value_bind, Reported.value_map,
          Reported.value_map, Placement.map_under, hcall]
    rw [readArguments, readArguments, Reported.value_bind, Reported.value_bind, hindex, hraw,
      map_place, ih]

end Calls

namespace Argument

/-- The argument with the calls inside `depth` others left without arguments. -/
def truncate : (depth : Nat) → Argument → Argument
  | 0, subexpression source _ => subexpression source {}
  | depth + 1, subexpression source args => subexpression source (args.map (truncate depth))
  | _, a => a

theorem truncate_of_isPlain {a : Argument} (h : a.IsPlain) (depth : Nat) : a.truncate depth = a := by
  cases a with
  | subexpression source args => exact absurd rfl (h source args)
  | path levels segments => cases depth <;> rfl
  | literal kind text => cases depth <;> rfl

end Argument

/-- Nothing is left inside more calls than the depth that a list is cut off at. -/
theorem HasCallAt.le_of_truncate {depth n : Nat} {l args : ArgumentList} {source : Text}
    (h : HasCallAt n (l.map (Argument.truncate depth)) source args) : n ≤ depth := by
  induction depth generalizing n l with
  | zero =>
    cases h with
    | here => exact Nat.le_refl _
    | within h hinner =>
      rw [Arguments.values_map] at h
      obtain ⟨a, -, ha⟩ := List.mem_map.mp h
      cases a with
      | subexpression outer inner =>
        cases ha
        cases hinner with
        | here h => cases h
        | within h => cases h
      | path | literal => cases ha
  | succ depth ih =>
    cases h with
    | here => exact Nat.zero_le _
    | within h hinner =>
      rw [Arguments.values_map] at h
      obtain ⟨a, -, ha⟩ := List.mem_map.mp h
      cases a with
      | subexpression outer inner =>
        cases ha
        exact Nat.succ_le_succ (ih hinner)
      | path | literal => cases ha

theorem map_placePartial {f : Argument → Argument} (hname : ∀ name, f (.ofName name) = .ofName name)
    (tag : Tag) (raws : List Text) (l : ArgumentList) :
    (tag.placePartial raws l).map f = tag.placePartial raws (l.map f) := by
  rw [Tag.placePartial, Tag.placePartial]
  cases tag.partial? raws with
  | none => rfl
  | some slot => simp [Arguments.map, List.map_set, hname]

namespace Settings

variable {s : Settings}

/-- A call that is read with less room is the one that is read with more, cut off. -/
theorem truncate_readCall {room room' : Nat} (h : room ≤ room') (source : Text) :
    Argument.truncate room (.subexpression source (s.readCall room' source).value) =
      .subexpression source (s.readCall room source).value := by
  induction room generalizing room' source with
  | zero => rfl
  | succ room ih =>
    obtain ⟨room', rfl⟩ : ∃ k, room' = k + 1 := ⟨room' - 1, by omega⟩
    have hargs := map_readArguments (d := s.dialect) (fun a ha => Argument.truncate_of_isPlain ha room)
      (ih (Nat.le_of_succ_le_succ h)) source {}
      (rawArguments s.dialect true source (callBody source)).value
    simp only [Argument.truncate, readCall, Reported.value_bind, Reported.value_pure]
    rw [← hargs]
    rfl

theorem args_readTag_truncate {s s' : Settings} (hdialect : s'.dialect = s.dialect)
    (hle : s.maxDepth ≤ s'.maxDepth) (tag : Tag) :
    (s.readTag tag).value.args =
      (s'.readTag tag).value.args.map (Argument.truncate s.maxDepth) := by
  have hcall (source : Text) :
      Argument.truncate s.maxDepth (.subexpression source (s'.readCall s'.maxDepth source).value) =
        .subexpression source (s.readCall s.maxDepth source).value := by
    have hsyntax : s'.dialect.SameSyntax s.dialect := hdialect ▸ .refl s.dialect
    rw [truncate_readCall hle, readCall_value hsyntax]
  have hargs := map_readArguments (d := s.dialect)
    (fun a ha => Argument.truncate_of_isPlain ha s.maxDepth) hcall tag.text {}
    (rawArguments s.dialect false tag.text tag.inner).value
  have hname (name : Text) : Argument.truncate s.maxDepth (.ofName name) = .ofName name :=
    Argument.truncate_of_isPlain (fun _ _ h => by cases h) s.maxDepth
  simp only [readTag, Reported.value_bind, Reported.value_pure]
  rw [hdialect, map_placePartial hname, ← hargs]
  rfl

end Settings

end TemplateTag
