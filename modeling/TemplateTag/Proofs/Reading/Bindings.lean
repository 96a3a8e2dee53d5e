import TemplateTag.Proofs.Reading.Trace
/-!
# The names that a reading binds

A raw argument binds at most one name (`boundName?`). A list whose names are bound once each keeps
all that was put into it, and `Tag.NamesOnce` says so of every list that is read for a tag.
-/
namespace TemplateTag

/-- The name that a raw argument binds. -/
def boundName? (d : Dialect) (raw : Text) : Option Text :=
  if isCall raw then none
  else if (blockParamNames? raw).isSome then none
  else (if d.namedArguments then Binding.ofText? raw else none).map Binding.key

/-- The names that the raw arguments of a text bind, in order. -/
def namesIn (d : Dialect) (inner : Text) : List Text :=
  (rawArguments d false [] inner).value.filterMap (boundName? d)

theorem namesIn_eq (d : Dialect) (nested : Bool) (tag inner : Text) :
    (rawArguments d nested tag inner).value.filterMap (boundName? d) = namesIn d inner := by
  rw [namesIn, rawArguments_value (.refl d) nested false tag []]

/-- No name is bound twice in the list of one of the calls, as far as they are entered. -/
def BindOnce (d : Dialect) (limit : Nat) (calls : List (Nat × Text)) : Prop :=
  ∀ call ∈ calls, call.1 < limit → (namesIn d (Settings.callBody call.2)).Nodup

instance (d : Dialect) (limit : Nat) (calls : List (Nat × Text)) :
    Decidable (BindOnce d limit calls) :=
  inferInstanceAs (Decidable (∀ call ∈ calls, _))

/-- No name is bound twice in the list of the tag, nor in the list of a call that is entered while
the tag is read. -/
def Tag.NamesOnce (d : Dialect) (limit : Nat) (tag : Tag) : Prop :=
  (namesIn d tag.inner).Nodup ∧ BindOnce d limit (tag.callTrace d limit)

instance (d : Dialect) (limit : Nat) (tag : Tag) : Decidable (tag.NamesOnce d limit) :=
  inferInstanceAs (Decidable (_ ∧ _))

/-- The name that is bound with the placement. -/
def Placement.name? : Placement → Option Text
  | named name _ => some name
  | _ => none

theorem name?_readArgument (d : Dialect) (call : Text → Reported ArgumentList) (tag : Text)
    (index : Nat) (raw : Text) :
    (readArgument d call tag index raw).value.name? = boundName? d raw := by
  rw [readArgument, boundName?]
  by_cases hraw : isCall raw = true
  · rw [if_pos hraw, if_pos hraw]
    rfl
  · rw [if_neg hraw, if_neg hraw]
    cases blockParamNames? raw with
    | some names => rfl
    | none => cases if d.namedArguments then Binding.ofText? raw else none <;> rfl

theorem keys_place {l : ArgumentList} {p : Placement}
    (h : ∀ name, p.name? = some name → name ∉ l.named.map Prod.fst) :
    (l.place p).named.map Prod.fst = l.named.map Prod.fst ++ p.name?.toList := by
  cases p with
  | positional a => exact (List.append_nil _).symm
  | blockParams names => exact (List.append_nil _).symm
  | named name a =>
    rw [Arguments.place, Arguments.bindName, Arguments.assign_of_not_mem (h name rfl)]
    simp [Placement.name?]

end TemplateTag
