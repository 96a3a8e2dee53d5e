import TemplateTag.RawArgument.Reading
/-!
# The places of positional arguments

Whether a raw argument is positional is a matter of its shape (`isPositional`), and what it is read as
does not depend on its place (`readUnbound`). The place of its argument in the list is the number of
positional raw arguments in front of it (`positionalIndex?`).
-/
namespace TemplateTag

/-- Is the raw argument a call, or neither block parameters nor a binding? -/
def isPositional (d : Dialect) (raw : Text) : Bool :=
  isCall raw || ((blockParamNames? raw).isNone &&
    (if d.namedArguments then Binding.ofText? raw else none).isNone)

/-- Read an argument that no name is split off. -/
def readUnbound (d : Dialect) (call : Text → Reported ArgumentList) (tag : Text)
    (position : Position) (raw : Text) : Reported Argument :=
  if isCall raw then .subexpression raw <$> call raw else readCheckedValue d tag position raw

theorem readArgument_of_isPositional {d : Dialect} {raw : Text} (h : isPositional d raw = true)
    (call : Text → Reported ArgumentList) (tag : Text) (index : Nat) :
    readArgument d call tag index raw =
      .positional <$> readUnbound d call tag (.positional index) raw := by
  rw [readArgument, readUnbound]
  by_cases hraw : isCall raw = true
  · rw [if_pos hraw, if_pos hraw, Functor.map_map]
  · rw [if_neg hraw, if_neg hraw]
    simp only [isPositional, Bool.eq_false_iff.mpr hraw, Bool.false_or, Bool.and_eq_true,
      Option.isNone_iff_eq_none] at h
    rw [h.1]
    simp only [h.2]

/-- The index of the positional argument that the raw argument with the given index is read as. -/
def positionalIndex? (d : Dialect) (raws : List Text) (i : Nat) : Option Nat :=
  if raws[i]?.any (isPositional d) then some ((raws.take i).countP (isPositional d)) else none

theorem of_positionalIndex?_eq_some {d : Dialect} {raws : List Text} {i k : Nat}
    (h : positionalIndex? d raws i = some k) :
    ∃ raw, raws[i]? = some raw ∧ isPositional d raw = true ∧
      k = (raws.take i).countP (isPositional d) := by
  cases hraw : raws[i]? with
  | none =>
    rw [positionalIndex?, hraw] at h
    cases h
  | some raw =>
    rw [positionalIndex?, hraw, Option.any_some, Option.ite_none_right_eq_some,
      Option.some.injEq] at h
    exact ⟨raw, rfl, h.1, h.2.symm⟩

/-- The argument that is added to the positional ones. -/
def Placement.positional? : Placement → Option Argument
  | positional a => some a
  | _ => none

theorem positional_place (l : ArgumentList) (p : Placement) :
    (l.place p).positional = l.positional ++ p.positional?.toList := by
  cases p with
  | positional a => rfl
  | named name a => exact (List.append_nil _).symm
  | blockParams names => exact (List.append_nil _).symm

section Read

variable (d : Dialect) (call : Text → Reported ArgumentList) (tag : Text)

theorem isSome_positional?_readArgument (index : Nat) (raw : Text) :
    (readArgument d call tag index raw).value.positional?.isSome = isPositional d raw := by
  rw [readArgument, isPositional]
  by_cases hraw : isCall raw = true
  · rw [if_pos hraw, hraw]
    rfl
  · rw [if_neg hraw, Bool.eq_false_iff.mpr hraw]
    cases blockParamNames? raw with
    | some names => rfl
    | none => cases if d.namedArguments then Binding.ofText? raw else none <;> rfl

theorem length_positional?_readArgument (index : Nat) (raw : Text) :
    (readArgument d call tag index raw).value.positional?.toList.length =
      if isPositional d raw then 1 else 0 := by
  rw [← isSome_positional?_readArgument d call tag index raw]
  cases (readArgument d call tag index raw).value.positional? <;> rfl

theorem positional_readArguments (l : ArgumentList) (raws : List Text) :
    ∃ more : List Argument, (readArguments d call tag l raws).value.positional =
      l.positional ++ more ∧ more.length = raws.countP (isPositional d) := by
  induction raws generalizing l with
  | nil => exact ⟨[], (List.append_nil _).symm, rfl⟩
  | cons raw raws ih =>
    let placement := (readArgument d call tag l.positional.length raw).value
    obtain ⟨more, hmore, hlength⟩ := ih (l.place placement)
    refine ⟨placement.positional?.toList ++ more, ?_, ?_⟩
    · rw [readArguments, Reported.value_bind, hmore, positional_place, List.append_assoc]
    · rw [List.length_append, hlength, length_positional?_readArgument, List.countP_cons,
        Nat.add_comm]

theorem isPositional_of_length_eq {raws : List Text}
    (h : (readArguments d call tag {} raws).value.positional.length = raws.length) :
    ∀ raw ∈ raws, isPositional d raw = true := by
  obtain ⟨more, hmore, hlength⟩ := positional_readArguments d call tag {} raws
  rw [hmore, List.nil_append, hlength] at h
  exact List.countP_eq_length.mp h

/-- The argument at the place of a positional raw argument is what was read from it. -/
theorem getElem?_positional_readArguments {raws : List Text} {i : Nat} {raw : Text}
    (hraw : raws[i]? = some raw) (hpositional : isPositional d raw = true) (l : ArgumentList) :
    let k := l.positional.length + (raws.take i).countP (isPositional d)
    (readArguments d call tag l raws).value.positional[k]? =
      (readArgument d call tag k raw).value.positional? := by
  intro k
  induction raws generalizing l i with
  | nil => cases hraw
  | cons first raws ih =>
    let placement := (readArgument d call tag l.positional.length first).value
    cases i with
    | zero =>
      obtain rfl : first = raw := by simpa using hraw
      obtain ⟨more, hmore, -⟩ := positional_readArguments d call tag (l.place placement) raws
      have hshape := isSome_positional?_readArgument d call tag l.positional.length first
      obtain ⟨a, ha⟩ := Option.isSome_iff_exists.mp (hshape.trans hpositional)
      rw [readArguments, Reported.value_bind, hmore, positional_place, ha]
      simp [k, ha]
    | succ i =>
      have hlater := ih (by simpa using hraw) (l.place placement)
      have hindex : k = (l.place placement).positional.length +
          (raws.take i).countP (isPositional d) := by
        rw [positional_place, List.length_append, length_positional?_readArgument]
        simp only [k, List.take_succ_cons, List.countP_cons]
        omega
      rw [readArguments, Reported.value_bind, hindex]
      exact hlater

end Read

end TemplateTag
