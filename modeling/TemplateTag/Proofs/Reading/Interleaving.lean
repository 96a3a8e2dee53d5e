import TemplateTag.Proofs.Argument.Literal
import TemplateTag.Proofs.Reading.Bindings
import TemplateTag.Proofs.Reading.Placements
/-!
# Named arguments among the others

Named arguments can stand anywhere among the others. What is read is what is read from the named raw
arguments alone, joined with what is read from the others alone, since the only thing that the
reading of an argument takes from the list before it is the number of positional arguments.
-/
namespace TemplateTag

/-- Does the raw argument bind a name? -/
def isNamed (d : Dialect) (raw : Text) : Bool :=
  (boundName? d raw).isSome

/-- The reports say the same, though perhaps in another order. -/
structure Report.SameContents (r s : Report) : Prop where
  diagnostics : r.diagnostics.Perm s.diagnostics
  usage : r.usage = s.usage

namespace Report.SameContents

variable {r s t : Report}

theorem refl (r : Report) : r.SameContents r :=
  ⟨.refl _, rfl⟩

theorem append_first (h : r.SameContents (s ++ t)) (q : Report) :
    (q ++ r).SameContents (q ++ s ++ t) := by
  rw [append_assoc]
  refine ⟨h.diagnostics.append_left _, ?_⟩
  change Usage.mk (_ + _) (_ + _) = Usage.mk (_ + _) (_ + _)
  rw [h.usage]

theorem append_second (h : r.SameContents (s ++ t)) (q : Report) :
    (q ++ r).SameContents (s ++ (q ++ t)) := by
  have hfirst := h.append_first q
  refine ⟨hfirst.diagnostics.trans ?_, hfirst.usage.trans ?_⟩
  · rw [append_assoc]
    exact List.perm_append_comm_assoc _ _ _
  · change Usage.mk (_ + _ + _) (_ + _ + _) = Usage.mk (_ + (_ + _)) (_ + (_ + _))
    congr 1 <;> omega

end Report.SameContents

/-- The list has the named arguments of one list, and what else it has of another. -/
structure Arguments.Joins (l named others : ArgumentList) : Prop where
  positional : l.positional = others.positional
  named : l.named = named.named
  blockParams : l.blockParams = others.blockParams

namespace Arguments.Joins

variable {l named others : ArgumentList} (h : l.Joins named others)

include h

theorem place_named {p : Placement} (hp : p.name?.isSome = true) :
    (l.place p).Joins (named.place p) others := by
  cases p with
  | named name a => exact ⟨h.positional, congrArg (assign name a) h.named, h.blockParams⟩
  | positional a => cases hp
  | blockParams names => cases hp

theorem place_other {p : Placement} (hp : p.name? = none) :
    (l.place p).Joins named (others.place p) := by
  cases p with
  | named name a => cases hp
  | positional a => exact ⟨congrArg (· ++ [a]) h.positional, h.named, h.blockParams⟩
  | blockParams names => exact ⟨h.positional, h.named, rfl⟩

end Arguments.Joins

section Read

variable (d : Dialect) (call : Text → Reported ArgumentList) (tag : Text)

theorem isSome_name?_readArgument (index : Nat) (raw : Text) :
    (readArgument d call tag index raw).value.name?.isSome = isNamed d raw := by
  rw [name?_readArgument, isNamed]

theorem readArgument_of_isNamed {raw : Text} (h : isNamed d raw = true) (index index' : Nat) :
    readArgument d call tag index raw = readArgument d call tag index' raw := by
  rw [isNamed, boundName?] at h
  rw [readArgument, readArgument]
  by_cases hraw : isCall raw = true
  · rw [if_pos hraw, if_pos hraw]
  · rw [if_neg hraw] at h
    rw [if_neg hraw, if_neg hraw]
    cases hblock : blockParamNames? raw with
    | some names => rfl
    | none =>
      cases hbinding : if d.namedArguments then Binding.ofText? raw else none with
      | none => simp [hblock, hbinding] at h
      | some b => rfl

/-- Each raw argument adds to the list of its kind what it adds to the whole list. -/
theorem joins_readArguments (raws : List Text) {l named others : ArgumentList}
    (h : l.Joins named others) :
    let whole := readArguments d call tag l raws
    let first := readArguments d call tag named (raws.filter (isNamed d))
    let second := readArguments d call tag others (raws.filter (! isNamed d ·))
    whole.value.Joins first.value second.value ∧
      whole.report.SameContents (first.report ++ second.report) := by
  induction raws generalizing l named others with
  | nil => exact ⟨h, .refl _⟩
  | cons raw raws ih =>
    let placement := readArgument d call tag l.positional.length raw
    have hname : placement.value.name?.isSome = isNamed d raw :=
      isSome_name?_readArgument d call tag _ raw
    by_cases hraw : isNamed d raw = true
    · have hplacement : readArgument d call tag named.positional.length raw = placement :=
        readArgument_of_isNamed d call tag hraw _ _
      obtain ⟨hvalue, hreport⟩ := ih (h.place_named (hname.trans hraw))
      rw [List.filter_cons_of_pos hraw, List.filter_cons_of_neg (by simp [hraw])]
      simp only [readArguments, hplacement]
      exact ⟨hvalue, hreport.append_first placement.report⟩
    · have hplacement : readArgument d call tag others.positional.length raw = placement := by
        rw [← h.positional]
      have hnone : placement.value.name? = none :=
        Option.not_isSome_iff_eq_none.mp (hname ▸ hraw)
      obtain ⟨hvalue, hreport⟩ := ih (h.place_other hnone)
      rw [List.filter_cons_of_neg hraw, List.filter_cons_of_pos (by simp [hraw])]
      simp only [readArguments, hplacement]
      exact ⟨hvalue, hreport.append_second placement.report⟩

theorem getElem?_positional_of_literal? {raws : List Text} {i : Nat} {raw : Text}
    (hraw : raws[i]? = some raw) (hpositional : isPositional d raw = true) {kind : LiteralKind}
    {text : Text} (hliteral : literal? raw = some (kind, text)) :
    let k := (raws.take i).countP (isPositional d)
    (readArguments d call tag {} raws).value.positional[k]? =
      some (if k = 0 then .ofName text else .ofLiteral kind text) := by
  intro k
  have hcall : isCall raw = false := by
    rw [Bool.eq_false_iff]
    intro h
    rw [literal?_of_isCall h] at hliteral
    cases hliteral
  have hindex : k = ({} : ArgumentList).positional.length + k := (Nat.zero_add k).symm
  rw [hindex, getElem?_positional_readArguments d call tag hraw hpositional {}, ← hindex,
    readArgument_of_isPositional hpositional, readUnbound, if_neg (Bool.eq_false_iff.mp hcall),
    Reported.value_map, readCheckedValue_value, readValue, hliteral]
  cases k <;> rfl

/-- Whether a raw argument is stored as a named one does not depend on its place. Read with named
arguments among them, the others give the positional arguments and the block parameters that they
give alone, the named ones give the bindings that they give alone, and together they report what both
report alone. In particular, whether a literal is taken for a name is a matter of the positional
arguments before it. -/
theorem readArguments_interleaved (raws : List Text) :
    let read := readArguments d call tag {}
    let named := raws.filter (isNamed d)
    let others := raws.filter (! isNamed d ·)
    (∀ index raw, (readArgument d call tag index raw).value.name?.isSome = isNamed d raw) ∧
    (read raws).value.positional = (read others).value.positional ∧
    (read raws).value.blockParams = (read others).value.blockParams ∧
    (read raws).value.named = (read named).value.named ∧
    (read raws).report.SameContents ((read named).report ++ (read others).report) ∧
    ∀ i raw kind text, raws[i]? = some raw → isPositional d raw = true →
      literal? raw = some (kind, text) →
      let k := (raws.take i).countP (isPositional d)
      (read raws).value.positional[k]? =
        some (if k = 0 then .ofName text else .ofLiteral kind text) := by
  intro read named others
  have hempty : Arguments.Joins {} {} {} := ⟨rfl, rfl, rfl⟩
  obtain ⟨hvalue, hreport⟩ := joins_readArguments d call tag raws hempty
  refine ⟨isSome_name?_readArgument d call tag, hvalue.positional, hvalue.blockParams, hvalue.named,
    hreport, ?_⟩
  intro i raw kind text hraw hpositional hliteral
  exact getElem?_positional_of_literal? d call tag hraw hpositional hliteral

end Read

theorem readArguments_interleaved_literals :
    let call := Settings.readCall { dialect := .handlebars } 64
    let raws := ["q=1".toList, "\"x\"".toList, "[r s]=../a".toList, "7".toList]
    let positional := (readArguments .handlebars call [] {} raws).value.positional
    (raws[1]? = some "\"x\"".toList ∧ isPositional .handlebars "\"x\"".toList = true ∧
      literal? "\"x\"".toList = some (.string, "x".toList) ∧
      positional[0]? = some (.ofName "x".toList)) ∧
    raws[3]? = some "7".toList ∧ isPositional .handlebars "7".toList = true ∧
      literal? "7".toList = some (.number, "7".toList) ∧
      positional[1]? = some (.ofLiteral .number "7".toList) := by
  intro call raws positional
  have hpositional : isPositional .handlebars "\"x\"".toList = true ∧
      isPositional .handlebars "7".toList = true := by decide +kernel
  have hliteral : literal? "\"x\"".toList = some (.string, "x".toList) ∧
      literal? "7".toList = some (.number, "7".toList) := by decide +kernel
  have hread := (readArguments_interleaved .handlebars call [] raws).2.2.2.2.2
  have hfirst : raws[1]? = some "\"x\"".toList := rfl
  have hsecond : raws[3]? = some "7".toList := rfl
  exact ⟨⟨hfirst, hpositional.1, hliteral.1, hread 1 _ _ _ hfirst hpositional.1 hliteral.1⟩,
    hsecond, hpositional.2, hliteral.2, hread 3 _ _ _ hsecond hpositional.2 hliteral.2⟩

end TemplateTag
