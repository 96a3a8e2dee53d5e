import TemplateTag.Diagnostic
/-!
# Reports

Reading a tag has a result and, beside it, a report: the diagnostics in the order they were found
and a count of the features that were used. A `Reported` value carries both, and two readings in a
row append their reports. Nothing that is read can look at a report, which is why the result of a
reading does not depend on what was read before.
-/
namespace TemplateTag

/-- How often the template stepped out to a parent context and how many subexpressions it has. -/
structure Usage where
  parents : Nat := 0
  subexpressions : Nat := 0
  deriving DecidableEq

structure Report where
  diagnostics : List Diagnostic := []
  usage : Usage := {}
  deriving DecidableEq

namespace Report

instance : Append Report where
  append r s :=
    { diagnostics := r.diagnostics ++ s.diagnostics
      usage :=
        { parents := r.usage.parents + s.usage.parents
          subexpressions := r.usage.subexpressions + s.usage.subexpressions } }

@[simp] theorem diagnostics_append (r s : Report) :
    (r ++ s).diagnostics = r.diagnostics ++ s.diagnostics := rfl

@[simp] theorem parents_append (r s : Report) :
    (r ++ s).usage.parents = r.usage.parents + s.usage.parents := rfl

@[simp] theorem subexpressions_append (r s : Report) :
    (r ++ s).usage.subexpressions = r.usage.subexpressions + s.usage.subexpressions := rfl

@[ext] theorem ext {r s : Report} (diagnostics : r.diagnostics = s.diagnostics)
    (parents : r.usage.parents = s.usage.parents)
    (subexpressions : r.usage.subexpressions = s.usage.subexpressions) : r = s := by
  obtain ⟨d, p, u⟩ := r
  obtain ⟨d', p', u'⟩ := s
  simp_all

@[simp] theorem empty_append (r : Report) : ({} : Report) ++ r = r := by
  ext <;> simp

@[simp] theorem append_empty (r : Report) : r ++ ({} : Report) = r := by
  ext <;> simp

theorem append_assoc (r s t : Report) : r ++ s ++ t = r ++ (s ++ t) := by
  ext <;> simp [Nat.add_assoc]

end Report

/-- A result with the report of how it was reached. -/
structure Reported (α : Type) where
  value : α
  report : Report := {}

namespace Reported

instance : Monad Reported where
  pure a := { value := a }
  bind x f := { value := (f x.value).value, report := x.report ++ (f x.value).report }

@[simp] theorem value_pure {α : Type} (a : α) : (pure a : Reported α).value = a := rfl

@[simp] theorem report_pure {α : Type} (a : α) : (pure a : Reported α).report = {} := rfl

@[simp] theorem value_bind {α β : Type} (x : Reported α) (f : α → Reported β) :
    (x >>= f).value = (f x.value).value := rfl

@[simp] theorem report_bind {α β : Type} (x : Reported α) (f : α → Reported β) :
    (x >>= f).report = x.report ++ (f x.value).report := rfl

@[simp] theorem value_map {α β : Type} (f : α → β) (x : Reported α) :
    (f <$> x).value = f x.value := rfl

@[simp] theorem report_map {α β : Type} (f : α → β) (x : Reported α) :
    (f <$> x).report = x.report := by
  change x.report ++ ({} : Report) = x.report
  simp

instance : LawfulMonad Reported :=
  .mk' _
    (fun x => by
      change Reported.mk x.value (x.report ++ ({} : Report)) = x
      rw [Report.append_empty])
    (fun a f => by
      change Reported.mk (f a).value (({} : Report) ++ (f a).report) = f a
      rw [Report.empty_append])
    (fun x f g => by
      change Reported.mk _ (_ ++ _ ++ _) = Reported.mk _ (_ ++ (_ ++ _))
      rw [Report.append_assoc]
      rfl)

/-- Put a diagnostic into the report. -/
def diagnose (d : Diagnostic) : Reported Unit :=
  { value := (), report := { diagnostics := [d] } }

/-- Count steps to a parent context. -/
def countParents (n : Nat) : Reported Unit :=
  { value := (), report := { usage := { parents := n } } }

/-- Count one subexpression. -/
def countSubexpression : Reported Unit :=
  { value := (), report := { usage := { subexpressions := 1 } } }

@[simp] theorem report_diagnose (d : Diagnostic) :
    (diagnose d).report = { diagnostics := [d] } := rfl

@[simp] theorem report_countParents (n : Nat) :
    (countParents n).report = { usage := { parents := n } } := rfl

@[simp] theorem report_countSubexpression :
    countSubexpression.report = { usage := { subexpressions := 1 } } := rfl

end Reported

end TemplateTag
