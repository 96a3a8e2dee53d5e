import TemplateTag.Proofs.Arguments
/-!
# Operations on argument lists

A new list is changed by one operation after another. Its three parts are a view of these operations
(`Reflects`): the arguments that were pushed, for each name the last argument that was bound to it,
and the last block parameters, unless they were taken out again.
-/
namespace TemplateTag.Arguments

variable {α : Type}

/-- What can be done with an argument list. -/
inductive Operation (α : Type) where
  | push (a : α)
  | bindName (name : Text) (a : α)
  | setBlockParams (names : List Text)
  | takeBlockParams

namespace Operation

/-- The argument that the operation pushes. -/
def pushed? : Operation α → Option α
  | push a => some a
  | _ => none

/-- The name that the operation binds. -/
def boundName? : Operation α → Option Text
  | bindName name _ => some name
  | _ => none

def Binds (name : Text) (op : Operation α) : Prop :=
  op.boundName? = some name

/-- The operation sets the block parameters or takes them out. -/
def TouchesBlockParams : Operation α → Prop
  | setBlockParams _ => True
  | takeBlockParams => True
  | _ => False

/-- The operation was performed, and none of its kind came after it. -/
def IsLast (kind : Operation α → Prop) (op : Operation α) (ops : List (Operation α)) : Prop :=
  ∃ before after, ops = before ++ op :: after ∧ ∀ later ∈ after, ¬kind later

variable {kind : Operation α → Prop} {op last : Operation α} {ops : List (Operation α)}

theorem not_isLast_nil : ¬IsLast kind op [] := by
  intro ⟨before, after, h, _⟩
  cases before <;> cases h

theorem isLast_append_singleton :
    IsLast kind op (ops ++ [last]) ↔ op = last ∨ ¬kind last ∧ IsLast kind op ops := by
  constructor
  · intro ⟨before, after, heq, hafter⟩
    rcases List.eq_nil_or_concat after with rfl | ⟨after', later, rfl⟩
    · have hend : [last] = [op] := (List.append_inj' heq rfl).2
      exact .inl (List.singleton_inj.mp hend).symm
    · rw [List.concat_eq_append] at hafter heq
      have hsplit : ops ++ [last] = (before ++ op :: after') ++ [later] := by
        rw [heq, List.append_assoc, List.cons_append]
      obtain ⟨hops, hend⟩ := List.append_inj' hsplit rfl
      apply Or.inr
      rw [List.singleton_inj.mp hend]
      exact ⟨hafter later (by simp), before, after', hops, fun o ho => hafter o (by simp [ho])⟩
  · intro h
    rcases h with rfl | ⟨hlast, before, after, rfl, hafter⟩
    · exact ⟨ops, [], rfl, nofun⟩
    · refine ⟨before, after ++ [last], by simp, ?_⟩
      intro o ho
      rcases List.mem_append.mp ho with ho | ho
      · exact hafter o ho
      · rwa [List.mem_singleton.mp ho]

end Operation

open Operation

/-- The list after an operation. -/
def perform (l : Arguments α) : Operation α → Arguments α
  | .push a => l.push a
  | .bindName name a => l.bindName name a
  | .setBlockParams names => l.withBlockParams names
  | .takeBlockParams => l.takeBlockParams.2

def performAll (l : Arguments α) (ops : List (Operation α)) : Arguments α :=
  ops.foldl perform l

section Bindings

variable {name : Text} {a : α} {bindings : List (Text × α)}

theorem keys_assign : (assign name a bindings).map Prod.fst =
    if name ∈ bindings.map Prod.fst then bindings.map Prod.fst
    else bindings.map Prod.fst ++ [name] := by
  induction bindings with
  | nil => rfl
  | cons p bindings ih =>
    obtain ⟨other, b⟩ := p
    rw [assign]
    by_cases hname : other = name
    · simp [hname]
    · rw [if_neg hname, List.map_cons, ih, List.map_cons]
      by_cases hmem : name ∈ bindings.map Prod.fst
      · rw [if_pos hmem, if_pos (List.mem_cons_of_mem _ hmem)]
      · have hnew : name ∉ other :: bindings.map Prod.fst :=
          not_or.mpr ⟨Ne.symm hname, hmem⟩ ∘ List.mem_cons.mp
        rw [if_neg hmem, if_neg hnew, List.cons_append]

private theorem lookup_cons_eq (key : Text) (p : Text × α) :
    (p :: bindings).lookup key = if key = p.1 then some p.2 else bindings.lookup key := by
  rw [List.lookup_cons]
  by_cases hkey : key = p.1
  · rw [if_pos hkey, beq_iff_eq.mpr hkey]
  · rw [if_neg hkey, beq_false_of_ne hkey]

theorem lookup_assign (key : Text) : (assign name a bindings).lookup key =
    if key = name then some a else bindings.lookup key := by
  induction bindings with
  | nil => exact lookup_cons_eq key (name, a)
  | cons p bindings ih =>
    obtain ⟨other, b⟩ := p
    rw [assign]
    by_cases hname : other = name
    · rw [if_pos hname, lookup_cons_eq, lookup_cons_eq, hname]
      split <;> rfl
    · rw [if_neg hname, lookup_cons_eq, lookup_cons_eq, ih]
      by_cases hkey : key = name
      · have hne : key ≠ other := fun h => hname (h.symm.trans hkey)
        rw [if_neg hne, if_pos hkey, if_pos hkey]
      · rw [if_neg hkey, if_neg hkey]

theorem mem_iff_lookup (h : (bindings.map Prod.fst).Nodup) (key : Text) (b : α) :
    (key, b) ∈ bindings ↔ bindings.lookup key = some b := by
  constructor
  · intro hmem
    obtain ⟨before, after, rfl⟩ := List.append_of_mem hmem
    rw [List.map_append, List.map_cons, List.nodup_append] at h
    apply List.lookup_eq_some_iff.mpr
    refine ⟨before, after, rfl, ?_⟩
    intro p hp
    rw [bne_iff_ne, ne_comm]
    exact h.2.2 p.1 (List.mem_map_of_mem hp) key (List.mem_cons_self ..)
  · intro hlookup
    obtain ⟨before, after, rfl, -⟩ := List.lookup_eq_some_iff.mp hlookup
    exact List.mem_append_right before (List.mem_cons_self ..)

theorem eraseDups_append_singleton (names : List Text) (name : Text) :
    (names ++ [name]).eraseDups =
      if name ∈ names then names.eraseDups else names.eraseDups ++ [name] := by
  rw [List.eraseDups_append]
  by_cases hmem : name ∈ names <;> simp [List.removeAll, List.eraseDups_cons, hmem]

end Bindings

section Perform

variable (l : Arguments α) (op : Operation α)

theorem positional_perform : (l.perform op).positional = l.positional ++ op.pushed?.toList := by
  cases op <;> simp [perform, push, bindName, withBlockParams, takeBlockParams, pushed?]

theorem keys_perform : (l.perform op).named.map Prod.fst =
    match op.boundName? with
    | none => l.named.map Prod.fst
    | some name =>
      if name ∈ l.named.map Prod.fst then l.named.map Prod.fst
      else l.named.map Prod.fst ++ [name] := by
  cases op with
  | bindName name a => exact keys_assign
  | _ => rfl

theorem lookup?_perform (name : Text) (a : α) : (l.perform op).lookup? name = some a ↔
    .bindName name a = op ∨ ¬op.Binds name ∧ l.lookup? name = some a := by
  cases op with
  | bindName other b =>
    change (assign other b l.named).lookup name = some a ↔ _
    rw [lookup_assign]
    by_cases hname : name = other
    · simp [hname, Binds, boundName?, eq_comm]
    · have hother : other ≠ name := Ne.symm hname
      simp [hname, hother, Binds, boundName?, lookup?]
  | _ => simp [Binds, boundName?]; rfl

theorem blockParams_perform (names : List Text) : (l.perform op).blockParams = some names ↔
    .setBlockParams names = op ∨ ¬op.TouchesBlockParams ∧ l.blockParams = some names := by
  cases op <;>
    simp [perform, push, bindName, withBlockParams, takeBlockParams, TouchesBlockParams, eq_comm]

end Perform

/-- The list is what the operations lead to. -/
structure Reflects (l : Arguments α) (ops : List (Operation α)) : Prop where
  /-- The arguments that were pushed, in order. -/
  positional : l.positional = ops.filterMap Operation.pushed?
  /-- Each name that was bound, in the order in which they were bound first. -/
  keys : l.named.map Prod.fst = (ops.filterMap Operation.boundName?).eraseDups
  nodup : (l.named.map Prod.fst).Nodup
  /-- A name is bound to the last argument that it was bound to. -/
  lookup? : ∀ name a, l.lookup? name = some a ↔ IsLast (Binds name) (.bindName name a) ops
  /-- The block parameters are the last ones that were set, if they were not taken out. -/
  blockParams : ∀ names, l.blockParams = some names ↔
    IsLast TouchesBlockParams (.setBlockParams names) ops

namespace Reflects

theorem nil : Reflects ({} : Arguments α) [] where
  positional := rfl
  keys := rfl
  nodup := .nil
  lookup? _ _ := iff_of_false nofun not_isLast_nil
  blockParams _ := iff_of_false nofun not_isLast_nil

theorem perform {l : Arguments α} {ops : List (Operation α)} (h : l.Reflects ops)
    (op : Operation α) : (l.perform op).Reflects (ops ++ [op]) where
  positional := by
    rw [positional_perform, h.positional, List.filterMap_append]
    cases hop : op.pushed? <;> simp [hop]
  keys := by
    rw [keys_perform, h.keys, List.filterMap_append]
    cases hop : op.boundName? with
    | none => simp [hop]
    | some name => simp [hop, eraseDups_append_singleton]
  nodup := by
    cases op with
    | bindName name a => exact nodup_keys_assign h.nodup
    | _ => exact h.nodup
  lookup? name a := by
    rw [lookup?_perform, isLast_append_singleton, h.lookup? name a]
  blockParams names := by
    rw [blockParams_perform, isLast_append_singleton, h.blockParams names]

theorem performAll {l : Arguments α} {ops : List (Operation α)} (h : l.Reflects ops)
    (more : List (Operation α)) : (l.performAll more).Reflects (ops ++ more) := by
  induction more generalizing l ops with
  | nil => rwa [List.append_nil]
  | cons op more ih =>
    have hmore := ih (h.perform op)
    rwa [List.append_assoc, List.singleton_append] at hmore

variable {l : Arguments α} {ops : List (Operation α)}

theorem lookup?_eq_none (h : l.Reflects ops) (name : Text) :
    l.lookup? name = none ↔ ∀ a, .bindName name a ∉ ops := by
  have hkey : name ∈ l.named.map Prod.fst ↔ ∃ a, .bindName name a ∈ ops := by
    rw [h.keys, List.mem_eraseDups, List.mem_filterMap]
    constructor
    · intro ⟨op, hop, hname⟩
      cases op with
      | bindName other a =>
        cases hname
        exact ⟨a, hop⟩
      | _ => cases hname
    · intro ⟨a, ha⟩
      exact ⟨_, ha, rfl⟩
  have hnone : l.lookup? name = none ↔ name ∉ l.named.map Prod.fst := by
    rw [Arguments.lookup?, List.lookup_eq_none_iff, List.mem_map, not_exists]
    simp only [bne_iff_ne, not_and, ne_comm (a := name), ne_eq]
  rw [hnone, hkey, not_exists]

theorem isEmpty_iff (h : l.Reflects ops) : l.isEmpty = true ↔
    (∀ op ∈ ops, op.pushed? = none ∧ op.boundName? = none) ∧ l.blockParams = none := by
  have hpositional : l.positional = [] ↔ ∀ op ∈ ops, op.pushed? = none := by
    rw [h.positional, List.filterMap_eq_nil_iff]
  have hnamed : l.named = [] ↔ ∀ op ∈ ops, op.boundName? = none := by
    rw [← List.map_eq_nil_iff (f := Prod.fst), h.keys, List.eq_nil_iff_forall_not_mem]
    simp only [List.mem_eraseDups, ← List.eq_nil_iff_forall_not_mem, List.filterMap_eq_nil_iff]
  simp only [isEmpty, Bool.and_eq_true, List.isEmpty_iff, Option.isNone_iff_eq_none, hpositional,
    hnamed, forall_and]

end Reflects

/-- Whatever is done with a new list, it shows all of it and nothing else. Taking the block
parameters out gives them once and leaves the rest of the list as it is. -/
theorem performAll_new (ops : List (Operation α)) :
    let l := performAll ({} : Arguments α) ops
    l.Reflects ops ∧
      (∀ name a, (name, a) ∈ l.named ↔ l.lookup? name = some a) ∧
      (∀ name, l.lookup? name = none ↔ ∀ a, .bindName name a ∉ ops) ∧
      (l.isEmpty = true ↔
        (∀ op ∈ ops, op.pushed? = none ∧ op.boundName? = none) ∧ l.blockParams = none) ∧
      l.takeBlockParams.1 = l.blockParams ∧
      l.takeBlockParams.2 = { l with blockParams := none } ∧
      l.takeBlockParams.2.Reflects (ops ++ [.takeBlockParams]) := by
  intro l
  have h : l.Reflects ops := Reflects.nil.performAll ops
  refine ⟨h, ?_, h.lookup?_eq_none, h.isEmpty_iff, rfl, rfl, h.perform .takeBlockParams⟩
  intro name a
  exact mem_iff_lookup h.nodup name a

end TemplateTag.Arguments
