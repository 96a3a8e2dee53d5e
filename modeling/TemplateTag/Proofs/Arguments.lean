import TemplateTag.Arguments
/-!
# What is in an argument list

Pushing an argument or binding a name puts one argument into a list and leaves the others where they
are. A name that is there keeps its place, and a new one goes to the end.
-/
namespace TemplateTag

namespace Arguments

variable {α : Type}

/-- The arguments of a list, with and without a name. -/
def values (l : Arguments α) : List α :=
  l.positional ++ l.named.map Prod.snd

theorem mem_values_push {l : Arguments α} {a b : α} (h : a ∈ (l.push b).values) :
    a ∈ l.values ∨ a = b := by
  simp only [values, push, List.mem_append, List.mem_singleton] at h ⊢
  rcases h with (h | h) | h
  · exact .inl (.inl h)
  · exact .inr h
  · exact .inl (.inr h)

theorem mem_assign {name : Text} {a : α} {bindings : List (Text × α)} {p : Text × α}
    (h : p ∈ assign name a bindings) : p ∈ bindings ∨ p = (name, a) := by
  induction bindings with
  | nil => exact .inr (List.mem_singleton.mp h)
  | cons q bindings ih =>
    obtain ⟨other, b⟩ := q
    rw [assign] at h
    by_cases hname : other = name
    · rw [if_pos hname, hname] at h
      rcases List.mem_cons.mp h with rfl | h
      · exact .inr rfl
      · exact .inl (List.mem_cons_of_mem _ h)
    · rw [if_neg hname] at h
      rcases List.mem_cons.mp h with rfl | h
      · exact .inl (List.mem_cons_self ..)
      · exact (ih h).imp_left (List.mem_cons_of_mem _)

theorem mem_values_bindName {l : Arguments α} {name : Text} {a b : α}
    (h : a ∈ (l.bindName name b).values) : a ∈ l.values ∨ a = b := by
  rw [values, bindName, List.mem_append] at h
  rcases h with h | h
  · exact .inl (List.mem_append_left _ h)
  · obtain ⟨p, hp, rfl⟩ := List.mem_map.mp h
    rcases mem_assign hp with hp | rfl
    · exact .inl (List.mem_append_right _ (List.mem_map_of_mem hp))
    · exact .inr rfl

section Bindings

variable {name : Text} {a : α} {bindings : List (Text × α)}

theorem mem_keys_assign {key : Text} :
    key ∈ (assign name a bindings).map Prod.fst ↔ key = name ∨ key ∈ bindings.map Prod.fst := by
  induction bindings with
  | nil => simp [assign]
  | cons p bindings ih =>
    obtain ⟨other, b⟩ := p
    rw [assign]
    by_cases hname : other = name
    · simp [hname]
    · rw [if_neg hname, List.map_cons, List.mem_cons, ih, List.map_cons, List.mem_cons]
      exact or_left_comm

theorem nodup_keys_assign (h : (bindings.map Prod.fst).Nodup) :
    ((assign name a bindings).map Prod.fst).Nodup := by
  induction bindings with
  | nil => simp [assign]
  | cons p bindings ih =>
    obtain ⟨other, b⟩ := p
    rw [List.map_cons, List.nodup_cons] at h
    rw [assign]
    by_cases hname : other = name
    · rw [if_pos hname, List.map_cons, List.nodup_cons]
      exact h
    · rw [if_neg hname, List.map_cons, List.nodup_cons, mem_keys_assign]
      exact ⟨not_or.mpr ⟨hname, h.1⟩, ih h.2⟩

theorem assign_of_not_mem (h : name ∉ bindings.map Prod.fst) (a : α) :
    assign name a bindings = bindings ++ [(name, a)] := by
  induction bindings with
  | nil => rfl
  | cons p bindings ih =>
    obtain ⟨other, b⟩ := p
    have hne : other ≠ name := fun heq => h (by simp [heq])
    have hrest : name ∉ bindings.map Prod.fst := fun hmem => h (by simp [hmem])
    rw [assign, if_neg hne, ih hrest, List.cons_append]

end Bindings

end Arguments

end TemplateTag
