import TemplateTag.Proofs.Reading.Calls
/-!
# The nodes of an argument list

A list is a forest: its own arguments, and for every call among them the arguments of the call. The
nodes of the list are the arguments at all depths.
-/
namespace TemplateTag

mutual

/-- The argument and, if it is a call, all arguments inside it. -/
def Argument.nodes : Argument → List Argument
  | .path levels segments => [.path levels segments]
  | .literal kind text => [.literal kind text]
  | .subexpression source args => .subexpression source args :: Arguments.nodes args

/-- The arguments in the list, at all depths. -/
def Arguments.nodes : Arguments Argument → List Argument
  | ⟨positional, named, _⟩ => positionalNodes positional ++ namedNodes named

def positionalNodes : List Argument → List Argument
  | [] => []
  | a :: rest => a.nodes ++ positionalNodes rest

def namedNodes : List (Text × Argument) → List Argument
  | [] => []
  | (_, a) :: rest => a.nodes ++ namedNodes rest

end

private theorem positionalNodes_eq (positional : List Argument) :
    positionalNodes positional = positional.flatMap Argument.nodes := by
  induction positional with
  | nil => rfl
  | cons a positional ih => rw [positionalNodes, ih, List.flatMap_cons]

private theorem namedNodes_eq (named : List (Text × Argument)) :
    namedNodes named = (named.map Prod.snd).flatMap Argument.nodes := by
  induction named with
  | nil => rfl
  | cons p named ih => rw [namedNodes, ih, List.map_cons, List.flatMap_cons]

theorem Arguments.nodes_eq (l : ArgumentList) : l.nodes = l.values.flatMap Argument.nodes := by
  obtain ⟨positional, named, blockParams⟩ := l
  rw [nodes, positionalNodes_eq, namedNodes_eq, values, List.flatMap_append]

theorem Argument.mem_nodes_self (a : Argument) : a ∈ a.nodes := by
  cases a <;> exact List.mem_cons_self ..

theorem HasCall.mem_nodes {l args : ArgumentList} {source : Text} (h : HasCall l source args) :
    .subexpression source args ∈ l.nodes := by
  induction h with
  | here h =>
    rw [Arguments.nodes_eq]
    exact List.mem_flatMap.mpr ⟨_, h, Argument.mem_nodes_self _⟩
  | within h hinner ih =>
    rw [Arguments.nodes_eq]
    exact List.mem_flatMap.mpr ⟨_, h, List.mem_cons_of_mem _ ih⟩

mutual

private theorem hasCall_of_mem_argument {source : Text} {args : ArgumentList} :
    (a : Argument) → .subexpression source args ∈ a.nodes → ∀ l : ArgumentList, a ∈ l.values →
      HasCall l source args
  | .path levels segments, h, l, hl => by simp [Argument.nodes] at h
  | .literal kind text, h, l, hl => by simp [Argument.nodes] at h
  | .subexpression outer inner, h, l, hl => by
    rcases List.mem_cons.mp h with heq | h
    · cases heq
      exact .here hl
    · exact .within hl (hasCall_of_mem_list inner h)

private theorem hasCall_of_mem_list {source : Text} {args : ArgumentList} :
    (l : Arguments Argument) → .subexpression source args ∈ l.nodes → HasCall l source args
  | ⟨positional, named, blockParams⟩, h => by
    rcases List.mem_append.mp h with h | h
    · exact hasCall_of_mem_positional positional h _ fun a ha => List.mem_append_left _ ha
    · exact hasCall_of_mem_named named h _ fun p hp =>
        List.mem_append_right _ (List.mem_map_of_mem hp)

private theorem hasCall_of_mem_positional {source : Text} {args : ArgumentList} :
    (positional : List Argument) → .subexpression source args ∈ positionalNodes positional →
      ∀ l : ArgumentList, (∀ a ∈ positional, a ∈ l.values) → HasCall l source args
  | [], h, l, hl => by cases h
  | a :: rest, h, l, hl => by
    rcases List.mem_append.mp h with h | h
    · exact hasCall_of_mem_argument a h l (hl a (List.mem_cons_self ..))
    · exact hasCall_of_mem_positional rest h l fun b hb => hl b (List.mem_cons_of_mem a hb)

private theorem hasCall_of_mem_named {source : Text} {args : ArgumentList} :
    (named : List (Text × Argument)) → .subexpression source args ∈ namedNodes named →
      ∀ l : ArgumentList, (∀ p ∈ named, p.2 ∈ l.values) → HasCall l source args
  | [], h, l, hl => by cases h
  | (name, a) :: rest, h, l, hl => by
    rcases List.mem_append.mp h with h | h
    · exact hasCall_of_mem_argument a h l (hl (name, a) (List.mem_cons_self ..))
    · exact hasCall_of_mem_named rest h l fun p hp => hl p (List.mem_cons_of_mem _ hp)

end

/-- The calls that stand somewhere in the list are the calls among its nodes. -/
theorem hasCall_iff {l args : ArgumentList} {source : Text} :
    HasCall l source args ↔ .subexpression source args ∈ l.nodes :=
  ⟨HasCall.mem_nodes, hasCall_of_mem_list l⟩

end TemplateTag
