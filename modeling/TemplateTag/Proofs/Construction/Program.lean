import TemplateTag.Argument.Basic
import TemplateTag.Proofs.Arguments
/-!
# Programs that build argument lists

What construction code means: a block is a sequence of statements, each of which changes the list
that the block starts with empty. `ofList` is the program for a list, and running it builds the list
again (`run_ofList`) if no name is bound twice in it.
-/
namespace TemplateTag

namespace Construction

mutual

/-- An expression whose value is an argument. -/
inductive Expression where
  | path (levels : Nat) (segments : List Segment)
  | literal (kind : LiteralKind) (text : Text)
  /-- The arguments are those that the block builds. -/
  | subexpression (block : List Statement) (source : Text)

/-- A statement that changes the list of its block. -/
inductive Statement where
  | push (value : Expression)
  | insert (name : Text) (value : Expression)
  | setBlockParams (names : List Text)

end

mutual

def Expression.value : Expression → Argument
  | .path levels segments => .path levels segments
  | .literal kind text => .literal kind text
  | .subexpression block source => .subexpression source (runFrom {} block)

def Statement.perform (l : ArgumentList) : Statement → ArgumentList
  | .push a => l.push a.value
  | .insert name a => l.bindName name a.value
  | .setBlockParams names => l.withBlockParams names

/-- Perform the statements in order. -/
def runFrom (l : ArgumentList) : List Statement → ArgumentList
  | [] => l
  | s :: rest => runFrom (s.perform l) rest

end

/-- The list that a block builds. -/
def run (block : List Statement) : ArgumentList :=
  runFrom {} block

mutual

def Expression.ofArgument : Argument → Expression
  | .path levels segments => .path levels segments
  | .literal kind text => .literal kind text
  | .subexpression source args => .subexpression (Statement.ofList args) source

/-- The program for a list. -/
def Statement.ofList : Arguments Argument → List Statement
  | ⟨positional, named, blockParams⟩ =>
    Statement.pushes positional ++ Statement.insertions named ++
      (blockParams.map Statement.setBlockParams).toList

def Statement.pushes : List Argument → List Statement
  | [] => []
  | a :: rest => .push (.ofArgument a) :: Statement.pushes rest

def Statement.insertions : List (Text × Argument) → List Statement
  | [] => []
  | (name, a) :: rest => .insert name (.ofArgument a) :: Statement.insertions rest

end

theorem Statement.pushes_eq_map (positional : List Argument) :
    Statement.pushes positional = positional.map fun a => .push (.ofArgument a) := by
  induction positional with
  | nil => rfl
  | cons a positional ih => rw [Statement.pushes, ih, List.map_cons]

theorem Statement.insertions_eq_map (named : List (Text × Argument)) :
    Statement.insertions named = named.map fun p => .insert p.1 (.ofArgument p.2) := by
  induction named with
  | nil => rfl
  | cons p named ih => rw [Statement.insertions, ih, List.map_cons]

theorem Statement.ofList_eq (l : ArgumentList) :
    Statement.ofList l = l.positional.map (fun a => .push (.ofArgument a)) ++
      (l.named.map (fun p => .insert p.1 (.ofArgument p.2)) ++
        l.blockParams.toList.map .setBlockParams) := by
  obtain ⟨positional, named, blockParams⟩ := l
  rw [Statement.ofList, Statement.pushes_eq_map, Statement.insertions_eq_map, List.append_assoc]
  cases blockParams <;> rfl

theorem runFrom_append (l : ArgumentList) (block block' : List Statement) :
    runFrom l (block ++ block') = runFrom (runFrom l block) block' := by
  induction block generalizing l with
  | nil => rw [List.nil_append, runFrom]
  | cons s block ih => rw [List.cons_append, runFrom, runFrom, ih]

/-- Running the program for the argument gives it back. -/
def IsRebuilt (a : Argument) : Prop :=
  (Expression.ofArgument a).value = a

theorem runFrom_pushes {positional : List Argument} (h : ∀ a ∈ positional, IsRebuilt a)
    (l : ArgumentList) : runFrom l (Statement.pushes positional) =
      { l with positional := l.positional ++ positional } := by
  induction positional generalizing l with
  | nil => rw [Statement.pushes, runFrom, List.append_nil]
  | cons a positional ih =>
    have ha : (Expression.ofArgument a).value = a := h a (List.mem_cons_self ..)
    rw [Statement.pushes, runFrom, Statement.perform, ha,
      ih fun b hb => h b (List.mem_cons_of_mem a hb)]
    simp [Arguments.push]

theorem runFrom_insertions {named : List (Text × Argument)} (h : ∀ p ∈ named, IsRebuilt p.2)
    (l : ArgumentList) (hnames : ((l.named ++ named).map Prod.fst).Nodup) :
    runFrom l (Statement.insertions named) = { l with named := l.named ++ named } := by
  induction named generalizing l with
  | nil => rw [Statement.insertions, runFrom, List.append_nil]
  | cons p named ih =>
    obtain ⟨name, a⟩ := p
    have ha : (Expression.ofArgument a).value = a := h (name, a) (List.mem_cons_self ..)
    have hnew : name ∉ l.named.map Prod.fst := by
      rw [List.map_append] at hnames
      intro hmem
      exact (List.nodup_append.mp hnames).2.2 name hmem name (List.mem_cons_self ..) rfl
    have hbind : l.bindName name a = { l with named := l.named ++ [(name, a)] } := by
      rw [Arguments.bindName, Arguments.assign_of_not_mem hnew]
    rw [Statement.insertions, runFrom, Statement.perform, ha, hbind,
      ih fun q hq => h q (List.mem_cons_of_mem _ hq)]
    · simp
    · simpa using hnames

theorem run_ofList_of_isRebuilt {l : ArgumentList} (h : ∀ a ∈ l.values, IsRebuilt a)
    (hnames : (l.named.map Prod.fst).Nodup) : run (Statement.ofList l) = l := by
  obtain ⟨positional, named, blockParams⟩ := l
  have hpositional : ∀ a ∈ positional, IsRebuilt a := fun a ha =>
    h a (List.mem_append_left _ ha)
  have hnamed : ∀ p ∈ named, IsRebuilt p.2 := fun p hp =>
    h p.2 (List.mem_append_right _ (List.mem_map_of_mem hp))
  rw [run, Statement.ofList, runFrom_append, runFrom_append, runFrom_pushes hpositional,
    runFrom_insertions hnamed _ (by simpa using hnames)]
  cases blockParams with
  | none => simp [runFrom]
  | some names => simp [runFrom, Statement.perform, Arguments.withBlockParams]

end Construction

/-- An argument list that starts empty and is changed by one operation after another. The arguments
of a call in it are such a list themselves. -/
inductive Buildable : ArgumentList → Prop
  | empty : Buildable {}
  | push {l : ArgumentList} {a : Argument} (h : Buildable l)
    (nested : ∀ source args, a = .subexpression source args → Buildable args) : Buildable (l.push a)
  | bindName {l : ArgumentList} {a : Argument} (name : Text) (h : Buildable l)
    (nested : ∀ source args, a = .subexpression source args → Buildable args) :
    Buildable (l.bindName name a)
  | withBlockParams {l : ArgumentList} (names : List Text) (h : Buildable l) :
    Buildable (l.withBlockParams names)
  | takeBlockParams {l : ArgumentList} (h : Buildable l) : Buildable l.takeBlockParams.2

namespace Construction

theorem isRebuilt_of_nested {a : Argument}
    (h : ∀ source args, a = .subexpression source args →
      (∀ b ∈ args.values, IsRebuilt b) ∧ (args.named.map Prod.fst).Nodup) : IsRebuilt a := by
  cases a with
  | path levels segments => rfl
  | literal kind text => rfl
  | subexpression source args =>
    obtain ⟨hvalues, hnames⟩ := h source args rfl
    rw [IsRebuilt, Expression.ofArgument, Expression.value]
    exact congrArg (Argument.subexpression source) (run_ofList_of_isRebuilt hvalues hnames)

/-- No operation binds a name twice, and what an operation puts into a list can be rebuilt. -/
theorem isRebuilt_of_buildable {l : ArgumentList} (h : Buildable l) :
    (∀ a ∈ l.values, IsRebuilt a) ∧ (l.named.map Prod.fst).Nodup := by
  induction h with
  | empty => exact ⟨nofun, .nil⟩
  | push _ _ ih ihNested =>
    refine ⟨?_, ih.2⟩
    intro b hb
    rcases Arguments.mem_values_push hb with hb | rfl
    · exact ih.1 b hb
    · exact isRebuilt_of_nested ihNested
  | bindName name _ _ ih ihNested =>
    refine ⟨?_, Arguments.nodup_keys_assign ih.2⟩
    intro b hb
    rcases Arguments.mem_values_bindName hb with hb | rfl
    · exact ih.1 b hb
    · exact isRebuilt_of_nested ihNested
  | withBlockParams names _ ih => exact ih
  | takeBlockParams _ ih => exact ih

theorem run_ofList {l : ArgumentList} (h : Buildable l) : run (Statement.ofList l) = l := by
  obtain ⟨hvalues, hnames⟩ := isRebuilt_of_buildable h
  exact run_ofList_of_isRebuilt hvalues hnames

end Construction

end TemplateTag
