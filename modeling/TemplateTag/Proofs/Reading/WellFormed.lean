import TemplateTag.Proofs.RawArgument.BlockParams
import TemplateTag.Proofs.Reading.Names
import TemplateTag.Proofs.Reading.Trace
/-!
# Well-formed argument lists

What the arguments in a list look like that was read from a text, whatever the text is. `place` keeps
a list well formed, and what a raw argument is read as fits its place, so that a whole reading leads
to a well-formed list.
-/
namespace TemplateTag

/-- `this` only comes first, before a name and after no steps up, and names are not empty, except for
a name on its own where `free` allows it. -/
structure PathShape (free : Prop) (levels : Nat) (segments : List Segment) : Prop where
  current : ∀ i, segments[i]? = some .current →
    i = 0 ∧ levels = 0 ∧ ∃ name, .name name ∈ segments
  name : ∀ name, .name name ∈ segments → name ≠ [] ∨ free ∧ segments = [.name name]

/-- A text between single quotes. -/
structure IsQuoted (t : Text) : Prop where
  head : t.head? = some '\''
  last : t.getLast? = some '\''
  length : 2 ≤ t.length

/-- A text with something between parentheses. -/
structure IsParenthesized (t : Text) : Prop where
  head : t.head? = some '('
  last : t.getLast? = some ')'
  byteSize : 2 < t.byteSize

/-- What an argument looks like on its own, the arguments of a call left out of account. -/
def Argument.WellFormed (free : Prop) : Argument → Prop
  | path levels segments => PathShape free levels segments
  | literal .number _ => True
  | literal .string text => IsQuoted text
  | literal .keyword text =>
    text ∈ ["true".toList, "false".toList, "null".toList, "undefined".toList]
  | subexpression source _ => IsParenthesized source

/-- The names of block parameters are there, and none is empty or has a blank in it. -/
structure AreBlockParams (d : Dialect) (names : List Text) : Prop where
  advanced : d.advancedVariables = true
  ne_nil : names ≠ []
  name : ∀ name ∈ names, name ≠ [] ∧ ∀ c ∈ name, isBlank c = false

/-- Every argument in the list is well formed, every name in it is given once and not empty, and so
are its block parameters. `free` says which positional arguments may be a path of an empty name. -/
structure ListWellFormed (d : Dialect) (free : Nat → Prop) (l : ArgumentList) : Prop where
  positional : ∀ i (a : Argument), l.positional[i]? = some a → a.WellFormed (free i)
  named : ∀ name (a : Argument), (name, a) ∈ l.named → name ≠ [] ∧ a.WellFormed False
  nodup : (l.named.map Prod.fst).Nodup
  blockParams : ∀ names, l.blockParams = some names → AreBlockParams d names

private theorem getElem?_names_ne (names : List Text) (i : Nat) :
    (names.map Segment.name)[i]? ≠ some .current := by
  rw [List.getElem?_map]
  cases names[i]? <;> simp

private theorem ne_nil_of_mem_names {names : List Text} (h : ∀ name ∈ names, name ≠ [])
    {name : Text} (hname : .name name ∈ names.map Segment.name) : name ≠ [] := by
  obtain ⟨_, hmem, heq⟩ := List.mem_map.mp hname
  cases heq
  exact h name hmem

theorem pathShape_names {names : List Text} (h : ∀ name ∈ names, name ≠ []) (free : Prop)
    (levels : Nat) : PathShape free levels (names.map .name) := by
  constructor
  · intro i hi
    exact absurd hi (getElem?_names_ne names i)
  · intro name hname
    exact .inl (ne_nil_of_mem_names h hname)

theorem pathShape_current {names : List Text} (h : ∀ name ∈ names, name ≠ []) (hne : names ≠ [])
    (free : Prop) : PathShape free 0 (.current :: names.map .name) := by
  constructor
  · intro i hi
    cases i with
    | zero =>
      obtain ⟨name, rest, rfl⟩ := List.exists_cons_of_ne_nil hne
      exact ⟨rfl, rfl, name, by simp⟩
    | succ i =>
      rw [List.getElem?_cons_succ] at hi
      exact absurd hi (getElem?_names_ne names i)
  · intro name hname
    rcases List.mem_cons.mp hname with heq | hname
    · cases heq
    · exact .inl (ne_nil_of_mem_names h hname)

theorem isQuoted_singleQuoted (content : Text) : IsQuoted (singleQuoted content) := by
  refine ⟨rfl, List.getLast?_concat, ?_⟩
  simp [singleQuoted]

theorem isParenthesized_of_isCall {source : Text} (h : isCall source = true) :
    IsParenthesized source := by
  obtain ⟨hsource, hne⟩ := isCall_iff.mp h
  obtain ⟨c, body, hbody⟩ := List.exists_cons_of_ne_nil hne
  have hc := Char.utf8Size_pos c
  have hopen : Char.utf8Size '(' = 1 := by decide
  have hclose : Char.utf8Size ')' = 1 := by decide
  rw [hbody] at hsource
  rw [hsource]
  refine ⟨rfl, List.getLast?_concat, ?_⟩
  simp only [Text.byteSize_append, Text.byteSize, hopen, hclose]
  omega

namespace Argument

theorem WellFormed.mono {free free' : Prop} (hfree : free → free') {a : Argument}
    (h : a.WellFormed free) : a.WellFormed free' := by
  cases a with
  | path levels segments =>
    refine ⟨h.current, ?_⟩
    intro name hname
    exact (h.name name hname).imp_right (And.imp_left hfree)
  | literal kind text => cases kind <;> exact h
  | subexpression source args => exact h

theorem wellFormed_ofName (name : Text) {free : Prop} (hfree : free) :
    (ofName name).WellFormed free := by
  constructor
  · intro i hi
    cases i <;> simp at hi
  · intro name' hname
    cases List.mem_singleton.mp hname
    exact .inr ⟨hfree, rfl⟩

theorem wellFormed_ofString (content : Text) (free : Prop) :
    (ofLiteral .string content).WellFormed free :=
  isQuoted_singleQuoted content

end Argument

theorem mem_keywords_of_literal? {source text : Text} (h : literal? source = some (.keyword, text)) :
    text ∈ keywords := by
  rw [literal?] at h
  split at h
  · cases h
  · split at h
    · cases h
    · split at h
      · cases h
      · split at h
        · next hkeyword =>
          cases h
          simpa using hkeyword
        · cases h

theorem wellFormed_pathArgument (d : Dialect) (head : Bool) (levels : Nat) (rest : Text)
    (free : Prop) : (pathArgument d head levels rest).WellFormed free := by
  rcases pathArgument_cases d head levels rest with ⟨content, h⟩ | ⟨names, hnames, h | ⟨-, hne, h⟩⟩
  · rw [h]
    exact Argument.wellFormed_ofString content free
  · rw [h]
    exact pathShape_names hnames free levels
  · rw [h]
    exact pathShape_current hnames hne free

theorem wellFormed_readValue (d : Dialect) (position : Position) (source : Text) :
    (readValue d position source).value.WellFormed (position.isHead = true) := by
  rw [readValue]
  split
  · next kind text hliteral =>
    rw [Reported.value_pure]
    split
    · next hhead => exact Argument.wellFormed_ofName text hhead
    · cases kind with
      | number => trivial
      | string => exact Argument.wellFormed_ofString text _
      | keyword => exact mem_keywords_of_literal? hliteral
  · rw [readPath_eq]
    exact wellFormed_pathArgument d _ _ _ _

/-- What is put into its place is well formed there. -/
def Placement.WellFormed (d : Dialect) (free : Prop) : Placement → Prop
  | positional a => a.WellFormed free
  | named name a => name ≠ [] ∧ a.WellFormed False
  | blockParams names => AreBlockParams d names

theorem wellFormed_readArgument {d : Dialect} {nested : Bool} {tag inner raw : Text}
    (hraw : raw ∈ (rawArguments d nested tag inner).value)
    (call : Text → Reported ArgumentList) (tag' : Text) (index : Nat) :
    (readArgument d call tag' index raw).value.WellFormed d (index = 0) := by
  rw [readArgument]
  split
  · next hcall => exact isParenthesized_of_isCall hcall
  · split
    · next names hnames =>
      obtain ⟨hadvanced, hne, hname⟩ := blockParamNames_of_mem_rawArguments hraw hnames
      exact ⟨hadvanced, hne, hname⟩
    · split
      · have hvalue := wellFormed_readValue d (.positional index) raw
        rw [← readCheckedValue_value d tag'] at hvalue
        apply hvalue.mono
        intro hhead
        cases index with
        | zero => rfl
        | succ index => cases hhead
      · next b hb =>
        have hkey : b.key ≠ [] := by
          split at hb
          · exact (Binding.of_ofText? hb).1
          · cases hb
        refine ⟨hkey, ?_⟩
        split
        · next hcall => exact isParenthesized_of_isCall hcall
        · have hvalue := wellFormed_readValue d .named b.value
          rw [← readCheckedValue_value d tag'] at hvalue
          apply hvalue.mono
          intro hhead
          cases hhead

theorem listWellFormed_empty (d : Dialect) (free : Nat → Prop) : ListWellFormed d free {} :=
  ⟨nofun, nofun, .nil, nofun⟩

theorem ListWellFormed.place {d : Dialect} {free : Nat → Prop} {l : ArgumentList} {p : Placement}
    (hl : ListWellFormed d free l) (hp : p.WellFormed d (free l.positional.length)) :
    ListWellFormed d free (l.place p) := by
  cases p with
  | positional a =>
    refine ⟨?_, hl.named, hl.nodup, hl.blockParams⟩
    intro i b hb
    have hb : (l.positional ++ [a])[i]? = some b := hb
    rcases Nat.lt_or_ge i l.positional.length with hi | hi
    · rw [List.getElem?_append_left hi] at hb
      exact hl.positional i b hb
    · obtain rfl : i = l.positional.length := by
        have hlt := (List.getElem?_eq_some_iff.mp hb).1
        rw [List.length_append, List.length_singleton] at hlt
        omega
      rw [List.getElem?_concat_length] at hb
      cases hb
      exact hp
  | named name a =>
    refine ⟨hl.positional, ?_, Arguments.nodup_keys_assign hl.nodup, hl.blockParams⟩
    intro key b hb
    rcases Arguments.mem_assign hb with hb | hb
    · exact hl.named key b hb
    · obtain ⟨rfl, rfl⟩ := Prod.mk.inj hb
      exact hp
  | blockParams names =>
    refine ⟨hl.positional, hl.named, hl.nodup, ?_⟩
    intro names' hnames
    cases hnames
    exact hp

theorem ListWellFormed.readArguments {d : Dialect} {nested : Bool} {tag inner : Text}
    {l : ArgumentList} (hl : ListWellFormed d (· = 0) l) {raws : List Text}
    (hraws : ∀ raw ∈ raws, raw ∈ (rawArguments d nested tag inner).value)
    (call : Text → Reported ArgumentList) (tag' : Text) :
    ListWellFormed d (· = 0) (readArguments d call tag' l raws).value := by
  induction raws generalizing l with
  | nil => exact hl
  | cons raw raws ih =>
    have hplaced := hl.place (wellFormed_readArgument (hraws raw (by simp)) call tag' _)
    rw [TemplateTag.readArguments, Reported.value_bind]
    exact ih hplaced fun raw' hraw' => hraws raw' (by simp [hraw'])

theorem wellFormed_readArguments (d : Dialect) (nested : Bool) (tag inner : Text)
    (call : Text → Reported ArgumentList) (tag' : Text) :
    ListWellFormed d (· = 0)
      (readArguments d call tag' {} (rawArguments d nested tag inner).value).value :=
  (listWellFormed_empty d _).readArguments (fun _ hraw => hraw) call tag'

theorem ListWellFormed.placePartial {d : Dialect} {l : ArgumentList}
    (hl : ListWellFormed d (· = 0) l) (tag : Tag) (raws : List Text) :
    ListWellFormed d (fun i => i = 0 ∨ ∃ name, tag.partial? raws = some (i, name))
      (tag.placePartial raws l) := by
  have hpositional (i : Nat) (a : Argument) (ha : l.positional[i]? = some a) :
      a.WellFormed (i = 0 ∨ ∃ name, tag.partial? raws = some (i, name)) :=
    (hl.positional i a ha).mono .inl
  rw [Tag.placePartial]
  split
  · exact ⟨hpositional, hl.named, hl.nodup, hl.blockParams⟩
  · next index name hpartial =>
    refine ⟨?_, hl.named, hl.nodup, hl.blockParams⟩
    intro i a ha
    have ha : (l.positional.set index (.ofName name))[i]? = some a := ha
    by_cases hi : index = i
    · subst hi
      have hlt := (List.getElem?_eq_some_iff.mp ha).1
      rw [List.length_set] at hlt
      rw [List.getElem?_set_self hlt] at ha
      cases ha
      exact Argument.wellFormed_ofName name (.inr ⟨name, hpartial⟩)
    · rw [List.getElem?_set_ne hi] at ha
      exact hpositional i a ha

namespace Settings

variable {s : Settings}

theorem wellFormed_readCall (room : Nat) (source : Text) :
    ListWellFormed s.dialect (· = 0) (s.readCall room source).value := by
  cases room with
  | zero => exact listWellFormed_empty _ _
  | succ room =>
    simp only [readCall, Reported.value_bind, Reported.value_pure]
    exact wellFormed_readArguments s.dialect true source (callBody source) _ _

theorem wellFormed_readTag (tag : Tag) :
    ListWellFormed s.dialect
      (fun i => i = 0 ∨ ∃ name,
        tag.partial? (rawArguments s.dialect false tag.text tag.inner).value = some (i, name))
      (s.readTag tag).value.args := by
  have hargs := wellFormed_readArguments s.dialect false tag.text tag.inner
    (s.readCall s.maxDepth) tag.text
  exact hargs.placePartial tag _

end Settings

theorem infix_of_isCall {source : Text} (h : isCall source = true) :
    Settings.callBody source <:+: source := by
  obtain ⟨hsource, -⟩ := isCall_iff.mp h
  exact ⟨['('], [')'], hsource.symm⟩

/-- A call in a list that was read from a text stands in the text, and its arguments were read from
its own text. -/
theorem HasCall.of_callsFrom {s : Settings} {l args : ArgumentList} {source : Text}
    (h : HasCall l source args) {room : Nat} {inner : Text} (hl : s.CallsFrom room inner l) :
    isCall source = true ∧ source <:+: inner ∧ ∃ room', (s.readCall room' source).value = args := by
  induction h generalizing room inner with
  | here h =>
    obtain ⟨hmade, hvalue⟩ := hl _ _ h
    obtain ⟨hcall, hpart⟩ := of_mem_callsIn hmade
    exact ⟨hcall, hpart, room, hvalue⟩
  | within h hinner ih =>
    obtain ⟨hmade, hvalue⟩ := hl _ _ h
    obtain ⟨hcall, hpart⟩ := of_mem_callsIn hmade
    subst hvalue
    cases room with
    | zero => cases hinner <;> contradiction
    | succ room =>
      obtain ⟨hsource, hbody, hargs⟩ := ih (Settings.callsFrom_readCall room _)
      exact ⟨hsource, hbody.trans ((infix_of_isCall hcall).trans hpart), hargs⟩

end TemplateTag
