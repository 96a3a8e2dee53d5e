import Mathlib.Logic.ExistsUnique
import Mathlib.Tactic.SplitIfs
import TemplateTag.Invocation.Basic
/-!
# The grammar of invocations

Token lists of three shapes are invocations, and what each stands for is written down here without
the reader. The faults that a list can have are told one by one, and a list may have several of them.
`ofTokens_iff` says that just the lists of the grammar are accepted, and that of the faults of any
other list the one that comes first is reported.
-/
namespace TemplateTag.Invocation

/-- The token lists that are invocations, with what they stand for. -/
inductive Written : List Token → Invocation → Prop where
  | plain (content : Text) :
      Written [.text content]
        { dialect := { Dialect.handlebars with arbitraryHelpers := true }, content }
  | handlebars (content : Text) :
      Written [.word "handlebars".toList, .punctuation ',', .text content]
        { dialect := { Dialect.handlebars with arbitraryHelpers := true }, content }
  | mustache (content : Text) :
      Written [.word "mustache".toList, .punctuation ',', .text content]
        { dialect := .mustache, content }

/-- The identifier in front. A reserved word is none. -/
def leadingName? : List Token → Option Text
  | .word name :: _ => if name ∈ reserved then none else some name
  | _ => none

/-- The tokens from the place of the literal on, which is behind an identifier and the place of its
comma, whatever stands there. -/
def literalPart (tokens : List Token) : List Token :=
  if (leadingName? tokens).isSome then tokens.drop 2 else tokens

/-- What is read in front of the literal. -/
def front (tokens : List Token) : Except Fault Dialect :=
  match leadingName? tokens with
  | none => .ok defaultDialect
  | some name =>
    if tokens[1]? = some (.punctuation ',') then
      match dialectNamed? name with
      | some d => .ok d
      | none => .error (.unknownDialect name)
    else .error .missingComma

namespace Fault

/-- The faults that a list of tokens has, told without regard to one another. -/
inductive Applies (tokens : List Token) : Fault → Prop where
  | missingComma (hname : (leadingName? tokens).isSome)
      (hcomma : tokens[1]? ≠ some (.punctuation ',')) : Applies tokens missingComma
  | unknownDialect {name : Text} (hname : leadingName? tokens = some name)
      (hhandlebars : name ≠ "handlebars".toList) (hmustache : name ≠ "mustache".toList) :
      Applies tokens (unknownDialect name)
  | noText {found : Token} {rest : List Token} (hpart : literalPart tokens = found :: rest)
      (hfound : ∀ content, found ≠ .text content) : Applies tokens noText
  | nothing (hpart : literalPart tokens = []) : Applies tokens nothing
  | leftover {found second : Token} {rest : List Token}
      (hpart : literalPart tokens = found :: second :: rest) : Applies tokens leftover

/-- The place of a fault in the order of precedence. A missing literal has the same place whether
another token stands there or none. -/
def rank : Fault → Nat
  | notTokens => 0
  | missingComma => 1
  | unknownDialect _ => 2
  | noText | nothing => 3
  | leftover => 4

/-- The list of tokens has the fault, and none that comes before it. -/
structure IsFirst (tokens : List Token) (fault : Fault) : Prop where
  applies : fault.Applies tokens
  rank_le : ∀ other : Fault, other.Applies tokens → fault.rank ≤ other.rank

end Fault

variable {d : Dialect} {inv : Invocation} {fault : Fault} {name : Text} {tokens : List Token}

theorem leadingName?_eq_some :
    leadingName? tokens = some name ↔ name ∉ reserved ∧ ∃ rest, tokens = .word name :: rest := by
  constructor
  · intro h
    unfold leadingName? at h
    split at h
    · next word rest =>
      split at h
      · cases h
      · next hreserved =>
        cases h
        exact ⟨hreserved, rest, rfl⟩
    · cases h
  · rintro ⟨hreserved, rest, rfl⟩
    simp [leadingName?, hreserved]

theorem of_dialectNamed?_eq_some (h : dialectNamed? name = some d) :
    name = "handlebars".toList ∧ d = defaultDialect ∨ name = "mustache".toList ∧ d = .mustache := by
  rw [dialectNamed?] at h
  split_ifs at h with hhandlebars hmustache
  · exact .inl ⟨hhandlebars, (Option.some.inj h).symm⟩
  · exact .inr ⟨hmustache, (Option.some.inj h).symm⟩

theorem dialectNamed?_eq_none :
    dialectNamed? name = none ↔ name ≠ "handlebars".toList ∧ name ≠ "mustache".toList := by
  rw [dialectNamed?]
  split_ifs with hhandlebars hmustache
  · exact iff_of_false nofun fun h => h.1 hhandlebars
  · exact iff_of_false nofun fun h => h.2 hmustache
  · exact iff_of_true rfl ⟨hhandlebars, hmustache⟩

theorem ofLiteral_eq_ok :
    ofLiteral d tokens = .ok inv ↔ tokens = [.text inv.content] ∧ inv.dialect = d := by
  obtain ⟨dialect, content⟩ := inv
  unfold ofLiteral
  split <;> grind

theorem ofTokens_eq (tokens : List Token) :
    ofTokens tokens = (front tokens).bind fun d => ofLiteral d (literalPart tokens) := by
  unfold front
  cases hname : leadingName? tokens with
  | none =>
    have hpart : literalPart tokens = tokens := by simp [literalPart, hname]
    rw [hpart]
    unfold ofTokens
    split
    · next word rest =>
      have hreserved : word ∈ reserved := by simpa [leadingName?] using hname
      simp [hreserved, ofLiteral, Except.bind]
    · rfl
  | some name =>
    obtain ⟨hreserved, rest, rfl⟩ := leadingName?_eq_some.mp hname
    have hpart : literalPart (.word name :: rest) = rest.tail := by simp [literalPart, hname]
    rw [hpart]
    unfold ofTokens
    simp only [List.contains_eq_mem, hreserved, decide_false, Bool.false_eq_true, if_false]
    split
    · cases dialectNamed? name <;> simp [Except.bind]
    · next hcomma =>
      have hmissing : rest[0]? ≠ some (.punctuation ',') := by
        cases rest with
        | nil => simp
        | cons second rest =>
          intro h
          exact hcomma rest (by simpa using h)
      simp [hmissing, Except.bind]

theorem Fault.Applies.le_rank (h : fault.Applies tokens) (hfront : front tokens = .ok d) :
    3 ≤ fault.rank := by
  cases h with
  | missingComma hname hcomma =>
    obtain ⟨name, hname⟩ := Option.isSome_iff_exists.mp hname
    simp [front, hname, hcomma] at hfront
  | unknownDialect hname hhandlebars hmustache =>
    have hnone := dialectNamed?_eq_none.mpr ⟨hhandlebars, hmustache⟩
    by_cases hcomma : tokens[1]? = some (.punctuation ',') <;>
      simp [front, hname, hcomma, hnone] at hfront
  | noText | nothing | leftover => simp [rank]

theorem isFirst_of_front (h : front tokens = .error fault) : fault.IsFirst tokens := by
  unfold front at h
  split at h
  · cases h
  · next name hname =>
    split at h
    · next hcomma =>
      split at h
      · cases h
      · next hnone =>
        cases h
        obtain ⟨hhandlebars, hmustache⟩ := dialectNamed?_eq_none.mp hnone
        refine ⟨.unknownDialect hname hhandlebars hmustache, fun other hother => ?_⟩
        cases hother with
        | missingComma _ hmissing => exact absurd hcomma hmissing
        | _ => simp [Fault.rank]
    · next hcomma =>
      cases h
      refine ⟨.missingComma (by simp [hname]) hcomma, fun other hother => ?_⟩
      cases hother <;> simp [Fault.rank]

theorem applies_of_ofLiteral (h : ofLiteral d (literalPart tokens) = .error fault) :
    fault.Applies tokens ∧
      ∀ other : Fault, other.Applies tokens → 3 ≤ other.rank → fault.rank ≤ other.rank := by
  unfold ofLiteral at h
  split at h
  · cases h
  · next content second rest hpart =>
    cases h
    refine ⟨.leftover hpart, fun other hother hrank => ?_⟩
    cases hother with
    | missingComma | unknownDialect => simp [Fault.rank] at hrank
    | noText hpart' hfound =>
      rw [hpart] at hpart'
      cases hpart'
      exact absurd rfl (hfound content)
    | nothing hpart' => simp [hpart] at hpart'
    | leftover => exact Nat.le_refl _
  · next hpart =>
    cases h
    exact ⟨.nothing hpart, fun other _ hrank => hrank⟩
  · next hone hmore hempty =>
    cases h
    refine ⟨?_, fun other _ hrank => hrank⟩
    cases hpart : literalPart tokens with
    | nil => exact absurd hpart hempty
    | cons found rest =>
      refine .noText hpart ?_
      rintro content rfl
      cases rest with
      | nil => exact hone content hpart
      | cons second rest => exact hmore content second rest hpart

theorem Fault.Applies.ofLiteral_ne_ok (h : fault.Applies tokens) (hrank : 3 ≤ fault.rank) :
    ofLiteral d (literalPart tokens) ≠ .ok inv := by
  intro hok
  have hpart := (ofLiteral_eq_ok.mp hok).1
  cases h with
  | missingComma | unknownDialect => simp [rank] at hrank
  | noText hpart' hfound =>
    rw [hpart] at hpart'
    cases hpart'
    exact hfound _ rfl
  | nothing hpart' => simp [hpart] at hpart'
  | leftover hpart' => simp [hpart] at hpart'

theorem Fault.Applies.ofTokens_ne_ok (h : fault.Applies tokens) : ofTokens tokens ≠ .ok inv := by
  rw [ofTokens_eq]
  cases hfront : front tokens with
  | error first => nofun
  | ok d => exact h.ofLiteral_ne_ok (h.le_rank hfront)

theorem isFirst_of_ofTokens (h : ofTokens tokens = .error fault) : fault.IsFirst tokens := by
  rw [ofTokens_eq] at h
  cases hfront : front tokens with
  | error first =>
    rw [hfront] at h
    cases h
    exact isFirst_of_front hfront
  | ok d =>
    rw [hfront] at h
    obtain ⟨happlies, hleast⟩ := applies_of_ofLiteral h
    exact ⟨happlies, fun other hother => hleast other hother (hother.le_rank hfront)⟩

/-- A list has at most one fault of each rank. -/
theorem Fault.Applies.eq_of_rank_eq {other : Fault} (h : fault.Applies tokens)
    (hother : other.Applies tokens) (hrank : fault.rank = other.rank) : fault = other := by
  -- Of two different faults only the two of a missing literal have the same rank.
  cases h with
  | missingComma => cases hother <;> first | rfl | cases hrank
  | unknownDialect hname =>
    cases hother with
    | unknownDialect hname' =>
      rw [hname] at hname'
      cases hname'
      rfl
    | _ => cases hrank
  | noText hpart =>
    cases hother with
    | noText => rfl
    | nothing hempty => simp [hpart] at hempty
    | _ => cases hrank
  | nothing hempty =>
    cases hother with
    | nothing => rfl
    | noText hpart => simp [hpart] at hempty
    | _ => cases hrank
  | leftover => cases hother <;> first | rfl | cases hrank

theorem Fault.IsFirst.unique {other : Fault} (h : fault.IsFirst tokens)
    (hother : other.IsFirst tokens) : fault = other :=
  h.applies.eq_of_rank_eq hother.applies
    (Nat.le_antisymm (h.rank_le _ hother.applies) (hother.rank_le _ h.applies))

theorem of_front_eq_ok (h : front tokens = .ok d) :
    literalPart tokens = tokens ∧ d = defaultDialect ∨
      ∃ name, tokens = .word name :: .punctuation ',' :: literalPart tokens ∧
        dialectNamed? name = some d := by
  unfold front at h
  split at h
  · next hname =>
    cases h
    exact .inl ⟨by simp [literalPart, hname], rfl⟩
  · next name hname =>
    split_ifs at h with hcomma
    split at h
    · next dialect hdialect =>
      cases h
      have hpart : literalPart tokens = tokens.drop 2 := by simp [literalPart, hname]
      obtain ⟨-, rest, rfl⟩ := leadingName?_eq_some.mp hname
      obtain ⟨rest, rfl⟩ : ∃ rest', rest = .punctuation ',' :: rest' := by
        cases rest with
        | nil => simp at hcomma
        | cons second rest => exact ⟨rest, by simpa using hcomma⟩
      exact .inr ⟨name, by simp [hpart], hdialect⟩
    · cases h

theorem ofTokens_eq_ok : ofTokens tokens = .ok inv ↔ Written tokens inv := by
  constructor
  · intro h
    rw [ofTokens_eq] at h
    cases hfront : front tokens with
    | error first => simp [hfront, Except.bind] at h
    | ok d =>
      rw [hfront] at h
      obtain ⟨hpart, rfl⟩ := ofLiteral_eq_ok.mp h
      obtain ⟨dialect, content⟩ := inv
      rcases of_front_eq_ok hfront with ⟨hall, rfl⟩ | ⟨name, hall, hdialect⟩
      · rw [← hall, hpart]
        exact .plain content
      · rw [hall, hpart]
        rcases of_dialectNamed?_eq_some hdialect with ⟨rfl, rfl⟩ | ⟨rfl, rfl⟩
        · exact .handlebars content
        · exact .mustache content
  · rintro ⟨⟩ <;> rfl

/-- Just the lists of the grammar are accepted. Of every other list one fault is reported, and it is
the first of those that the list has. -/
theorem ofTokens_iff (tokens : List Token) :
    (∀ inv, ofTokens tokens = .ok inv ↔ Written tokens inv) ∧
    (∀ fault, ofTokens tokens = .error fault ↔ fault.IsFirst tokens) ∧
    ((∀ inv, ¬Written tokens inv) → ∃! fault : Fault, fault.IsFirst tokens) := by
  have herror (fault : Fault) : ofTokens tokens = .error fault ↔ fault.IsFirst tokens := by
    refine ⟨isFirst_of_ofTokens, fun h => ?_⟩
    cases hread : ofTokens tokens with
    | ok inv => exact absurd hread h.applies.ofTokens_ne_ok
    | error first => rw [(isFirst_of_ofTokens hread).unique h]
  refine ⟨fun _ => ofTokens_eq_ok, herror, fun hother => ?_⟩
  cases hread : ofTokens tokens with
  | ok inv => exact absurd (ofTokens_eq_ok.mp hread) (hother inv)
  | error fault =>
    have hfirst := isFirst_of_ofTokens hread
    exact ⟨fault, hfirst, fun _ hfirst' => hfirst'.unique hfirst⟩

example : ofTokens [.word "nope".toList, .literal, .group] = .error .missingComma := rfl

end TemplateTag.Invocation
