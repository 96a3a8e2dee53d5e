import TemplateTag.Proofs.RawArgument.Opening
import TemplateTag.Proofs.Written.Basic
/-!
# The depth of written arguments

A printed argument inside a call leaves the count of open parentheses as it was, whatever closes
right after it. The restriction on calls without arguments is needed here and nowhere else.
-/
namespace TemplateTag

open Runs

section Characters

theorem keyText_ink (key : Option Name) : ∀ c ∈ keyText key, isBlank c = false := by
  cases key with
  | none => simp [keyText]
  | some k => exact List.forall_mem_append.mpr ⟨k.ink, List.forall_mem_singleton.mpr rfl⟩

theorem not_mem_keyText (key : Option Name) {c : Char} (hc : isNameChar c = false) (heq : c ≠ '=') :
    c ∉ keyText key := by
  cases key with
  | none => simp [keyText]
  | some k =>
    intro h
    rcases List.mem_append.mp h with h | h
    · exact k.not_mem hc h
    · exact heq (List.mem_singleton.mp h)

theorem exists_keyText_eq (key : Option Name) :
    keyText key = [] ∨ ∃ c t, c.isAlpha = true ∧ keyText key = c :: (t ++ ['=']) := by
  cases key with
  | none => exact .inl rfl
  | some k =>
    obtain ⟨c, t, htext, hc⟩ := k.exists_cons
    refine .inr ⟨c, t, hc, ?_⟩
    rw [keyText, htext, List.cons_append]

theorem not_mem_plain (key : Option Name) {v : Written} (hv : ∀ helper args, v ≠ .call helper args)
    {c : Char} (hc : c ∈ "'()[]".toList) : c ∉ keyText key ++ v.text := by
  have hname : isNameChar c = false ∧ c ≠ '=' ∧ c ≠ '"' ∧ c ∈ "\"'\\()[]".toList := by
    have hcases : c = '\'' ∨ c = '(' ∨ c = ')' ∨ c = '[' ∨ c = ']' := by simpa using hc
    rcases hcases with rfl | rfl | rfl | rfl | rfl <;>
      exact ⟨by decide, by decide, by decide, by simp⟩
  obtain ⟨hchar, heq, hquote, hmark⟩ := hname
  intro h
  rcases List.mem_append.mp h with h | h
  · exact not_mem_keyText key hchar heq h
  · cases v with
    | name n => exact n.not_mem hchar (by simpa [Written.text] using h)
    | string p => exact p.not_mem hmark (by simpa [Written.text, hquote] using h)
    | call helper args => exact hv helper args rfl

/-- The first word of a call with arguments. -/
def callHead (key : Option Name) (helper : Name) : Text :=
  keyText key ++ '(' :: helper.text

theorem callHead_ne_nil (key : Option Name) (helper : Name) : callHead key helper ≠ [] := by
  simp [callHead]

theorem callHead_ink (key : Option Name) (helper : Name) :
    ∀ c ∈ callHead key helper, isBlank c = false := by
  have hcall : ∀ c ∈ '(' :: helper.text, isBlank c = false :=
    List.forall_mem_cons.mpr ⟨rfl, helper.ink⟩
  exact List.forall_mem_append.mpr ⟨keyText_ink key, hcall⟩

private theorem getLast_callHead_ne (key : Option Name) (helper : Name) :
    ∀ d ∈ (callHead key helper).getLast?, d ≠ ')' := by
  intro d hd
  have hmem : d ∈ helper.text := by
    rw [callHead, List.getLast?_append, List.getLast?_cons] at hd
    cases hlast : helper.text.getLast? with
    | none => exact absurd (List.getLast?_eq_none_iff.mp hlast) helper.text_ne_nil
    | some e =>
      obtain rfl : e = d := by simpa [hlast] using hd
      exact List.mem_of_getLast? hlast
  rintro rfl
  exact helper.not_mem (by decide) hmem

theorem lastOpenRun_callHead (key : Option Name) (helper : Name) (hkey : keyText key ≠ []) :
    lastOpenRun (callHead key helper) = 1 := by
  obtain ⟨c, t, -, hkey⟩ := (exists_keyText_eq key).resolve_left hkey
  rw [callHead, hkey]
  simp only [List.cons_append, List.append_assoc, List.nil_append]
  apply lastOpenRun_eq_one (by decide)
  intro e he
  constructor
  · rintro rfl
    exact helper.not_mem (by decide) he
  · rintro rfl
    exact helper.not_mem (by decide) he

theorem openedBy_callHead (key : Option Name) (helper : Name) :
    openedBy (callHead key helper) = 1 := by
  by_cases hkey : keyText key = []
  · rw [callHead, hkey]
    apply openedBy_paren
    rintro d hd rfl
    exact helper.not_mem (by decide) (List.mem_of_head? hd)
  · have hstart : (callHead key helper).runAtStart '(' = 0 := by
      obtain ⟨c, t, hc, hkey⟩ := (exists_keyText_eq key).resolve_left hkey
      apply Text.runAtStart_eq_zero
      rintro d hd rfl
      obtain rfl : c = '(' := by simpa [callHead, hkey] using hd
      cases hc
    rw [openedBy, hstart]
    exact lastOpenRun_callHead key helper hkey

end Characters

section Depth

private theorem call_append_replicate (key : Option Name) (helper : Name) (args : WrittenList)
    (closed : Nat) :
    ' ' :: (keyText key ++ (Written.call helper args).text) ++ List.replicate closed ')' =
      [' '] ++ (callHead key helper ++ (args.text ++ List.replicate (closed + 1) ')')) := by
  simp [Written.text, callHead, List.replicate_succ]

theorem isBlank_head_arguments (args : WrittenList) :
    ∀ c ∈ args.text.head?, isBlank c = true := by
  cases args with
  | nil => simp [WrittenList.text]
  | cons key value rest =>
    intro c hc
    obtain rfl : ' ' = c := by simpa [WrittenList.text] using hc
    decide

theorem isBlank_getLast_argument (key : Option Name) (v : Written) :
    ∀ c ∈ (' ' :: (keyText key ++ v.text)).getLast?, isBlank c = false := by
  intro c hc
  apply v.isBlank_getLast c
  have hlast := List.getLast?_eq_some_getLast v.text_ne_nil
  rw [hlast]
  simpa [List.getLast?_cons, List.getLast?_append, hlast] using hc

private theorem keepsDepth_bareCall (helper : Name) :
    KeepsDepth (' ' :: (keyText none ++ (Written.call helper .nil).text)) := by
  intro depth closed first rest hdepth hle
  let word : Text := callHead none helper ++ List.replicate (closed + 1) ')'
  have hink : ∀ c ∈ word, isBlank c = false :=
    List.forall_mem_append.mpr ⟨callHead_ink none helper, closers_ink (closed + 1)⟩
  have hwords := Text.words_gap_ink blank_space (x := word) (by simp [word]) hink
  have hopened : openedBy word = 1 := by
    apply openedBy_paren
    rintro d hd rfl
    obtain ⟨c, t, htext, hc⟩ := helper.exists_cons
    obtain rfl : c = '(' := by simpa [htext] using hd
    cases hc
  have hclosed : Text.runAtEnd ')' word = closed + 1 :=
    Text.runAtEnd_append_replicate (getLast_callHead_ne none helper) (closed + 1)
  have hnext : (State.inside (.parentheses depth) first rest).next ⟨[' '], word⟩ =
      some (State.closing (depth + 1) (closed + 1) first (rest ++ [⟨[' '], word⟩])) :=
    State.next_parentheses hopened hclosed (by omega) first rest
  rw [call_append_replicate, WrittenList.text, List.nil_append, hwords,
    State.advance_singleton hnext, State.closing_succ]

private theorem keepsDepth_call (key : Option Name) (helper : Name) {args : WrittenList}
    (hne : args ≠ .nil) (hargs : KeepsDepth args.text) :
    KeepsDepth (' ' :: (keyText key ++ (Written.call helper args).text)) := by
  intro depth closed first rest hdepth hle
  have hhead : ∀ c ∈ (args.text ++ List.replicate (closed + 1) ')').head?, isBlank c = true := by
    cases args with
    | nil => exact absurd rfl hne
    | cons key value more =>
      intro c hc
      obtain rfl : ' ' = c := by simpa [WrittenList.text] using hc
      decide
  have hwords := Text.words_gap_ink_append blank_space (callHead_ne_nil key helper)
    (callHead_ink key helper) hhead
  have hclosed : Text.runAtEnd ')' (callHead key helper) = 0 := by
    have h := Text.runAtEnd_append_replicate (getLast_callHead_ne key helper) 0
    simpa using h
  have hnext : (State.inside (.parentheses depth) first rest).next ⟨[' '], callHead key helper⟩ =
      some (State.closing (depth + 1) 0 first (rest ++ [⟨[' '], callHead key helper⟩])) :=
    State.next_parentheses (openedBy_callHead key helper) hclosed (Nat.zero_le _) first rest
  rw [State.closing, if_neg (by omega), Nat.sub_zero] at hnext
  rw [call_append_replicate, hwords, State.advance_cons hnext,
    hargs (depth + 1) (closed + 1) _ _ (by omega) (by omega), State.closing_succ]
  simp

private theorem keepsDepth_plain (key : Option Name) {v : Written}
    (hv : ∀ helper args, v ≠ .call helper args) :
    KeepsDepth (' ' :: (keyText key ++ v.text)) := by
  apply keepsDepth_of_plain
  · obtain ⟨c, t, htext, -⟩ := v.exists_text_eq_cons
    have hc : isBlank c = false := v.isBlank_head c (by simp [htext])
    exact Text.words_ne_nil (c := c) (by simp [htext]) hc
  · exact isBlank_getLast_argument key v
  · simpa using not_mem_plain key hv (c := '(') (by decide)
  · simpa using not_mem_plain key hv (c := ')') (by decide)

mutual

theorem keepsDepth_argument (key : Option Name) : (v : Written) → v.WellFormed →
    (key ≠ none → ∀ helper, v ≠ .call helper .nil) →
    KeepsDepth (' ' :: (keyText key ++ v.text))
  | .name n, _, _ => keepsDepth_plain key nofun
  | .string p, _, _ => keepsDepth_plain key nofun
  | .call helper .nil, _, hbare => by
    cases key with
    | none => exact keepsDepth_bareCall helper
    | some k => exact absurd rfl (hbare (by simp) helper)
  | .call helper (.cons key' value rest), hwf, _ => by
    obtain ⟨-, hbare, hargs⟩ := hwf
    exact keepsDepth_call key helper nofun (keepsDepth_arguments _ nofun hargs hbare)

theorem keepsDepth_arguments : (args : WrittenList) → args ≠ .nil → args.WellFormed →
    args.NoBareCallNamed → KeepsDepth args.text
  | .nil, hne, _, _ => absurd rfl hne
  | .cons key value rest, _, hwf, hbare => by
    have hvalue := keepsDepth_argument key value hwf.1 hbare.head
    have htext : (WrittenList.cons key value rest).text =
        ' ' :: (keyText key ++ value.text) ++ rest.text := by rw [WrittenList.text]
    rw [htext]
    by_cases hrest : rest = .nil
    · rw [hrest, WrittenList.text, List.append_nil]
      exact hvalue
    · apply hvalue.append (keepsDepth_arguments rest hrest hwf.2 hbare.tail)
        (isBlank_getLast_argument key value)
      · cases rest with
        | nil => exact absurd rfl hrest
        | cons => simp [WrittenList.text]
      · exact isBlank_head_arguments rest

end

end Depth

end TemplateTag
