import TemplateTag.Proofs.RawArgument.Opening
import TemplateTag.Proofs.Text.Balance
/-!
# Counting parentheses word by word

The parentheses of a word are only counted at its ends and in one run inside it. `CountedOutside` and
`CountedInside` describe the words for which that is enough, and no others (`countedOutside_iff`,
`countsDepth_iff`).
-/
namespace TemplateTag

/-- The parentheses that the word leaves open stand together, after balanced text. -/
def CountedOutside (word : Text) : Prop :=
  ∃ paired opened plain, word = paired ++ List.replicate opened '(' ++ plain ∧
    paired.Balanced ∧ plain.ParenFree

/-- The word opens parentheses at its start and closes some at its end. What stands between them
leaves as many open as it finds, if it finds as many as the word opens or closes there. -/
def CountedAtEnds (word : Text) : Prop :=
  ∃ opened middle closed,
    word = List.replicate opened '(' ++ middle ++ List.replicate closed ')' ∧
      middle.depthAfter? (max opened closed) = some (max opened closed) ∧
      middle.head? ≠ some '(' ∧ middle.getLast? ≠ some ')'

/-- The parentheses are counted at the ends of the word; or it has none there, and they are counted
as they would be outside a call. -/
def CountedInside (word : Text) : Prop :=
  CountedAtEnds word ∨
    word.head? ≠ some '(' ∧ word.getLast? ≠ some ')' ∧ CountedOutside word

instance (word : Text) : Decidable (CountedOutside word) :=
  decidable_of_iff
    (∃ i ∈ List.range (word.length + 1), ∃ opened ∈ List.range (word.length + 1),
      word = word.take i ++ List.replicate opened '(' ++ word.drop (i + opened) ∧
        Text.Balanced (word.take i) ∧ Text.ParenFree (word.drop (i + opened))) <| by
    constructor
    · rintro ⟨i, -, opened, -, heq, hpaired, hplain⟩
      exact ⟨_, _, _, heq, hpaired, hplain⟩
    · rintro ⟨paired, opened, plain, rfl, hpaired, hplain⟩
      refine ⟨paired.length, List.mem_range.mpr ?_, opened, List.mem_range.mpr ?_, ?_⟩
      · simp only [List.length_append, List.length_replicate]
        omega
      · simp only [List.length_append, List.length_replicate]
        omega
      · simp [hpaired, hplain]

instance (word : Text) : Decidable (CountedAtEnds word) :=
  decidable_of_iff
    (∃ opened ∈ List.range (word.length + 1), ∃ closed ∈ List.range (word.length + 1),
      let middle := (word.drop opened).take (word.length - opened - closed)
      word = List.replicate opened '(' ++ middle ++ List.replicate closed ')' ∧
        Text.depthAfter? (max opened closed) middle = some (max opened closed) ∧
        middle.head? ≠ some '(' ∧ middle.getLast? ≠ some ')') <| by
    constructor
    · rintro ⟨opened, -, closed, -, hword⟩
      exact ⟨_, _, _, hword⟩
    · rintro ⟨opened, middle, closed, rfl, hcounted⟩
      refine ⟨opened, List.mem_range.mpr ?_, closed, List.mem_range.mpr ?_, ?_⟩
      · simp only [List.length_append, List.length_replicate]
        omega
      · simp only [List.length_append, List.length_replicate]
        omega
      have hlength : (List.replicate opened '(' ++ middle ++ List.replicate closed ')').length -
          opened - closed = middle.length := by
        simp only [List.length_append, List.length_replicate]
        omega
      have hmiddle : ((List.replicate opened '(' ++ middle ++ List.replicate closed ')').drop
          opened).take middle.length = middle := by
        simp
      rw [hlength, hmiddle]
      exact ⟨rfl, hcounted⟩

instance (word : Text) : Decidable (CountedInside word) :=
  inferInstanceAs (Decidable (_ ∨ _))

/-- The text has no mark that could protect what is in it. -/
def Text.Unprotected (t : Text) : Prop :=
  '"' ∉ t ∧ '\'' ∉ t ∧ '[' ∉ t

instance (t : Text) : Decidable t.Unprotected :=
  inferInstanceAs (Decidable (_ ∧ _))

section LastOpenRun

variable {paired plain word : Text}

theorem exists_eq_lastOpenRun (c : Char) (t : Text) :
    ∃ before plain : Text,
      c :: t = c :: before ++ List.replicate (lastOpenRun (c :: t)) '(' ++ plain ∧
        plain.ParenFree := by
  let skips : Char → Bool := fun c => c != '(' && c != ')'
  obtain ⟨rest, hrest, -⟩ := Text.exists_eq_run_append '(' (t.reverse.dropWhile skips)
  have hreverse : t.reverse =
      t.reverse.takeWhile skips ++ (List.replicate (lastOpenRun (c :: t)) '(' ++ rest) := by
    rw [lastOpenRun, List.tail_cons, ← hrest, List.takeWhile_append_dropWhile]
  refine ⟨rest.reverse, (t.reverse.takeWhile skips).reverse, ?_, ?_⟩
  · have ht := congrArg List.reverse hreverse
    simp only [List.reverse_reverse, List.reverse_append, List.reverse_replicate] at ht
    rw [List.cons_append, List.cons_append, ← ht]
  · refine ⟨fun hmem => ?_, fun hmem => ?_⟩ <;>
    · have := List.all_eq_true.mp List.all_takeWhile _ (List.mem_reverse.mp hmem)
      simp [skips] at this

theorem depthAfter?_run (hplain : plain.ParenFree) (paired : Text) (opened depth : Nat) :
    (paired ++ List.replicate opened '(' ++ plain).depthAfter? depth =
      (paired.depthAfter? depth).map (· + opened) := by
  rw [Text.depthAfter?_append, Text.depthAfter?_append]
  cases paired.depthAfter? depth with
  | none => rfl
  | some d =>
    rw [Option.bind_some, Text.depthAfter?_opening, Option.bind_some, hplain.balanced.depthAfter?]
    rfl

theorem lastOpenRun_of_depthAfter? {depth : Nat} (h : word.depthAfter? depth = some 0) :
    lastOpenRun word = 0 := by
  cases word with
  | nil => rfl
  | cons c t =>
    obtain ⟨before, plain, hsplit, hplain⟩ := exists_eq_lastOpenRun c t
    rw [hsplit, depthAfter?_run hplain, Option.map_eq_some_iff] at h
    obtain ⟨d, -, hd⟩ := h
    omega

theorem lastOpenRun_of_getLast? (h : word.getLast? = some ')') : lastOpenRun word = 0 := by
  obtain ⟨front, rfl⟩ := List.getLast?_eq_some_iff.mp h
  cases front with
  | nil => rfl
  | cons c t => exact lastOpenRun_of_closed c t

theorem lastOpenRun_append (hne : paired ≠ []) (hpaired : paired.Balanced)
    (hplain : plain.ParenFree) (opened : Nat) :
    lastOpenRun (paired ++ List.replicate opened '(' ++ plain) = opened := by
  cases opened with
  | zero =>
    rw [List.replicate_zero, List.append_nil]
    exact lastOpenRun_of_depthAfter? (Text.balanced_iff.mp (hpaired.append hplain.balanced))
  | succ opened =>
    obtain ⟨c, t, rfl⟩ := List.exists_cons_of_ne_nil hne
    have hskip : ∀ d ∈ plain.reverse, (d != '(' && d != ')') = true := by
      intro d hd
      have hmem := List.mem_reverse.mp hd
      simp only [Bool.and_eq_true, bne_iff_ne]
      exact ⟨fun heq => hplain.1 (heq ▸ hmem), fun heq => hplain.2 (heq ▸ hmem)⟩
    have hdrop : (plain.reverse ++ List.replicate (opened + 1) '(' ++ t.reverse).dropWhile
        (fun c => c != '(' && c != ')') = List.replicate (opened + 1) '(' ++ t.reverse := by
      rw [List.append_assoc, List.dropWhile_append_of_pos hskip]
      rfl
    have hlast : ∀ d ∈ t.reverse.head?, d ≠ '(' := by
      intro d hd heq
      obtain ⟨r, hr⟩ := List.head?_eq_some_iff.mp hd
      have ht : c :: t = (c :: r.reverse) ++ '(' :: [] := by
        have := congrArg List.reverse hr
        rw [List.reverse_reverse, heq] at this
        simp [this]
      rw [ht] at hpaired
      exact Text.depthAfter?_open_ne_zero (by decide) (Text.balanced_iff.mp hpaired)
    rw [lastOpenRun, List.cons_append, List.cons_append, List.tail_cons, List.reverse_append,
      List.reverse_append, List.reverse_replicate, ← List.append_assoc, hdrop,
      Text.runAtStart_replicate_append, Text.runAtStart_eq_zero hlast, Nat.add_zero]

end LastOpenRun

theorem Text.ParenFree.head_ne {t : Text} (h : t.ParenFree) : ∀ c ∈ t.head?, c ≠ '(' :=
  fun _ hc heq => h.1 (heq ▸ List.mem_of_head? hc)

theorem runAtStart_opening {t : Text} (h : ∀ c ∈ t.head?, c ≠ '(') (k : Nat) :
    Text.runAtStart '(' (List.replicate k '(' ++ t) = k := by
  rw [Text.runAtStart_replicate_append, Text.runAtStart_eq_zero h, Nat.add_zero]

theorem openedBy_eq (word : Text) :
    openedBy word = if word.runAtStart '(' = 0 then lastOpenRun word else word.runAtStart '(' := by
  rw [openedBy]
  split
  · next h => rw [if_pos h]
  · next h => rw [if_neg h]

theorem CountedOutside.opening? {word : Text} (h : CountedOutside word) (hmarks : word.Unprotected) :
    ∃ opened, word.depthAfter? 0 = some opened ∧ ∀ started, opening? started word =
      if opened ≠ 0 then some (.parentheses opened)
      else if started && word == "as".toList then some .blockParams else none := by
  obtain ⟨paired, opened, plain, rfl, hpaired, hplain⟩ := h
  refine ⟨opened, ?_, fun started => ?_⟩
  · rw [depthAfter?_run hplain, hpaired.depthAfter?, Option.map_some, Nat.zero_add]
  rw [opening?_of_plain hmarks.1 hmarks.2.1 hmarks.2.2]
  by_cases hne : paired = []
  · subst hne
    rw [List.nil_append]
    cases opened with
    | zero =>
      have hstart : plain.startsIn (· == '(') = false := by
        cases plain with
        | nil => rfl
        | cons c t => exact beq_false_of_ne (hplain.head_ne c rfl)
      have hrun : lastOpenRun plain = 0 :=
        lastOpenRun_of_depthAfter? (hplain.balanced.depthAfter? 0)
      simp [hstart, hrun]
    | succ opened =>
      have hrun := runAtStart_opening hplain.head_ne (opened + 1)
      rw [hrun, List.replicate_succ]
      simp [Text.startsIn, hplain.2]
  · have hfirst : ((paired ++ List.replicate opened '(' ++ plain).startsIn (· == '(') &&
        !(paired ++ List.replicate opened '(' ++ plain).contains ')') = false := by
      obtain ⟨c, t, rfl⟩ := List.exists_cons_of_ne_nil hne
      by_cases hc : c = '('
      · have hmem : ')' ∈ c :: t := hpaired.mem_closing (hc ▸ List.mem_cons_self ..)
        simp only [List.append_assoc, Bool.and_eq_false_iff, Bool.not_eq_false',
          List.contains_iff_mem]
        exact .inr (List.mem_append_left _ hmem)
      · simp [Text.startsIn, hc]
    rw [hfirst, if_neg Bool.false_ne_true, lastOpenRun_append hne hpaired hplain]
    simp

theorem countedOutside_of_runAtStart {word : Text}
    (h : word.depthAfter? 0 = some (word.runAtStart '(')) (hclosing : ')' ∉ word) :
    CountedOutside word := by
  obtain ⟨plain, hsplit, -⟩ := Text.exists_eq_run_append '(' word
  refine ⟨[], _, plain, hsplit, by decide, ?_, fun hmem => hclosing ?_⟩
  · have hcount := (Text.depthAfter?_eq_some.mp h).2
    have hopening := congrArg (List.count '(') hsplit
    rw [List.count_append, List.count_replicate_self] at hopening
    rw [List.count_eq_zero.mpr hclosing] at hcount
    exact List.count_eq_zero.mp (by omega)
  · rw [hsplit]
    exact List.mem_append_right _ hmem

theorem countedOutside_of_lastOpenRun {word : Text}
    (h : word.depthAfter? 0 = some (lastOpenRun word)) : CountedOutside word := by
  cases word with
  | nil => exact ⟨[], 0, [], rfl, by decide, by decide⟩
  | cons c t =>
    obtain ⟨before, plain, hsplit, hplain⟩ := exists_eq_lastOpenRun c t
    generalize lastOpenRun (c :: t) = opened at h hsplit
    refine ⟨c :: before, opened, plain, hsplit, ?_, hplain⟩
    rw [hsplit, depthAfter?_run hplain, Option.map_eq_some_iff] at h
    obtain ⟨d, hd, hsum⟩ := h
    rw [Text.balanced_iff, hd, Nat.add_eq_right.mp hsum]

private theorem eq_of_parentheses {m n : Nat}
    (h : (if m ≠ 0 then some (Construct.parentheses m) else none) =
      if n ≠ 0 then some (Construct.parentheses n) else none) : m = n := by
  by_cases hm : m = 0 <;> by_cases hn : n = 0 <;> simp_all

/-- Outside an argument, a word opens the parentheses that it leaves open just if it is counted. -/
theorem countedOutside_iff {word : Text} (hmarks : word.Unprotected) :
    CountedOutside word ↔ ∃ opened, word.depthAfter? 0 = some opened ∧ ∀ started,
      opening? started word =
        if opened ≠ 0 then some (.parentheses opened)
        else if started && word == "as".toList then some .blockParams else none := by
  refine ⟨fun h => h.opening? hmarks, fun h => ?_⟩
  obtain ⟨opened, hdepth, hopened⟩ := h
  have hfresh := (hopened false).symm.trans (opening?_of_plain hmarks.1 hmarks.2.1 hmarks.2.2 false)
  simp only [Bool.false_and, Bool.false_eq_true, if_false, bne_iff_ne] at hfresh
  by_cases hfirst : (word.startsIn (· == '(') && !word.contains ')') = true
  · have heq : opened = word.runAtStart '(' := by
      rw [if_pos hfirst] at hfresh
      split at hfresh
      · simpa using hfresh
      · cases hfresh
    have hclosing : ')' ∉ word := by simpa using (Bool.and_eq_true_iff.mp hfirst).2
    exact countedOutside_of_runAtStart (heq ▸ hdepth) hclosing
  · rw [if_neg hfirst] at hfresh
    have heq : opened = lastOpenRun word := eq_of_parentheses hfresh
    exact countedOutside_of_lastOpenRun (heq ▸ hdepth)

/-- Inside a call the word changes the depth by what is counted as opened and as closed by it. -/
def CountsDepth (word : Text) : Prop :=
  ∀ depth, word.depthAfter? depth =
    if word.runAtEnd ')' ≤ depth + openedBy word then
      some (depth + openedBy word - word.runAtEnd ')')
    else none

section Ends

variable {middle : Text}

theorem runAtStart_ends (h : middle.head? ≠ some '(') (opened closed : Nat) :
    Text.runAtStart '(' (List.replicate opened '(' ++ middle ++ List.replicate closed ')') =
      opened := by
  rw [List.append_assoc]
  refine runAtStart_opening (fun c hc heq => ?_) opened
  cases middle with
  | nil => exact absurd (List.eq_of_mem_replicate (List.mem_of_head? hc)) (by simp [heq])
  | cons e t => exact h (heq ▸ hc)

theorem runAtEnd_ends (h : middle.getLast? ≠ some ')') (opened closed : Nat) :
    Text.runAtEnd ')' (List.replicate opened '(' ++ middle ++ List.replicate closed ')') =
      closed := by
  refine Text.runAtEnd_append_replicate (fun d hd heq => ?_) closed
  rw [List.getLast?_append] at hd
  cases hend : middle.getLast? with
  | none =>
    rw [hend, Option.none_or] at hd
    exact absurd (List.eq_of_mem_replicate (List.mem_of_getLast? hd)) (by simp [heq])
  | some e =>
    rw [hend, Option.some_or] at hd
    exact h (hend.trans (hd.trans (congrArg some heq)))

theorem exists_ends (word : Text) :
    ∃ opened middle closed,
      word = List.replicate opened '(' ++ middle ++ List.replicate closed ')' ∧
        middle.head? ≠ some '(' ∧ middle.getLast? ≠ some ')' := by
  obtain ⟨rest, hword, hrest⟩ := Text.exists_eq_run_append '(' word
  obtain ⟨middle, hmiddle, hlast⟩ := Text.exists_eq_append_run ')' rest
  refine ⟨_, middle, _, by rw [List.append_assoc, ← hmiddle]; exact hword, ?_, hlast⟩
  intro hhead
  rw [hmiddle, List.head?_append, hhead] at hrest
  exact hrest rfl

/-- What stands between the ends is read at all depths that the word can stand at, and it keeps each
of them just if it keeps the lowest one at which the word does not close too much. -/
theorem countsDepth_ends_iff {opened closed : Nat} (hlast : middle.getLast? ≠ some ')')
    (hopened : openedBy (List.replicate opened '(' ++ middle ++ List.replicate closed ')') = opened) :
    CountsDepth (List.replicate opened '(' ++ middle ++ List.replicate closed ')') ↔
      middle.depthAfter? (max opened closed) = some (max opened closed) := by
  have hdepth (depth : Nat) :
      Text.depthAfter? depth (List.replicate opened '(' ++ middle ++ List.replicate closed ')') =
        (middle.depthAfter? (depth + opened)).bind fun d =>
          if closed ≤ d then some (d - closed) else none := by
    rw [Text.depthAfter?_append, Text.depthAfter?_append, Text.depthAfter?_opening,
      Option.bind_some]
    simp only [Text.depthAfter?_closing]
  constructor
  · intro h
    have hlowest := h (max opened closed - opened)
    have hmax : max opened closed - opened + opened = max opened closed := by omega
    rw [hdepth, hopened, runAtEnd_ends hlast, hmax, if_pos (by omega)] at hlowest
    obtain ⟨d, hd, hclosed⟩ := Option.bind_eq_some_iff.mp hlowest
    split at hclosed
    · have hsame := Option.some.inj hclosed
      have heq : d = max opened closed := by omega
      rw [hd, heq]
    · cases hclosed
  · intro h depth
    rw [hdepth, hopened, runAtEnd_ends hlast]
    by_cases hle : closed ≤ depth + opened
    · rw [Text.depthAfter?_of_le h (by omega), Option.bind_some]
    · rw [if_neg hle]
      cases hd : middle.depthAfter? (depth + opened) with
      | none => rfl
      | some d =>
        have hsame := Text.depthAfter?_change hd h
        rw [Option.bind_some, if_neg (by omega)]

end Ends

theorem CountedAtEnds.countsDepth {word : Text} (h : CountedAtEnds word) : CountsDepth word := by
  obtain ⟨opened, middle, closed, rfl, hmiddle, hhead, hlast⟩ := h
  refine (countsDepth_ends_iff hlast ?_).mpr hmiddle
  rw [openedBy_eq, runAtStart_ends hhead]
  split
  · next hzero =>
    rw [hzero, Nat.zero_max] at hmiddle
    rw [hzero]
    apply lastOpenRun_of_depthAfter?
    show Text.depthAfter? closed _ = some 0
    rw [List.replicate_zero, List.nil_append, Text.depthAfter?_append, hmiddle, Option.bind_some,
      Text.depthAfter?_closing, if_pos (Nat.le_refl _), Nat.sub_self]
  · rfl

theorem CountedOutside.countsDepth {word : Text} (h : CountedOutside word)
    (hhead : word.head? ≠ some '(') (hlast : word.getLast? ≠ some ')') : CountsDepth word := by
  obtain ⟨paired, opened, plain, rfl, hpaired, hplain⟩ := h
  have hclosed : Text.runAtEnd ')' (paired ++ List.replicate opened '(' ++ plain) = 0 :=
    Text.runAtEnd_eq_zero_iff.mpr hlast
  have hopened : openedBy (paired ++ List.replicate opened '(' ++ plain) = opened := by
    have hstart : Text.runAtStart '(' (paired ++ List.replicate opened '(' ++ plain) = 0 :=
      Text.runAtStart_eq_zero_iff.mpr hhead
    rw [openedBy_eq, hstart, if_pos rfl]
    by_cases hne : paired = []
    · subst hne
      cases opened with
      | zero => exact lastOpenRun_of_depthAfter? (hplain.balanced.depthAfter? 0)
      | succ opened => exact absurd rfl hhead
    · exact lastOpenRun_append hne hpaired hplain opened
  intro depth
  rw [hclosed, hopened, depthAfter?_run hplain, hpaired.depthAfter?, Option.map_some,
    if_pos (Nat.zero_le _), Nat.sub_zero]

/-- The words whose parentheses change the depth as they are counted. -/
theorem countsDepth_iff {word : Text} : CountsDepth word ↔ CountedInside word := by
  constructor
  · intro h
    by_cases hinner : word.runAtStart '(' = 0 ∧ lastOpenRun word ≠ 0
    · obtain ⟨hstart, hrun⟩ := hinner
      have hlast : word.getLast? ≠ some ')' := fun hend => hrun (lastOpenRun_of_getLast? hend)
      have hclosed : word.runAtEnd ')' = 0 := Text.runAtEnd_eq_zero_iff.mpr hlast
      have hdepth := h 0
      rw [hclosed, openedBy_eq, if_pos hstart, if_pos (Nat.zero_le _), Nat.zero_add,
        Nat.sub_zero] at hdepth
      exact .inr ⟨Text.runAtStart_eq_zero_iff.mp hstart, hlast, countedOutside_of_lastOpenRun hdepth⟩
    · obtain ⟨opened, middle, closed, rfl, hhead, hlast⟩ := exists_ends word
      refine .inl ⟨opened, middle, closed, rfl, (countsDepth_ends_iff hlast ?_).mp h, hhead, hlast⟩
      rw [runAtStart_ends hhead] at hinner
      rw [openedBy_eq, runAtStart_ends hhead]
      split
      · next hzero => rw [hzero] at hinner ⊢; simpa using hinner
      · rfl
  · intro h
    rcases h with h | ⟨hhead, hlast, h⟩
    · exact h.countsDepth
    · exact h.countsDepth hhead hlast

-- The word closes what it opens and the call around it, with two pairs side by side.
example : CountedInside "(a)(b))".toList := by decide +kernel

end TemplateTag
