import TemplateTag.Proofs.RawArgument.Counting
import TemplateTag.Proofs.Text.Span
/-!
# Reading balanced text

If the parentheses of each word are counted where it stands (`CountedByWords`), the state of the
reading knows how many are open. A text is then cut to its end if and only if it is balanced, and the
pieces of a balanced text are balanced.
-/
namespace TemplateTag

/-- The words up to the first one with a bar at its end. -/
def throughBar : List Word → List Word
  | [] => []
  | w :: ws => if w.text.endsWith '|' then [w] else w :: throughBar ws

/-- The parentheses of a word are counted at the depth it stands at, and block parameters that follow
it have none. -/
def CountedWord (before : List Word) (w : Word) (after : List Word) : (depth : Option Nat) → Prop
  | none => True
  | some 0 => CountedOutside w.text ∧
    (before ≠ [] → w.text = "as".toList → ∀ v ∈ throughBar after, v.text.ParenFree)
  | some (_ + 1) => CountedInside w.text

instance (before : List Word) (w : Word) (after : List Word) :
    (depth : Option Nat) → Decidable (CountedWord before w after depth)
  | none => inferInstanceAs (Decidable True)
  | some 0 => inferInstanceAs (Decidable (_ ∧ _))
  | some (_ + 1) => inferInstanceAs (Decidable (CountedInside w.text))

/-- The parentheses of all words after the first ones are counted. -/
def CountedAfter (before : List Word) : List Word → Prop
  | [] => True
  | w :: after =>
    CountedWord before w after ((Word.flatten before).depthAfter? 0) ∧
      CountedAfter (before ++ [w]) after

instance decidableCountedAfter (before : List Word) :
    (ws : List Word) → Decidable (CountedAfter before ws)
  | [] => inferInstanceAs (Decidable True)
  | w :: after =>
    have := decidableCountedAfter (before ++ [w]) after
    inferInstanceAs (Decidable (_ ∧ _))

/-- The parentheses of all words are counted. It is enough for the count to be right, but it can come
out right without: `)(` and `a) (b` are reported although the first word of each is not counted. -/
abbrev CountedByWords (ws : List Word) : Prop :=
  CountedAfter [] ws

theorem parenFree_of_blank {t : Text} (h : ∀ c ∈ t, isBlank c = true) : t.ParenFree :=
  ⟨fun hmem => absurd (h _ hmem) (by decide), fun hmem => absurd (h _ hmem) (by decide)⟩

namespace Word.Proper

variable {w : Word}

theorem depthAfter?_append (hw : w.Proper) (t : Text) (depth : Nat) :
    (t ++ Word.flatten [w]).depthAfter? depth =
      (t.depthAfter? depth).bind fun d => w.text.depthAfter? d := by
  have hgap := (parenFree_of_blank hw.gap_blank).balanced
  rw [Text.depthAfter?_append]
  congr 1
  funext d
  rw [Word.flatten_cons, Word.flatten_nil, List.append_nil, Text.depthAfter?_append,
    hgap.depthAfter?, Option.bind_some]

theorem depthAfter?_flatten (hw : w.Proper) (before : List Word) (depth : Nat) :
    (Word.flatten (before ++ [w])).depthAfter? depth =
      ((Word.flatten before).depthAfter? depth).bind fun d => w.text.depthAfter? d := by
  rw [Word.flatten_append, hw.depthAfter?_append]

end Word.Proper

namespace Runs.State

/-- What the state has counted in the words before, and what is known of the words after it. -/
def Tracks (before after : List Word) : State → Prop
  | between started =>
    (Word.flatten before).depthAfter? 0 = some 0 ∧ (started = true → before ≠ [])
  | inside (.parentheses depth) first rest =>
    0 < depth ∧ (Word.flatten before).depthAfter? 0 = some depth ∧
      Text.depthAfter? 0 (first.text ++ Word.flatten rest) = some depth
  | inside .blockParams first rest =>
    (Word.flatten before).depthAfter? 0 = some 0 ∧
      Text.ParenFree (first.text ++ Word.flatten rest) ∧ ∀ v ∈ throughBar after, v.text.ParenFree
  | inside _ _ _ => False

variable {before after : List Word} {w : Word}

theorem Tracks.next_between {started : Bool} (hs : (between started).Tracks before (w :: after))
    (hcounted : CountedWord before w after ((Word.flatten before).depthAfter? 0)) (hw : w.Proper)
    (hmarks : w.text.Unprotected) :
    ∃ done s', (between started).next w = some (done, s') ∧ (∀ r ∈ done, r.text.Balanced) ∧
      s'.Tracks (before ++ [w]) after := by
  obtain ⟨hdepth, hstarted⟩ := hs
  rw [hdepth] at hcounted
  obtain ⟨opened, hopened, hopening⟩ := (countedOutside_iff hmarks).mp hcounted.1
  have hafter : (Word.flatten (before ++ [w])).depthAfter? 0 = some opened := by
    rw [hw.depthAfter?_flatten, hdepth, Option.bind_some, hopened]
  have hword := hopening started
  -- A word that leaves nothing open starts block parameters or is an argument by itself; any other
  -- one waits for the words that close it.
  by_cases hzero : opened = 0
  · subst hzero
    rw [if_neg (by decide)] at hword
    by_cases has : (started && w.text == "as".toList) = true
    · rw [if_pos has] at hword
      simp only [Bool.and_eq_true, beq_iff_eq] at has
      refine ⟨[], inside .blockParams w [], by rw [next, hword], by simp, hafter, ?_, ?_⟩
      · rw [has.2]
        decide
      · exact hcounted.2 (hstarted has.1) has.2
    · rw [if_neg has] at hword
      refine ⟨[⟨w, [], false⟩], between true, by rw [next, hword], ?_, hafter, by simp⟩
      intro r hr
      rw [List.mem_singleton.mp hr, Text.balanced_iff]
      simpa [Run.text] using hopened
  · rw [if_pos hzero] at hword
    refine ⟨[], inside (.parentheses opened) w [], by rw [next, hword], by simp,
      Nat.pos_of_ne_zero hzero, hafter, ?_⟩
    simpa using hopened

theorem Tracks.next_parentheses {depth : Nat} {first : Word} {rest : List Word}
    (hs : (inside (.parentheses depth) first rest).Tracks before (w :: after))
    (hcounted : CountedWord before w after ((Word.flatten before).depthAfter? 0)) (hw : w.Proper) :
    ((inside (.parentheses depth) first rest).next w = none ∧
      (Word.flatten (before ++ [w])).depthAfter? 0 = none) ∨
    ∃ done s', (inside (.parentheses depth) first rest).next w = some (done, s') ∧
      (∀ r ∈ done, r.text.Balanced) ∧ s'.Tracks (before ++ [w]) after := by
  obtain ⟨hpos, hdepth, hpending⟩ := hs
  have hword : CountsDepth w.text := by
    obtain ⟨d, rfl⟩ := Nat.exists_eq_add_of_lt hpos
    rw [hdepth, Nat.zero_add] at hcounted
    exact countsDepth_iff.mpr hcounted
  have hafter : (Word.flatten (before ++ [w])).depthAfter? 0 = w.text.depthAfter? depth := by
    rw [hw.depthAfter?_flatten, hdepth, Option.bind_some]
  have hrun : Text.depthAfter? 0 (first.text ++ Word.flatten (rest ++ [w])) =
      w.text.depthAfter? depth := by
    rw [Word.flatten_append, ← List.append_assoc, hw.depthAfter?_append, hpending,
      Option.bind_some]
  rw [hword] at hafter hrun
  by_cases hle : w.text.runAtEnd ')' ≤ depth + openedBy w.text
  · rw [if_pos hle] at hafter hrun
    refine .inr ?_
    rw [Runs.State.next_parentheses rfl rfl hle, closing]
    by_cases heq : w.text.runAtEnd ')' = depth + openedBy w.text
    · rw [heq, Nat.sub_self] at hafter hrun
      refine ⟨_, between true, by rw [if_pos heq], ?_, hafter, by simp⟩
      intro r hr
      rw [List.mem_singleton.mp hr, Text.balanced_iff]
      exact hrun
    · exact ⟨_, inside (.parentheses _) first _, by rw [if_neg heq], by simp, by omega, hafter,
        hrun⟩
  · rw [if_neg hle] at hafter
    refine .inl ⟨?_, hafter⟩
    have hstep : (Construct.parentheses depth).step w.text = .overclosed :=
      Construct.step_eq_overclosed.mpr ⟨depth, rfl, Nat.lt_of_not_le hle⟩
    rw [next, hstep]

theorem Tracks.next_blockParams {first : Word} {rest : List Word}
    (hs : (inside .blockParams first rest).Tracks before (w :: after)) (hw : w.Proper) :
    ∃ done s', (inside .blockParams first rest).next w = some (done, s') ∧
      (∀ r ∈ done, r.text.Balanced) ∧ s'.Tracks (before ++ [w]) after := by
  obtain ⟨hdepth, hpending, hparams⟩ := hs
  have hplain : w.text.ParenFree := by
    refine hparams w ?_
    rw [throughBar]
    split <;> exact List.mem_cons_self ..
  have hafter : (Word.flatten (before ++ [w])).depthAfter? 0 = some 0 := by
    rw [hw.depthAfter?_flatten, hdepth, Option.bind_some, hplain.balanced.depthAfter?]
  have hrun : Text.ParenFree (first.text ++ Word.flatten (rest ++ [w])) := by
    rw [Word.flatten_append, ← List.append_assoc, Word.flatten_cons, Word.flatten_nil,
      List.append_nil]
    exact hpending.append ((parenFree_of_blank hw.gap_blank).append hplain)
  by_cases hbar : w.text.endsWith '|' = true
  · have hstep : Construct.blockParams.step w.text = .closed := by
      rw [Construct.step, Construct.endingWith, if_pos hbar]
    refine ⟨_, between true, by rw [next, hstep], ?_, hafter, by simp⟩
    intro r hr
    rw [List.mem_singleton.mp hr]
    exact Text.ParenFree.balanced
      ⟨fun h => hrun.1 (List.mem_append_right _ h), fun h => hrun.2 (List.mem_append_right _ h)⟩
  · have hstep : Construct.blockParams.step w.text = .stillOpen .blockParams := by
      rw [Construct.step, Construct.endingWith, if_neg hbar]
    refine ⟨_, inside .blockParams first _, by rw [next, hstep], by simp, hafter, hrun,
      fun v hv => hparams v ?_⟩
    rw [throughBar, if_neg hbar]
    exact List.mem_cons_of_mem w hv

/-- A word either closes more parentheses than are open, or the state keeps count. -/
theorem Tracks.next {s : State} (hs : s.Tracks before (w :: after))
    (hcounted : CountedWord before w after ((Word.flatten before).depthAfter? 0)) (hw : w.Proper)
    (hmarks : w.text.Unprotected) :
    (s.next w = none ∧ (Word.flatten (before ++ [w])).depthAfter? 0 = none) ∨
    ∃ done s', s.next w = some (done, s') ∧ (∀ r ∈ done, r.text.Balanced) ∧
      s'.Tracks (before ++ [w]) after := by
  cases s with
  | between started => exact .inr (hs.next_between hcounted hw hmarks)
  | inside c first rest =>
    cases c with
    | parentheses depth => exact hs.next_parentheses hcounted hw
    | blockParams => exact .inr (hs.next_blockParams hw)
    | _ => exact hs.elim

theorem Tracks.advance {s : State} (hs : s.Tracks before after)
    (hcounted : CountedAfter before after) (hproper : ∀ w ∈ after, w.Proper)
    (hmarks : ∀ w ∈ after, w.text.Unprotected) :
    (s.advance after = none ∧ (Word.flatten (before ++ after)).depthAfter? 0 = none) ∨
    ∃ done s', s.advance after = some (done, s') ∧ (∀ r ∈ done, r.text.Balanced) ∧
      s'.Tracks (before ++ after) [] := by
  induction after generalizing before s with
  | nil =>
    refine .inr ⟨[], s, advance_nil s, by simp, ?_⟩
    rwa [List.append_nil]
  | cons w after ih =>
    have hsplit : before ++ w :: after = before ++ [w] ++ after := by simp
    rw [hsplit]
    rcases hs.next hcounted.1 (hproper w (by simp)) (hmarks w (by simp)) with
      ⟨hnext, hdepth⟩ | ⟨done, s', hnext, hdone, hs'⟩
    · refine .inl ⟨by rw [State.advance, hnext], ?_⟩
      rw [Word.flatten_append, Text.depthAfter?_append, hdepth, Option.bind_none]
    · rcases ih hs' hcounted.2 (fun v hv => hproper v (by simp [hv]))
        (fun v hv => hmarks v (by simp [hv])) with
        ⟨hrest, hdepth⟩ | ⟨later, s'', hrest, hlater, hs''⟩
      · exact .inl ⟨by rw [advance_cons hnext, hrest]; rfl, hdepth⟩
      · refine .inr ⟨done ++ later, s'', by rw [advance_cons hnext, hrest]; rfl, ?_, hs''⟩
        exact fun r hr => (List.mem_append.mp hr).elim (hdone r) (hlater r)

end Runs.State

namespace Runs

/-- The words are read to their end, with nothing left open, if and only if they are balanced, and
then so is each run of them. -/
theorem ofWords_of_counted {ws : List Word} (hcounted : CountedByWords ws)
    (hproper : ∀ w ∈ ws, w.Proper) (hmarks : ∀ w ∈ ws, w.text.Unprotected) :
    ((ofWords ws).ending = .complete ↔ (Word.flatten ws).Balanced) ∧
      ((Word.flatten ws).Balanced → ∀ r ∈ (ofWords ws).runs, r.text.Balanced) := by
  rw [Text.balanced_iff]
  have hstart : (State.between false).Tracks [] ws := ⟨rfl, by simp⟩
  rcases hstart.advance hcounted hproper hmarks with
    ⟨hadvance, hdepth⟩ | ⟨done, s, hadvance, hdone, hs⟩
  · rw [List.nil_append] at hdepth
    obtain ⟨_, _, _, done, _, _, _, -, -, -, hscan⟩ := scan_of_advance_eq_none hadvance
    rw [ofWords, hscan, hdepth]
    exact ⟨by simp, by simp⟩
  · rw [List.nil_append] at hs
    rw [ofWords, scan_of_advance_eq_some hadvance]
    cases s with
    | between started => exact ⟨iff_of_true rfl hs.1, fun _ => hdone⟩
    | inside c first rest =>
      cases c with
      | parentheses depth =>
        obtain ⟨hpos, hdepth, -⟩ := hs
        have hne : (Construct.parentheses depth).ending ≠ .complete := by simp [Construct.ending]
        rw [hdepth, Option.some.injEq]
        exact ⟨iff_of_false hne (by omega), fun h => by omega⟩
      | blockParams =>
        obtain ⟨hdepth, hpending, -⟩ := hs
        refine ⟨iff_of_true rfl hdepth, fun _ r hr => ?_⟩
        rcases List.mem_append.mp hr with hr | hr
        · exact hdone r hr
        · rw [List.mem_singleton.mp hr]
          exact hpending.balanced
      | _ => exact hs.elim

end Runs

end TemplateTag
