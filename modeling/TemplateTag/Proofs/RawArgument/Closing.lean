import TemplateTag.Proofs.Context.Spacing
import TemplateTag.Proofs.RawArgument.Between
/-!
# The words that complete an argument

An argument ends with its own words if its first word opens nothing and is the only one, or if the
later words close what the first one opens, the last of them and none before it (`Completes`). The
later words tell what they close (`Construct.eq_of_closesWith`).
-/
namespace TemplateTag

open Runs

namespace Construct

/-- Does the last of the words close the construct, and none before it? -/
def closesWith : Construct → List Word → Bool
  | _, [] => false
  | c, w :: ws =>
    match c.step w.text with
    | .stillOpen c => c.closesWith ws
    | .closed => ws.isEmpty
    | .overclosed => false

/-- The mark at the end of the word that closes the construct. -/
def mark : Construct → Char
  | doubleQuote => '"'
  | escapedQuote => '\''
  | bracket => ']'
  | parentheses _ => ')'
  | blockParams => '|'

theorem step_parentheses (depth : Nat) (word : Text) :
    (parentheses depth).step word =
      if depth + openedBy word < word.runAtEnd ')' then .overclosed
      else if depth + openedBy word = word.runAtEnd ')' then .closed
      else .stillOpen (parentheses (depth + openedBy word - word.runAtEnd ')')) := rfl

theorem of_step_eq_stillOpen {c c' : Construct} {word : Text} (h : c.step word = .stillOpen c') :
    c'.mark = c.mark ∧ c' ≠ parentheses 0 := by
  cases c with
  | parentheses depth =>
    rw [step_parentheses] at h
    split at h
    · cases h
    · split at h
      · cases h
      · cases h
        refine ⟨rfl, fun hzero => ?_⟩
        rw [parentheses.injEq] at hzero
        omega
  | _ =>
    simp only [step, endingWith] at h
    split at h
    · cases h
    · cases h
      refine ⟨rfl, fun hzero => ?_⟩
      cases hzero

theorem endsWith_of_step_eq_closed {c : Construct} {word : Text} (h : c.step word = .closed)
    (hc : c ≠ parentheses 0) : word.endsWith c.mark = true := by
  cases c with
  | parentheses depth =>
    by_cases hend : word.endsWith ')' = true
    · exact hend
    · have hrun := Text.runAtEnd_eq_zero (Bool.eq_false_iff.mpr hend)
      have hdepth : depth ≠ 0 := fun hzero => hc (congrArg parentheses hzero)
      rw [step_parentheses, hrun, if_neg (by omega), if_neg (by omega)] at h
      cases h
  | _ =>
    simp only [step, endingWith] at h
    split at h
    · assumption
    · cases h

theorem eq_blockParams_iff {c : Construct} : c = .blockParams ↔ c.mark = '|' := by
  cases c <;> simp [mark]

theorem endsWith_of_closesWith {c : Construct} (hc : c ≠ parentheses 0) {ws : List Word}
    (h : c.closesWith ws = true) : ∃ last ∈ ws.getLast?, last.text.endsWith c.mark = true := by
  induction ws generalizing c with
  | nil => cases h
  | cons w ws ih =>
    rw [closesWith] at h
    cases hstep : c.step w.text with
    | stillOpen c' =>
      rw [hstep] at h
      obtain ⟨hmark, hc'⟩ := of_step_eq_stillOpen hstep
      obtain ⟨last, hlast, hend⟩ := ih hc' h
      refine ⟨last, ?_, hmark ▸ hend⟩
      rw [List.getLast?_cons, hlast]
      rfl
    | closed =>
      rw [hstep] at h
      have hws : ws = [] := List.isEmpty_iff.mp h
      exact ⟨w, by rw [hws]; rfl, endsWith_of_step_eq_closed hstep hc⟩
    | overclosed =>
      rw [hstep] at h
      cases h

theorem closesWith_parentheses_cons {depth : Nat} {w : Word} {ws : List Word} :
    (parentheses depth).closesWith (w :: ws) = true ↔
      ws = [] ∧ depth + openedBy w.text = w.text.runAtEnd ')' ∨
      w.text.runAtEnd ')' < depth + openedBy w.text ∧
        (parentheses (depth + openedBy w.text - w.text.runAtEnd ')')).closesWith ws = true := by
  rw [closesWith, step_parentheses]
  by_cases hover : depth + openedBy w.text < w.text.runAtEnd ')'
  · rw [if_pos hover]
    simp only [Bool.false_eq_true, false_iff]
    omega
  · rw [if_neg hover]
    by_cases hclosed : depth + openedBy w.text = w.text.runAtEnd ')'
    · simp [hclosed]
    · have hopen : w.text.runAtEnd ')' < depth + openedBy w.text := by omega
      simp [hclosed, hopen]

theorem eq_of_closesWith_parentheses {depth depth' : Nat} {ws : List Word}
    (h : (parentheses depth).closesWith ws = true)
    (h' : (parentheses depth').closesWith ws = true) : depth = depth' := by
  induction ws generalizing depth depth' with
  | nil => cases h
  | cons w ws ih =>
    rw [closesWith_parentheses_cons] at h h'
    cases ws with
    | nil =>
      have hclosed := (h.resolve_right fun hopen => nomatch hopen.2).2
      have hclosed' := (h'.resolve_right fun hopen => nomatch hopen.2).2
      omega
    | cons v ws =>
      obtain ⟨hopen, hlater⟩ := h.resolve_left nofun
      obtain ⟨hopen', hlater'⟩ := h'.resolve_left nofun
      have heq := ih hlater hlater'
      omega

theorem eq_or_parentheses_of_mark_eq {c c' : Construct} (h : c.mark = c'.mark) :
    c = c' ∨ ∃ depth depth', c = parentheses depth ∧ c' = parentheses depth' := by
  cases c <;> cases c' <;> simp_all [mark]

theorem eq_of_closesWith {c c' : Construct} (hc : c ≠ parentheses 0) (hc' : c' ≠ parentheses 0)
    {ws : List Word} (h : c.closesWith ws = true) (h' : c'.closesWith ws = true) : c = c' := by
  obtain ⟨last, hlast, hend⟩ := endsWith_of_closesWith hc h
  obtain ⟨last', hlast', hend'⟩ := endsWith_of_closesWith hc' h'
  obtain rfl : last = last' := Option.some.inj (hlast.symm.trans hlast')
  have hmark : c.mark = c'.mark :=
    Option.some.inj ((Text.endsWith_iff.mp hend).symm.trans (Text.endsWith_iff.mp hend'))
  rcases eq_or_parentheses_of_mark_eq hmark with heq | ⟨depth, depth', rfl, rfl⟩
  · exact heq
  · exact congrArg parentheses (eq_of_closesWith_parentheses h h')

end Construct

theorem opening?_ne_parentheses_zero (started : Bool) (word : Text) :
    opening? started word ≠ some (.parentheses 0) := by
  have hrun (h : word.startsIn (· == '(') = true) : word.runAtStart '(' ≠ 0 := by
    cases word with
    | nil => cases h
    | cons c word =>
      obtain rfl : c = '(' := by simpa [Text.startsIn] using h
      simp [Text.runAtStart]
  grind [opening?]

/-- Do the later words complete an argument whose first word opens the construct, if any? -/
def Completes : Option Construct → List Word → Prop
  | none, ws => ws = []
  | some c, ws => c ≠ .blockParams ∧ c.closesWith ws = true

theorem Completes.eq {started started' : Bool} {word word' : Text} {ws : List Word}
    (h : Completes (opening? started word) ws) (h' : Completes (opening? started' word') ws) :
    opening? started word = opening? started' word' := by
  have hzero := opening?_ne_parentheses_zero started word
  have hzero' := opening?_ne_parentheses_zero started' word'
  cases ho : opening? started word with
  | none =>
    rw [ho] at h
    have hws : ws = [] := h
    cases ho' : opening? started' word' with
    | none => rfl
    | some c' =>
      rw [ho', hws] at h'
      exact nomatch h'.2
  | some c =>
    rw [ho] at h hzero
    cases ho' : opening? started' word' with
    | none =>
      rw [ho'] at h'
      have hws : ws = [] := h'
      rw [hws] at h
      exact nomatch h.2
    | some c' =>
      rw [ho'] at h' hzero'
      have heq := Construct.eq_of_closesWith (mt (congrArg some) hzero) (mt (congrArg some) hzero')
        h.2 h'.2
      rw [heq]

namespace Runs.State

theorem advance_behind_iff {run : Run} {ws : List Word} :
    (∃ r, r.isBlockParams = false ∧
        ((between true).advance ws).map (fun (later, s) => ([run] ++ later, s)) =
          some ([r], between true)) ↔
      run.isBlockParams = false ∧ ws = [] := by
  constructor
  · rintro ⟨r, hr, hmap⟩
    obtain ⟨⟨later, s⟩, hadvance, heq⟩ := Option.map_eq_some_iff.mp hmap
    rw [Prod.mk.injEq, List.singleton_append, List.cons.injEq] at heq
    obtain ⟨⟨rfl, rfl⟩, rfl⟩ := heq
    exact ⟨hr, (advance_words hadvance).symm⟩
  · rintro ⟨hrun, rfl⟩
    exact ⟨run, hrun, rfl⟩

theorem advance_inside_iff {c : Construct} {first : Word} {rest ws : List Word} :
    (∃ r, r.isBlockParams = false ∧
        (inside c first rest).advance ws = some ([r], between true)) ↔
      c ≠ .blockParams ∧ c.closesWith ws = true := by
  induction ws generalizing c rest with
  | nil => simp [advance_nil, Construct.closesWith]
  | cons w ws ih =>
    rw [Construct.closesWith]
    cases hstep : c.step w.text with
    | stillOpen c' =>
      have hnext : (inside c first rest).next w = some ([], inside c' first (rest ++ [w])) := by
        rw [next, hstep]
      have hkind : c = .blockParams ↔ c' = .blockParams := by
        rw [Construct.eq_blockParams_iff, Construct.eq_blockParams_iff,
          (Construct.of_step_eq_stillOpen hstep).1]
      rw [advance_cons hnext, Ne, hkind]
      simpa using @ih c' (rest ++ [w])
    | closed =>
      have hnext : (inside c first rest).next w =
          some ([⟨first, rest ++ [w], c = .blockParams⟩], between true) := by
        rw [next, hstep]
      rw [advance_cons hnext, advance_behind_iff]
      simp
    | overclosed =>
      have hnext : (inside c first rest).next w = none := by rw [next, hstep]
      simp [advance, hnext]

/-- Words are an argument by themselves just if the later ones complete what the first one opens. -/
theorem advance_between_iff {w : Word} {ws : List Word} :
    (∃ r, r.isBlockParams = false ∧
        (between true).advance (w :: ws) = some ([r], between true)) ↔
      Completes (opening? true w.text) ws := by
  cases ho : opening? true w.text with
  | none =>
    rw [advance_cons (next_of_opening?_none ho), advance_behind_iff]
    simp [Completes]
  | some c =>
    rw [advance_cons (next_of_opening?_some ho), Completes]
    simpa using advance_inside_iff

end Runs.State

section Runs

variable {t : Text} {r : Run}

theorem Run.length_fields_text (h : r ∈ (Runs.ofWords t.words).runs) :
    (r.text.fields isBlank).length + (if r.isBlockParams then 1 else 0) = r.words.length := by
  have hfields : r.text.fields isBlank = r.written := congrArg Prod.fst (Run.wording_text h)
  rw [hfields, written, List.length_map]
  cases r.isBlockParams <;> simp [words]

theorem length_flatMap_fields (h : (Runs.ofWords t.words).ending ≠ .overclosed) :
    (((Runs.ofWords t.words).runs.map Run.text).flatMap (Text.fields isBlank)).length +
        (Runs.ofWords t.words).runs.countP Run.isBlockParams =
      (t.fields isBlank).length := by
  have hlength (rs : List Run) (hrs : ∀ r ∈ rs, r ∈ (Runs.ofWords t.words).runs) :
      ((rs.map Run.text).flatMap (Text.fields isBlank)).length + rs.countP Run.isBlockParams =
        (rs.flatMap Run.words).length := by
    induction rs with
    | nil => rfl
    | cons r rs ih =>
      have hfirst := Run.length_fields_text (hrs r (List.mem_cons_self ..))
      have hrest := ih fun r' hr' => hrs r' (List.mem_cons_of_mem r hr')
      simp only [List.map_cons, List.flatMap_cons, List.length_append, List.countP_cons]
      omega
  rw [hlength _ fun _ hr => hr, ofWords_words h, Text.fields_isBlank, List.length_map]

theorem Run.trimmed_text (h : r ∈ (Runs.ofWords t.words).runs) (hblock : r.isBlockParams = false) :
    r.text.Trimmed := by
  obtain ⟨before, after, hwords⟩ := exists_words_of_mem_runs h
  have hlaid := Text.laid_words t
  rw [hwords] at hlaid
  have hfirst : r.first.Proper := hlaid.proper r.first (by simp [Run.words])
  have htext : r.text = r.first.text ++ r.rest.flatMap Word.whole := by
    rw [Run.text, hblock, if_neg Bool.false_ne_true]
  have hall := words_text_of_not_isBlockParams hwords hblock
  have htrailing : (Layout.ofText r.text).trailing = [] := by
    have hlayout := flatMap_words_append_trailing r.text
    rw [hall, List.flatMap_cons] at hlayout
    exact List.append_right_eq_self.mp (hlayout.trans htext)
  refine ⟨by simp [htext, hfirst.text_ne_nil], fun c hc => ?_, fun c hc => ?_⟩
  · obtain ⟨d, x, hx⟩ := List.exists_cons_of_ne_nil hfirst.text_ne_nil
    apply hfirst.text_ink c
    rw [htext, hx] at hc
    rw [hx]
    cases hc
    exact List.mem_cons_self ..
  · apply Bool.eq_false_iff.mpr
    intro hblank
    have hne : r.text.words ≠ [] := by simp [hall]
    refine Text.trailing_ne_nil hne (fun d hd => ?_) htrailing
    rwa [Option.some.inj (hd.symm.trans hc)]

end Runs

section Between

theorem fields_between (x v z : Text) :
    Text.fields isBlank ([' '].intercalate [x, v, z]) =
      x.fields isBlank ++ (v.fields isBlank ++ z.fields isBlank) := by
  have hsplit : [' '].intercalate [x, v, z] = x ++ ' ' :: (v ++ ' ' :: z) := by
    simp [List.intercalate_cons_cons]
  rw [hsplit, Text.fields_append_cons _ _ rfl, Text.fields_append_cons _ _ rfl]

variable {x v z : Text} (hx : PlainWord x) (hz : PlainWord z)

include hx

theorem PlainWord.fields : x.fields isBlank = [x] :=
  Text.fields_of_forall hx.ne_nil hx.ink

include hz

/-- The runs of an argument between two plain words: the last word stands alone, or it belongs to the
argument before it. -/
theorem exists_runs_between (hv : v.Trimmed)
    (hcomplete : (ofWords (Text.words ([' '].intercalate [x, v, z]))).ending = .complete) :
    ∃ mid s, (State.between true).advance (Text.words (' ' :: v)) = some (mid, s) ∧
      ∃ last, (ofWords (Text.words ([' '].intercalate [x, v, z]))).runs =
        ⟨⟨[], x⟩, [], false⟩ :: (mid ++ [last]) ∧ last.words = s.pending ++ [⟨[' '], z⟩] := by
  cases hall : (State.between false).advance (Text.words ([' '].intercalate [x, v, z])) with
  | none =>
    obtain ⟨_, _, _, _, _, _, _, -, -, -, hscan⟩ := scan_of_advance_eq_none hall
    rw [ofWords, hscan] at hcomplete
    cases hcomplete
  | some p =>
    have hruns := scan_of_advance_eq_some hall
    rw [advance_between hx hv hz, Option.map_eq_some_iff] at hall
    obtain ⟨⟨done, s'⟩, hadvance, rfl⟩ := hall
    obtain ⟨mid, s, later, hmid, hlast, rfl⟩ := State.advance_append_eq_some hadvance
    refine ⟨mid, s, hmid, ?_⟩
    rw [ofWords, hruns]
    cases s with
    | between started =>
      rw [State.advance_singleton (State.next_of_opening?_none (hz.opening?_eq_none started))]
        at hlast
      cases hlast
      exact ⟨_, rfl, rfl⟩
    | inside c first rest =>
      obtain ⟨_, _, _, hnext, hnil, rfl⟩ := State.advance_cons_eq_some hlast
      rw [State.advance_nil] at hnil
      cases hnil
      simp only [State.next] at hnext
      split at hnext
      · cases hnext
        exact ⟨⟨first, rest ++ [⟨[' '], z⟩], false⟩, by simp, rfl⟩
      · cases hnext
        exact ⟨⟨first, rest ++ [⟨[' '], z⟩], c = .blockParams⟩, by simp, rfl⟩
      · cases hnext

theorem advance_of_ofWords_between
    (hcomplete : (ofWords (Text.words ([' '].intercalate [x, v, z]))).ending = .complete)
    (hruns : (ofWords (Text.words ([' '].intercalate [x, v, z]))).runs.map Run.text = [x, v, z]) :
    v.Trimmed ∧ ∃ r, r.isBlockParams = false ∧
      (State.between true).advance (Text.words (' ' :: v)) = some ([r], .between true) := by
  let source : Text := [' '].intercalate [x, v, z]
  have hplain : ∀ r ∈ (ofWords source.words).runs, r.isBlockParams = false := by
    have hcount := length_flatMap_fields (t := source) (by rw [hcomplete]; nofun)
    rw [hruns, fields_between] at hcount
    have hzero : (ofWords source.words).runs.countP Run.isBlockParams = 0 := by
      simp only [List.flatMap_cons, List.flatMap_nil, List.append_nil] at hcount
      omega
    intro r hr
    simpa using List.countP_eq_zero.mp hzero r hr
  have hv : v.Trimmed := by
    have hmem : v ∈ (ofWords source.words).runs.map Run.text := by
      rw [hruns]
      simp
    obtain ⟨r, hr, rfl⟩ := List.mem_map.mp hmem
    exact Run.trimmed_text hr (hplain r hr)
  obtain ⟨mid, s, hmid, last, hall, hlast⟩ := exists_runs_between hx hz hv hcomplete
  rw [hall, List.map_cons, List.map_append, List.map_singleton, List.cons.injEq] at hruns
  have htexts : mid.map Run.text ++ [last.text] = [v] ++ [z] := hruns.2
  obtain ⟨hmidText, hlastText⟩ := List.append_inj' htexts rfl
  obtain ⟨r, rfl⟩ : ∃ r, mid = [r] := by
    apply List.length_eq_one_iff.mp
    simpa using congrArg List.length hmidText
  have hmem : ∀ r' ∈ [r, last], r' ∈ (ofWords source.words).runs := by
    intro r' hr'
    rw [hall]
    exact List.mem_cons_of_mem _ hr'
  refine ⟨hv, r, hplain r (hmem r (by simp)), ?_⟩
  -- The last text is a single word, so that no words of the argument before it belong to it.
  have hlastMem := hmem last (by simp)
  have hlength := Run.length_fields_text hlastMem
  rw [(List.cons.inj hlastText).1, hz.fields, hplain last hlastMem, hlast] at hlength
  cases s with
  | between started =>
    have hstarted : started = true := State.started_of_advance (s := .between true) (by simp) hmid
    rw [hmid, hstarted]
  | inside c first rest => simp [State.pending] at hlength

end Between

namespace Text

/-- The text up to its first blank. -/
def firstWord (t : Text) : Text :=
  t.takeWhile (! isBlank ·)

/-- The words after the first blank. -/
def laterWords (t : Text) : List Word :=
  words (t.dropWhile (! isBlank ·))

variable {p v : Text} (hp : ∀ c ∈ p, isBlank c = false) (hv : Trimmed (p ++ v))

include hp hv

theorem words_append_eq_cons :
    words (' ' :: (p ++ v)) = ⟨[' '], p ++ v.firstWord⟩ :: v.laterWords := by
  have hink : ∀ c ∈ p ++ v.firstWord, isBlank c = false := by
    refine List.forall_mem_append.mpr ⟨hp, fun c hc => ?_⟩
    simpa using List.all_eq_true.mp List.all_takeWhile c hc
  have hsplit : p ++ v = (p ++ v.firstWord) ++ v.dropWhile (! isBlank ·) := by
    rw [firstWord, List.append_assoc, List.takeWhile_append_dropWhile]
  have hhead : ∀ c ∈ (v.dropWhile (! isBlank ·)).head?, isBlank c = true := by
    intro c hc
    have h := List.head?_dropWhile_not (! isBlank ·) v
    rw [hc] at h
    simpa using h
  have hne : p ++ v.firstWord ≠ [] := by
    intro hnil
    rw [hsplit, hnil, List.nil_append] at hv
    obtain ⟨c, t, hcons⟩ := List.exists_cons_of_ne_nil hv.ne_nil
    have hblank := hhead c (by rw [hcons]; rfl)
    rw [hv.head_ink c (by rw [hcons]; rfl)] at hblank
    cases hblank
  have hwords := words_gap_ink_append blank_space hne hink hhead
  rwa [← hsplit] at hwords

end Text

theorem rawArguments_clean_iff {d : Dialect} (hd : d.advancedVariables = true) {source : Text}
    (hne : source.words ≠ []) {tag : Text} {raws : List Text} :
    ((rawArguments d false tag source).value = raws ∧
        (rawArguments d false tag source).report.diagnostics = []) ↔
      (ofWords source.words).ending = .complete ∧ (ofWords source.words).runs.map Run.text = raws := by
  rw [rawArguments_of_words hd hne, Reported.value_bind, Reported.report_bind, Reported.value_pure,
    Reported.report_pure, Report.append_empty, and_comm]
  apply and_congr_left'
  cases (ofWords source.words).ending <;> simp [Ending.check]

/-- What stands between two plain words is an argument just if its own words complete it. -/
theorem rawArguments_between_iff {d : Dialect} (hd : d.advancedVariables = true) {x z p v : Text}
    (hx : PlainWord x) (hz : PlainWord z) (hp : ∀ c ∈ p, isBlank c = false) (tag : Text) :
    let cut := rawArguments d false tag ([' '].intercalate [x, p ++ v, z])
    cut.value = [x, p ++ v, z] ∧ cut.report.diagnostics = [] ↔
      Text.Trimmed (p ++ v) ∧ Completes (opening? true (p ++ v.firstWord)) v.laterWords := by
  intro cut
  constructor
  · intro hcut
    have hne : Text.words ([' '].intercalate [x, p ++ v, z]) ≠ [] := by
      obtain ⟨c, t, rfl⟩ := List.exists_cons_of_ne_nil hx.ne_nil
      apply Text.words_ne_nil (c := c) ?_ (hx.ink c (List.mem_cons_self ..))
      simp [List.intercalate_cons_cons]
    obtain ⟨hcomplete, hruns⟩ := (rawArguments_clean_iff hd hne).mp hcut
    obtain ⟨hv, hadvance⟩ := advance_of_ofWords_between hx hz hcomplete hruns
    rw [Text.words_append_eq_cons hp hv, State.advance_between_iff] at hadvance
    exact ⟨hv, hadvance⟩
  · rintro ⟨hv, hcompletes⟩
    rw [← State.advance_between_iff (w := ⟨[' '], p ++ v.firstWord⟩),
      ← Text.words_append_eq_cons hp hv] at hcompletes
    obtain ⟨r, hr, hadvance⟩ := hcompletes
    simp only [cut, rawArguments_between_of_closed hx hv hz hd false tag hr hadvance]
    exact ⟨rfl, rfl⟩

end TemplateTag
