import TemplateTag.Proofs.Tag.Occurrence
/-!
# Which split is found

Many splits of a text may have the right shape, and the search decides between them. A part that is
taken off is the longest one after which the rest can be read, and the inside of a tag and the text
before it are the shortest ones. A lemma for each function says what is found from what can be read
at the other places.
-/
namespace TemplateTag

theorem exists_append_of_length_le {front back front' back' : Text}
    (h : front ++ back = front' ++ back') (hle : front.length ≤ front'.length) :
    ∃ between, front' = front ++ between ∧ back = between ++ back' := by
  rcases List.append_eq_append_iff.mp h with hlonger | ⟨between, rfl, rfl⟩
  · exact hlonger
  · rw [List.length_append] at hle
    have hnil : between = [] := List.eq_nil_of_length_eq_zero (by omega)
    rw [hnil]
    exact ⟨[], by simp, rfl⟩

namespace Delimiters

section Take

variable {β : Type} {p : Char → Bool} {read : Text → Option β} {fewest most : Nat}
  {taken rest : Text} {b : β}

private theorem taken_tail {c : Char} (h : Taken p fewest most (c :: taken)) :
    (0 < most && p c) = true ∧ Taken p (fewest - 1) (most - 1) taken := by
  have hfewest := h.fewest_le
  have hmost := h.le_most
  rw [List.length_cons] at hfewest hmost
  refine ⟨?_, ?_, by omega, by omega⟩
  · rw [Bool.and_eq_true, decide_eq_true_eq]
    exact ⟨by omega, h.all c (List.mem_cons_self ..)⟩
  · exact fun d hd => h.all d (List.mem_cons_of_mem c hd)

private theorem taken_cons {c : Char} (hc : (0 < most && p c) = true)
    (h : Taken p (fewest - 1) (most - 1) taken) : Taken p fewest most (c :: taken) := by
  rw [Bool.and_eq_true, decide_eq_true_eq] at hc
  have hfewest := h.fewest_le
  have hmost := h.le_most
  refine ⟨?_, ?_, ?_⟩
  · intro d hd
    rcases List.mem_cons.mp hd with rfl | hd
    · exact hc.2
    · exact h.all d hd
  · rw [List.length_cons]
    omega
  · rw [List.length_cons]
    omega

theorem isSome_takeFor? (h : (read rest).isSome) : (takeFor? p read 0 most rest).isSome := by
  cases rest with
  | nil => simpa [takeFor?] using h
  | cons c rest =>
    rw [takeFor?]
    split
    · rfl
    · simpa using h

/-- A part is taken if the rest can be read after it, and after no longer one. -/
theorem takeFor?_append (htaken : Taken p fewest most taken) (hread : read rest = some b)
    (hlongest : ∀ more later, rest = more ++ later → more ≠ [] →
      Taken p fewest most (taken ++ more) → read later = none) :
    takeFor? p read fewest most (taken ++ rest) = some (taken, b) := by
  induction taken generalizing fewest most with
  | nil =>
    have hzero : fewest = 0 := Nat.le_zero.mp htaken.fewest_le
    cases rest with
    | nil => simp [takeFor?, hzero, hread]
    | cons c rest =>
      have hnone : (if 0 < most && p c then takeFor? p read (fewest - 1) (most - 1) rest
          else none) = none := by
        rw [Option.eq_none_iff_forall_ne_some]
        rintro ⟨more, b'⟩ hmore
        split at hmore
        · next hc =>
          obtain ⟨later, rfl, hmore, hlater⟩ := takeFor?_eq_some (by omega) hmore
          have hlonger := taken_cons hc hmore
          have hstuck := hlongest (c :: more) later rfl (List.cons_ne_nil c more) hlonger
          rw [hlater] at hstuck
          cases hstuck
        · cases hmore
      rw [List.nil_append, takeFor?, hnone]
      simp [hzero, hread]
  | cons c taken ih =>
    obtain ⟨hc, htail⟩ := taken_tail htaken
    have htake : takeFor? p read (fewest - 1) (most - 1) (taken ++ rest) = some (taken, b) := by
      apply ih htail
      intro more later hrest hmore hlonger
      apply hlongest more later hrest hmore
      exact taken_cons hc hlonger
    rw [List.cons_append, takeFor?, if_pos hc, htake]

theorem takeFor?_of_startsIn (htaken : Taken p fewest most taken) (hread : read rest = some b)
    (hrest : rest.startsIn p = false) :
    takeFor? p read fewest most (taken ++ rest) = some (taken, b) := by
  apply takeFor?_append htaken hread
  intro more later heq hmore hlonger
  obtain ⟨c, more, rfl⟩ := List.exists_cons_of_ne_nil hmore
  have hc := hlonger.all c (by simp)
  rw [heq, List.cons_append, Text.startsIn, hc] at hrest
  cases hrest

end Take

section Shortest

variable {β : Type} {read : Text → Option β} {t front rest : Text} {b : β}

/-- The shortest front of a text after which the rest can be read, with the reading of the rest. -/
def shortest? (read : Text → Option β) : Text → Option (Text × β)
  | [] => (read []).map ([], ·)
  | c :: t =>
    match read (c :: t) with
    | some b => some ([], b)
    | none => (shortest? read t).map fun (front, b) => (c :: front, b)

theorem shortest?_of_some (h : read t = some b) : shortest? read t = some ([], b) := by
  cases t with
  | nil => rw [shortest?, h, Option.map_some]
  | cons c t => rw [shortest?, h]

theorem shortest?_of_none {c : Char} (h : read (c :: t) = none) :
    shortest? read (c :: t) = (shortest? read t).map fun (front, b) => (c :: front, b) := by
  rw [shortest?, h]

theorem isSome_shortest? (h : (read rest).isSome) : (shortest? read (front ++ rest)).isSome := by
  induction front with
  | nil =>
    obtain ⟨b, hb⟩ := Option.isSome_iff_exists.mp h
    rw [List.nil_append, shortest?_of_some hb]
    rfl
  | cons c front ih =>
    rw [List.cons_append]
    cases hread : read (c :: (front ++ rest)) with
    | some b =>
      rw [shortest?_of_some hread]
      rfl
    | none =>
      rw [shortest?_of_none hread, Option.isSome_map]
      exact ih

theorem shortest?_append (hread : read rest = some b)
    (hshortest : ∀ before after, front = before ++ after → after ≠ [] →
      read (after ++ rest) = none) : shortest? read (front ++ rest) = some (front, b) := by
  induction front with
  | nil => exact shortest?_of_some hread
  | cons c front ih =>
    have hnone := hshortest [] (c :: front) rfl (List.cons_ne_nil c front)
    have hfront : shortest? read (front ++ rest) = some (front, b) := by
      apply ih
      intro before after heq hafter
      exact hshortest (c :: before) after (congrArg (c :: ·) heq) hafter
    rw [List.cons_append] at hnone ⊢
    rw [shortest?_of_none hnone, hfront, Option.map_some]

theorem shortest?_eq_some (h : shortest? read t = some (front, b)) :
    ∃ rest, t = front ++ rest ∧ read rest = some b ∧
      ∀ before after, front = before ++ after → after ≠ [] → read (after ++ rest) = none := by
  induction t generalizing front with
  | nil =>
    obtain ⟨b', hread, heq⟩ := Option.map_eq_some_iff.mp h
    cases heq
    refine ⟨[], rfl, hread, ?_⟩
    intro before after heq hafter
    exact absurd (List.append_eq_nil_iff.mp heq.symm).2 hafter
  | cons c t ih =>
    cases hread : read (c :: t) with
    | some b' =>
      rw [shortest?_of_some hread] at h
      cases h
      refine ⟨c :: t, rfl, hread, ?_⟩
      intro before after heq hafter
      exact absurd (List.append_eq_nil_iff.mp heq.symm).2 hafter
    | none =>
      rw [shortest?_of_none hread] at h
      obtain ⟨⟨front', b'⟩, hfront, heq⟩ := Option.map_eq_some_iff.mp h
      cases heq
      obtain ⟨rest, rfl, hrest, hshortest⟩ := ih hfront
      refine ⟨rest, rfl, hrest, ?_⟩
      intro before after heq hafter
      cases before with
      | nil =>
        rw [List.nil_append] at heq
        rw [← heq]
        exact hread
      | cons e before => exact hshortest before after (List.cons.inj heq).2 hafter

end Shortest

variable {d : Delimiters}

theorem inside?_eq_shortest? (d : Delimiters) (t : Text) :
    d.inside? t = shortest? d.close? t := by
  induction t with
  | nil => rfl
  | cons c t ih =>
    rw [inside?, shortest?, ih]
    cases d.close? (c :: t) <;> rfl

theorem firstTag?_eq_shortest? (d : Delimiters) (t : Text) :
    d.firstTag? t = (shortest? d.tagAfterSpace? t).map fun (front, found) =>
      { found with textBefore := front ++ found.textBefore } := by
  induction t with
  | nil =>
    change d.tagAfterSpace? [] = _
    rw [shortest?, Option.map_map]
    exact Option.map_id'.symm
  | cons c t ih =>
    rw [firstTag?_cons, shortest?, ih]
    cases d.tagAfterSpace? (c :: t) with
    | some found => rfl
    | none =>
      rw [Option.map_map, Option.map_map]
      rfl

/-- What `firstTag?` finds stands after the shortest text that a tag can stand after. -/
theorem firstTag?_eq_some_iff (hd : d.fewestBraces ≤ d.mostBraces) {t : Text} {o : Occurrence} :
    d.firstTag? t = some o ↔
      shortest? d.tagAfterSpace? t = some (o.textBefore, { o with textBefore := [] }) := by
  rw [firstTag?_eq_shortest?, Option.map_eq_some_iff]
  constructor
  · rintro ⟨⟨front, found⟩, hfront, rfl⟩
    obtain ⟨rest, -, hrest, -⟩ := shortest?_eq_some hfront
    obtain ⟨textBefore, spaceBefore, tag, spaceAfter, textAfter⟩ := found
    have hbefore : textBefore = [] := (tagAfterSpace?_eq_some hd hrest).2
    rw [hfront, hbefore]
    simp
  · intro h
    exact ⟨_, h, by simp⟩

theorem Splits.eq_append {t : Text} {o : Occurrence} (h : d.Splits t o) :
    ∃ between after,
      t = o.textBefore ++ o.spaceBefore ++ (d.left ++ (between ++ (d.right ++ after))) := by
  refine ⟨o.tag.leftControl ++ o.tag.leftBraces ++ o.tag.operator ++ o.tag.inner ++
    o.tag.rightBraces ++ o.tag.rightControl, o.spaceAfter ++ o.textAfter, ?_⟩
  rw [← h.source, ← h.left, ← h.right]
  simp [Occurrence.source, Tag.text]

end Delimiters

end TemplateTag
