import TemplateTag.Text.Words
/-!
# Texts cut at separators

The pieces of a text that is cut at separators are parts of the text without a separator, and fields
are those of them that are not empty. With blanks as separators the fields are the words of the text.
-/
namespace TemplateTag.Text

private theorem splitOnP_eq_cons (p : Char → Bool) (t : Text) :
    ∃ pieces, t.splitOnP p = t.takeWhile (! p ·) :: pieces ∧
      ∀ x ∈ pieces, x <:+: t ∧ ∀ c ∈ x, p c = false := by
  induction t with
  | nil => exact ⟨[], rfl, by simp⟩
  | cons c t ih =>
    obtain ⟨pieces, hpieces, hparts⟩ := ih
    rw [List.splitOnP_cons_eq_if_modifyHead, hpieces]
    have hlater : ∀ x ∈ pieces, x <:+: c :: t ∧ ∀ d ∈ x, p d = false := fun x hx =>
      ⟨(hparts x hx).1.trans (List.suffix_cons c t).isInfix, (hparts x hx).2⟩
    by_cases hc : p c = true
    · refine ⟨t.takeWhile (! p ·) :: pieces, by simp [hc], ?_⟩
      intro x hx
      rcases List.mem_cons.mp hx with rfl | hx
      · refine ⟨(List.takeWhile_prefix _).isInfix.trans (List.suffix_cons c t).isInfix, ?_⟩
        intro d hd
        simpa using List.all_eq_true.mp List.all_takeWhile d hd
      · exact hlater x hx
    · exact ⟨pieces, by simp [hc], hlater⟩

theorem of_mem_splitOnP {p : Char → Bool} {t x : Text} (h : x ∈ t.splitOnP p) :
    x <:+: t ∧ ∀ c ∈ x, p c = false := by
  obtain ⟨pieces, hpieces, hparts⟩ := splitOnP_eq_cons p t
  rw [hpieces] at h
  rcases List.mem_cons.mp h with rfl | h
  · refine ⟨(List.takeWhile_prefix _).isInfix, ?_⟩
    intro c hc
    simpa using List.all_eq_true.mp List.all_takeWhile c hc
  · exact hparts x h

theorem of_mem_fields {p : Char → Bool} {t x : Text} (h : x ∈ t.fields p) :
    x ≠ [] ∧ ∀ c ∈ x, p c = false := by
  obtain ⟨hx, hne⟩ := List.mem_filter.mp h
  exact ⟨by simpa using hne, (of_mem_splitOnP hx).2⟩

theorem fields_ne_nil {p : Char → Bool} {t : Text} {c : Char} (hc : c ∈ t) (hp : p c = false) :
    t.fields p ≠ [] := by
  induction t with
  | nil => cases hc
  | cons d t ih =>
    rw [fields, List.splitOnP_cons_eq_if_modifyHead]
    by_cases hd : p d = true
    · have hct : c ∈ t := by
        rcases List.mem_cons.mp hc with rfl | hc
        · simp [hp] at hd
        · exact hc
      simpa [hd, fields] using ih hct
    · obtain ⟨pieces, hpieces, -⟩ := splitOnP_eq_cons p t
      simp [hd, hpieces]

theorem fields_append_cons {p : Char → Bool} (s t : Text) {separator : Char}
    (h : p separator = true) : fields p (s ++ separator :: t) = s.fields p ++ t.fields p := by
  rw [fields, List.splitOnP_append_cons s t h, List.filter_append]
  rfl

theorem fields_of_forall {p : Char → Bool} {t : Text} (hne : t ≠ []) (ht : ∀ c ∈ t, p c = false) :
    t.fields p = [t] := by
  rw [fields, List.splitOnP_eq_singleton ht]
  simp [hne]

theorem fields_intercalate {p : Char → Bool} {separator : Char} (h : p separator = true)
    {ts : List Text} (hts : ∀ t ∈ ts, t ≠ [] ∧ ∀ c ∈ t, p c = false) :
    fields p ([separator].intercalate ts) = ts := by
  induction ts with
  | nil => rfl
  | cons t ts ih =>
    obtain ⟨hne, ht⟩ := hts t (List.mem_cons_self ..)
    cases ts with
    | nil => rw [List.intercalate_singleton, fields_of_forall hne ht]
    | cons u ts =>
      rw [List.intercalate_cons_cons, List.append_assoc, List.singleton_append,
        fields_append_cons _ _ h, fields_of_forall hne ht,
        ih fun v hv => hts v (List.mem_cons_of_mem t hv)]
      rfl

section Join

variable {separator : Char} {ts : List Text}

theorem mem_intercalate {c : Char} (h : c ∈ [separator].intercalate ts) :
    c = separator ∨ ∃ t ∈ ts, c ∈ t := by
  induction ts with
  | nil => cases h
  | cons t ts ih =>
    cases ts with
    | nil =>
      rw [List.intercalate_singleton] at h
      exact .inr ⟨t, List.mem_cons_self .., h⟩
    | cons u ts =>
      rw [List.intercalate_cons_cons, List.mem_append, List.mem_append, List.mem_singleton] at h
      rcases h with (h | h) | h
      · exact .inr ⟨t, List.mem_cons_self .., h⟩
      · exact .inl h
      · exact (ih h).imp_right fun ⟨v, hv, hc⟩ => ⟨v, List.mem_cons_of_mem t hv, hc⟩

theorem infix_intercalate {t : Text} (h : t ∈ ts) : t <:+: [separator].intercalate ts := by
  induction ts with
  | nil => cases h
  | cons u ts ih =>
    cases ts with
    | nil =>
      obtain rfl := List.mem_singleton.mp h
      simp [List.intercalate_singleton]
    | cons v ts =>
      rw [List.intercalate_cons_cons]
      rcases List.mem_cons.mp h with rfl | h
      · exact ⟨[], [separator] ++ [separator].intercalate (v :: ts), by simp⟩
      · exact (ih h).trans (List.suffix_append _ _).isInfix

theorem head?_intercalate {p : Char → Prop} (h : ∀ t ∈ ts, t ≠ [] ∧ ∀ c ∈ t.head?, p c) :
    ∀ c ∈ ([separator].intercalate ts).head?, p c := by
  cases ts with
  | nil => simp
  | cons t ts =>
    obtain ⟨hne, hp⟩ := h t (List.mem_cons_self ..)
    obtain ⟨c, t, rfl⟩ := List.exists_cons_of_ne_nil hne
    cases ts with
    | nil => simpa using hp
    | cons u ts => simpa [List.intercalate_cons_cons] using hp

theorem intercalate_ne_nil (hne : ts ≠ []) (h : ∀ t ∈ ts, t ≠ []) :
    [separator].intercalate ts ≠ [] := by
  obtain ⟨t, ts, rfl⟩ := List.exists_cons_of_ne_nil hne
  have ht := h t (List.mem_cons_self ..)
  cases ts with
  | nil => simpa using ht
  | cons u ts => simp [List.intercalate_cons_cons]

theorem getLast?_intercalate {p : Char → Prop} (h : ∀ t ∈ ts, t ≠ [] ∧ ∀ c ∈ t.getLast?, p c) :
    ∀ c ∈ ([separator].intercalate ts).getLast?, p c := by
  induction ts with
  | nil => simp
  | cons t ts ih =>
    have hlater := ih fun u hu => h u (List.mem_cons_of_mem t hu)
    cases ts with
    | nil => simpa using (h t (List.mem_cons_self ..)).2
    | cons u ts =>
      have hne : [separator].intercalate (u :: ts) ≠ [] :=
        intercalate_ne_nil (List.cons_ne_nil u ts)
          fun v hv => (h v (List.mem_cons_of_mem t hv)).1
      rw [List.getLast?_eq_some_getLast hne] at hlater
      rwa [List.intercalate_cons_cons, List.getLast?_append, List.getLast?_eq_some_getLast hne]

end Join

/-- The first piece is what stands before the first blank, and the others that are not empty are the
words after it. -/
private theorem splitOnP_isBlank (t : Text) :
    ∃ pieces, t.splitOnP isBlank = (Layout.ofText t).head :: pieces ∧
      pieces.filter (! ·.isEmpty) = (Layout.ofText t).later.map Word.text := by
  induction t with
  | nil => exact ⟨[], rfl, rfl⟩
  | cons c t ih =>
    obtain ⟨pieces, hpieces, hlater⟩ := ih
    rw [List.splitOnP_cons_eq_if_modifyHead, hpieces, Layout.ofText]
    by_cases hc : isBlank c = true
    · rw [if_pos hc, if_pos hc]
      refine ⟨(Layout.ofText t).head :: pieces, ?_, ?_⟩
      · generalize Layout.ofText t = l
        obtain ⟨head, later, trailing⟩ := l
        cases head <;> cases later <;> rfl
      · revert hlater
        generalize Layout.ofText t = l
        obtain ⟨head, later, trailing⟩ := l
        cases head <;> cases later <;> simp [Layout.addBlank]
    · rw [if_neg hc, if_neg hc]
      exact ⟨pieces, rfl, hlater⟩

theorem fields_isBlank (t : Text) : t.fields isBlank = t.words.map Word.text := by
  obtain ⟨pieces, hpieces, hlater⟩ := splitOnP_isBlank t
  rw [fields, hpieces, words, Layout.words]
  cases hhead : (Layout.ofText t).head with
  | nil => simpa using hlater
  | cons c head => simpa using hlater

end TemplateTag.Text
