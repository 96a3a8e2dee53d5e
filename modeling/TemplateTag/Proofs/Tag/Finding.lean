import TemplateTag.Proofs.Tag.Choice
/-!
# A tag is found where there is one

Outside a raw block every part between the two delimiters may be empty. So a text has a tag as soon
as the right delimiter comes somewhere after the left one, and nothing that could be a tag is passed
over.
-/
namespace TemplateTag

/-- The pattern stands at a position of the text, and at no earlier one. -/
def IsFirstAt (pattern t : Text) (position : Nat) : Prop :=
  pattern <+: t.drop position ∧ ∀ other, pattern <+: t.drop other → position ≤ other

namespace Delimiters

variable {d : Delimiters} {t : Text} {o : Occurrence}

theorem isSome_close? (hd : d.fewestBraces = 0) (after : Text) :
    (d.close? (d.right ++ after)).isSome := by
  have hright : (d.right.isPrefixOf? (d.right ++ after)).isSome := by
    rw [Text.isPrefixOf?_eq_some.mpr rfl]
    rfl
  rw [close?, Option.isSome_map, hd]
  exact isSome_takeFor? (isSome_takeFor? hright)

theorem isSome_open? (hd : d.fewestBraces = 0) (between after : Text) :
    (d.open? (between ++ (d.right ++ after))).isSome := by
  have hinside : (d.inside? (between ++ (d.right ++ after))).isSome := by
    rw [inside?_eq_shortest?]
    exact isSome_shortest? (isSome_close? hd after)
  rw [open?, hd]
  exact isSome_takeFor? (isSome_takeFor? (isSome_takeFor? hinside))

theorem isSome_tagAfterSpace? (hd : d.fewestBraces = 0) (between after : Text) :
    (d.tagAfterSpace? (d.left ++ (between ++ (d.right ++ after)))).isSome := by
  obtain ⟨parts, hparts⟩ := Option.isSome_iff_exists.mp (isSome_open? hd between after)
  have hfront : (d.tagAtFront? (d.left ++ (between ++ (d.right ++ after)))).isSome := by
    rw [tagAtFront?, Text.isPrefixOf?_eq_some.mpr rfl]
    simp [hparts]
  rw [tagAfterSpace?, Option.isSome_map]
  exact isSome_takeFor? hfront

theorem isSome_firstTag? (hd : d.fewestBraces = 0) (before between after : Text) :
    (d.firstTag? (before ++ (d.left ++ (between ++ (d.right ++ after))))).isSome := by
  rw [firstTag?_eq_shortest?, Option.isSome_map]
  exact isSome_shortest? (isSome_tagAfterSpace? hd between after)

theorem isSome_firstTag?_iff (hd : d.fewestBraces = 0) :
    (d.firstTag? t).isSome ↔
      ∃ before between after, t = before ++ d.left ++ between ++ d.right ++ after := by
  constructor
  · intro h
    obtain ⟨o, ho⟩ := Option.isSome_iff_exists.mp h
    have hle : d.fewestBraces ≤ d.mostBraces := by omega
    obtain ⟨between, after, rfl⟩ := (firstTag?_eq_some hle ho).eq_append
    exact ⟨o.textBefore ++ o.spaceBefore, between, after, by simp⟩
  · rintro ⟨before, between, after, rfl⟩
    have hfound := isSome_firstTag? hd before between after
    simpa using hfound

private theorem textBefore_le_of_left (hd : d.fewestBraces = 0) (h : d.firstTag? t = some o)
    {before after : Text} (ht : t = before ++ (d.left ++ after))
    (hbefore : before.length ≤ (o.textBefore ++ o.spaceBefore).length) :
    o.textBefore.length ≤ before.length := by
  have hle : d.fewestBraces ≤ d.mostBraces := by omega
  obtain ⟨between, afterRight, heq⟩ := (firstTag?_eq_some hle h).eq_append
  obtain ⟨rest, hrest, -, hshortest⟩ := shortest?_eq_some ((firstTag?_eq_some_iff hle).mp h)
  -- the right delimiter of the tag also comes after the left delimiter that stands further in front
  have hright : ∃ between', after = between' ++ (d.right ++ afterRight) := by
    have hends : before ++ d.left ++ after =
        o.textBefore ++ o.spaceBefore ++ d.left ++ between ++ (d.right ++ afterRight) := by
      rw [List.append_assoc, ← ht, heq]
      simp
    obtain ⟨between', -, hafter⟩ := exists_append_of_length_le hends (by
      simp only [List.length_append] at hbefore ⊢
      omega)
    exact ⟨between', hafter⟩
  obtain ⟨between', rfl⟩ := hright
  rw [← Nat.not_lt]
  intro hlt
  obtain ⟨more, hmore, hback⟩ := exists_append_of_length_le (ht.symm.trans hrest) (Nat.le_of_lt hlt)
  have hne : more ≠ [] := by
    rintro rfl
    rw [hmore, List.append_nil] at hlt
    exact Nat.lt_irrefl _ hlt
  have hnone := hshortest before more hmore hne
  have hsome := isSome_tagAfterSpace? hd between' afterRight
  rw [hback, hnone] at hsome
  cases hsome

/-- The left delimiter of a tag is the first one in the text, unless it could belong to the space
before the tag. -/
theorem isFirstAt_left (hd : d.fewestBraces = 0) {c : Char} (hhead : d.left.head? = some c)
    (hc : isBlank c = false) (h : d.firstTag? t = some o) :
    IsFirstAt d.left t (o.textBefore ++ o.spaceBefore).length := by
  have hsplits := firstTag?_eq_some (by omega) h
  obtain ⟨between, after, ht⟩ := hsplits.eq_append
  constructor
  · rw [ht, List.drop_left]
    exact List.prefix_append ..
  intro other hother
  rw [← Nat.not_lt]
  intro hlt
  obtain ⟨after', hafter'⟩ := hother
  have hlength : other ≤ t.length := by
    rw [ht, List.length_append]
    omega
  have hsplit : t = t.take other ++ (d.left ++ after') := by rw [hafter', List.take_append_drop]
  have htake : (t.take other).length = other := List.length_take_of_le hlength
  have htext := textBefore_le_of_left hd h hsplit (by rw [htake]; exact Nat.le_of_lt hlt)
  generalize t.take other = before at hsplit htake htext
  -- so the other left delimiter would have to start inside the space
  obtain ⟨more, hmore, hback⟩ := exists_append_of_length_le (hsplit.symm.trans ht) (by omega)
  obtain ⟨space, -, hspace⟩ := exists_append_of_length_le hmore htext
  obtain ⟨left, hleft⟩ := List.head?_eq_some_iff.mp hhead
  cases more with
  | nil =>
    rw [hmore, List.append_nil] at hlt
    omega
  | cons e more =>
    rw [hleft, List.cons_append, List.cons_append, List.cons.injEq] at hback
    have hblank := hsplits.spaceBefore e (by simp [hspace])
    rw [← hback.1, hc] at hblank
    cases hblank

theorem exists_inside_of_firstTag? (hd : d.fewestBraces ≤ d.mostBraces)
    (h : d.firstTag? t = some o) :
    ∃ rest closing, d.inside? rest = some (o.tag.inner, closing) := by
  obtain ⟨rest, -, hspace, -⟩ := shortest?_eq_some ((firstTag?_eq_some_iff hd).mp h)
  obtain ⟨⟨space, found⟩, htake, heq⟩ := Option.map_eq_some_iff.mp hspace
  obtain ⟨rest, -, -, hfront⟩ := takeFor?_eq_some (Nat.zero_le _) htake
  rw [tagAtFront?] at hfront
  obtain ⟨rest, -, hfront⟩ := Option.bind_eq_some_iff.mp hfront
  obtain ⟨⟨control, braces, operator, inner, closing⟩, hopen, hfront⟩ :=
    Option.bind_eq_some_iff.mp hfront
  obtain ⟨rest, -, -, htake⟩ := takeFor?_eq_some (Nat.zero_le 1) hopen
  obtain ⟨rest, -, -, htake⟩ := takeFor?_eq_some hd htake
  obtain ⟨rest, -, -, hinside⟩ := takeFor?_eq_some (Nat.zero_le 2) htake
  cases hfront
  have hinner : o.tag.inner = inner := (congrArg (fun o => o.tag.inner) heq).symm
  rw [hinner]
  exact ⟨rest, closing, hinside⟩

/-- The inside of a tag ends before the first right delimiter. -/
theorem not_right_infix_inner (hd : d.fewestBraces = 0) (hne : d.right ≠ [])
    (h : d.firstTag? t = some o) : ¬d.right <:+: o.tag.inner := by
  rintro ⟨before, after, hinner⟩
  obtain ⟨rest, closing, hinside⟩ := exists_inside_of_firstTag? (by omega) h
  rw [inside?_eq_shortest?] at hinside
  obtain ⟨rest, -, -, hshortest⟩ := shortest?_eq_some hinside
  have hnone := hshortest before (d.right ++ after) (by rw [← hinner, List.append_assoc])
    (List.append_ne_nil_of_left_ne_nil hne after)
  have hsome := isSome_close? hd (after ++ rest)
  rw [← List.append_assoc, hnone] at hsome
  cases hsome

theorem firstTag?_eq_none_of_firstChar? (hd : d.fewestBraces ≤ d.mostBraces) {c : Char}
    (hc : d.firstChar? = some c) (ht : c ∉ t) : d.firstTag? t = none := by
  rw [Option.eq_none_iff_forall_ne_some]
  intro o ho
  obtain ⟨between, after, heq⟩ := (firstTag?_eq_some hd ho).eq_append
  have hleft : c ∈ d.left := List.mem_of_head? hc
  apply ht
  rw [heq]
  simp [hleft]

end Delimiters

end TemplateTag
