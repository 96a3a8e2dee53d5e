import TemplateTag.Proofs.RawArgument.Coverage
import TemplateTag.Proofs.Text.Fields
/-!
# Raw arguments are parts of the text

Whatever the dialect and however the words of a text pair up, each raw argument stands in the text as
it is.
-/
namespace TemplateTag

theorem Span.slice_infix (t : Text) (s : Span) : s.slice t <:+: t :=
  (List.take_prefix _ _).isInfix.trans (List.drop_suffix _ _).isInfix

theorem infix_of_mem_words {t : Text} {w : Word} (h : w ∈ t.words) : w.text <:+: t := by
  obtain ⟨before, after, hwords⟩ := List.append_of_mem h
  have hsplit : t.words = before ++ [w] ++ after := by simpa using hwords
  obtain ⟨rest, ht⟩ := exists_eq_flatten_of_words hsplit
  refine ⟨Word.flatten before ++ w.gap, rest, ?_⟩
  rw [ht]
  simp [Word.flatten_cons]

theorem exists_words_of_mem_runs {t : Text} {r : Run} (h : r ∈ (Runs.ofWords t.words).runs) :
    ∃ before after, t.words = before ++ r.words ++ after := by
  obtain ⟨more, hwords⟩ := Runs.exists_eq_words_append t.words
  obtain ⟨rs, rs', hruns⟩ := List.append_of_mem h
  refine ⟨rs.flatMap Run.words, rs'.flatMap Run.words ++ more, ?_⟩
  rw [hwords, hruns]
  simp

theorem infix_of_mem_runs {t : Text} {r : Run} (h : r ∈ (Runs.ofWords t.words).runs) :
    r.text <:+: t := by
  obtain ⟨before, after, hwords⟩ := exists_words_of_mem_runs h
  obtain ⟨rest, ht⟩ := exists_eq_flatten_of_words hwords
  rw [ht, ← Run.slice_span (Word.flatten before) rest r]
  exact Span.slice_infix _ _

theorem infix_of_mem_rawArguments {d : Dialect} {nested : Bool} {tag source raw : Text}
    (h : raw ∈ (rawArguments d nested tag source).value) : raw <:+: source := by
  rw [rawArguments] at h
  split at h
  · rw [Reported.value_pure, List.splitOn_eq_splitOnP] at h
    exact (Text.of_mem_splitOnP h).1
  · split at h
    · obtain ⟨r, hr, rfl⟩ := List.mem_map.mp h
      exact infix_of_mem_runs hr
    · obtain ⟨w, hw, rfl⟩ := List.mem_map.mp h
      exact infix_of_mem_words hw

end TemplateTag
