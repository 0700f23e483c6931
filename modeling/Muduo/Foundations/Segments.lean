import Mathlib.Data.List.Infix

/-! # A stream cut into segments

`segs : List (List α)` are the pieces in which a stream arrives and `segs.flatten` is the stream.
A position of the stream is passed in one of the segments (`exists_crossing`), and the segments that
have arrived at some time either end before it or include the one that passes it
(`prefix_crossing`). -/

namespace Muduo

namespace Segments

variable {α : Type*}

/-- **The segment in which the stream passes position `k`.** -/
theorem exists_crossing {segs : List (List α)} {k : ℕ} (hk : 0 < k)
    (h : k ≤ segs.flatten.length) : ∃ pre s post, segs = pre ++ s :: post ∧
      pre.flatten.length < k ∧ k ≤ (pre ++ [s]).flatten.length := by
  induction segs generalizing k with
  | nil => simp at h; omega
  | cons t segs ih =>
    by_cases ht : k ≤ t.length
    · exact ⟨[], t, segs, rfl, by simpa using hk, by simpa using ht⟩
    · rw [List.flatten_cons, List.length_append] at h
      obtain ⟨pre, s, post, rfl, hlt, hle⟩ := ih (k := k - t.length) (by omega) (by omega)
      refine ⟨t :: pre, s, post, rfl, ?_, ?_⟩
      · rw [List.flatten_cons, List.length_append]; omega
      · rw [List.cons_append, List.flatten_cons, List.length_append]; omega

/-- What has arrived ends before a given segment, or includes it. -/
theorem prefix_crossing {done pre post : List (List α)} {s : List α}
    (h : done <+: pre ++ s :: post) :
    done <+: pre ∨ ∃ post', post' <+: post ∧ done = pre ++ s :: post' := by
  rcases List.prefix_or_prefix_of_prefix h (List.prefix_append pre (s :: post)) with h' | ⟨t, rfl⟩
  · exact .inl h'
  · cases t with
    | nil => exact .inl (by simp)
    | cons u t =>
      rw [List.prefix_append_right_inj, List.cons_prefix_cons] at h
      exact .inr ⟨t, h.2, by rw [h.1]⟩

/-- Of two beginnings of a stream, the shorter one lacks something of the longer one. -/
theorem exists_missing {x y z : List α} (hx : x <+: z) (hy : y <+: z) (h : x.length < y.length) :
    ∃ t, t ≠ [] ∧ x ++ t = y := by
  obtain ⟨t, rfl⟩ := List.prefix_of_prefix_length_le hx hy h.le
  refine ⟨t, ?_, rfl⟩
  rintro rfl
  rw [List.append_nil] at h
  exact absurd h (lt_irrefl _)

/-- Less has arrived before than after. -/
theorem length_flatten_le {done segs : List (List α)} (h : done <+: segs) :
    done.flatten.length ≤ segs.flatten.length := by
  obtain ⟨t, rfl⟩ := h
  rw [List.flatten_append, List.length_append]
  omega

end Segments

end Muduo
