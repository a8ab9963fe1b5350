import Mathlib.Data.List.Basic

/-!
# Delimited framing of a stream

A stream is cut at each occurrence of a delimiter: `lines` are the pieces that
were terminated, `tail` is what follows the last delimiter.  A receiver sees the
stream in chunks and keeps a buffer.  What makes that work is `cut_append`: the
lines of a longer stream are those of the shorter one followed by the lines of
*what was left over* together with the new chunk, however the chunks were cut.
-/

namespace SocketExchange.Lib.Framing

variable {α : Type*} [DecidableEq α] (d : α)

/-- The terminated pieces of a stream, and the rest. -/
def cut : List α → List (List α) × List α
  | [] => ([], [])
  | c :: stream =>
      if c = d then ([] :: (cut stream).1, (cut stream).2)
      else
        match (cut stream).1 with
        | [] => ([], c :: (cut stream).2)
        | line :: rest => ((c :: line) :: rest, (cut stream).2)

def lines (stream : List α) : List (List α) := (cut d stream).1

def tail (stream : List α) : List α := (cut d stream).2

variable {d}

/-- **A chunk continues what was left over.** -/
theorem cut_append (x y : List α) :
    cut d (x ++ y) = (lines d x ++ lines d (tail d x ++ y), tail d (tail d x ++ y)) := by
  induction x with
  | nil => rfl
  | cons c x ih =>
      simp only [lines, tail] at ih ⊢
      by_cases hc : c = d
      · simp only [List.cons_append, cut, if_pos hc, ih]
      · cases hx : (cut d x).1 with
        | cons line rest => simp only [List.cons_append, cut, if_neg hc, ih, hx]
        | nil =>
            rw [hx, List.nil_append] at ih
            simp only [List.cons_append, cut, if_neg hc, ih, hx, List.nil_append]

theorem lines_append (x y : List α) :
    lines d (x ++ y) = lines d x ++ lines d (tail d x ++ y) := by
  rw [lines, cut_append]

theorem tail_append (x y : List α) : tail d (x ++ y) = tail d (tail d x ++ y) := by
  rw [tail, cut_append]

/-- A stream without a delimiter is all tail. -/
theorem cut_of_notMem {x : List α} (h : d ∉ x) : cut d x = ([], x) := by
  induction x with
  | nil => rfl
  | cons c x ih =>
      rw [List.mem_cons, not_or] at h
      obtain ⟨hc, hx⟩ := h
      simp only [cut, if_neg (Ne.symm hc), ih hx]

theorem lines_of_notMem {x : List α} (h : d ∉ x) : lines d x = [] := by
  rw [lines, cut_of_notMem h]

theorem tail_of_notMem {x : List α} (h : d ∉ x) : tail d x = x := by
  rw [tail, cut_of_notMem h]

/-- A stream that starts with a terminated line. -/
theorem cut_line {line : List α} (h : d ∉ line) (rest : List α) :
    cut d (line ++ d :: rest) = (line :: lines d rest, tail d rest) := by
  induction line with
  | nil => simp only [List.nil_append, cut, if_pos, lines, tail]
  | cons c line ih =>
      rw [List.mem_cons, not_or] at h
      obtain ⟨hc, hline⟩ := h
      simp only [List.cons_append, cut, if_neg (Ne.symm hc), ih hline]

theorem lines_line {line : List α} (h : d ∉ line) (rest : List α) :
    lines d (line ++ d :: rest) = line :: lines d rest := by
  rw [lines, cut_line h]

theorem tail_line {line : List α} (h : d ∉ line) (rest : List α) :
    tail d (line ++ d :: rest) = tail d rest := by
  rw [tail, cut_line h]

theorem notMem_tail (x : List α) : d ∉ tail d x := by
  induction x with
  | nil => exact List.not_mem_nil
  | cons c x ih =>
      simp only [tail] at ih ⊢
      by_cases hc : c = d
      · simpa only [cut, if_pos hc] using ih
      · cases hx : (cut d x).1 with
        | cons line rest => simpa only [cut, if_neg hc, hx] using ih
        | nil =>
            simp only [cut, if_neg hc, hx, List.mem_cons, not_or]
            exact ⟨Ne.symm hc, ih⟩

/-- No piece holds a delimiter. -/
theorem notMem_of_mem_lines {x line : List α} (h : line ∈ lines d x) : d ∉ line := by
  induction x generalizing line with
  | nil => cases h
  | cons c x ih =>
      simp only [lines] at ih h
      by_cases hc : c = d
      · rw [cut, if_pos hc, List.mem_cons] at h
        rcases h with rfl | h
        · exact List.not_mem_nil
        · exact ih h
      · rw [cut, if_neg hc] at h
        cases hx : (cut d x).1 with
        | nil =>
            rw [hx] at h
            cases h
        | cons first rest =>
            rw [hx] at h ih
            rcases List.mem_cons.mp h with rfl | h
            · rw [List.mem_cons, not_or]
              exact ⟨Ne.symm hc, ih List.mem_cons_self⟩
            · exact ih (List.mem_cons_of_mem first h)

/-- The lines seen so far are final. -/
theorem lines_isPrefix {x y : List α} (h : x <+: y) : lines d x <+: lines d y := by
  obtain ⟨z, rfl⟩ := h
  rw [lines_append]
  exact List.prefix_append _ _

/-- **Partial lines are short.**  If no piece of the whole stream is longer than
`n`, then neither is what is left over at any point of it. -/
theorem tail_length_le {n : Nat} {x y : List α} (h : x <+: y)
    (hlines : ∀ line ∈ lines d y, line.length ≤ n) (htail : (tail d y).length ≤ n) :
    (tail d x).length ≤ n := by
  obtain ⟨z, rfl⟩ := h
  rw [lines_append] at hlines
  rw [tail_append] at htail
  by_cases hz : d ∈ z
  · -- the rest of the stream terminates the line that is left over
    obtain ⟨a, b, rfl, ha⟩ := List.eq_append_cons_of_mem hz
    have hnot : d ∉ tail d x ++ a := by
      rw [List.mem_append, not_or]
      exact ⟨notMem_tail x, ha⟩
    rw [← List.append_assoc, lines_line hnot] at hlines
    have hle := hlines (tail d x ++ a) (by simp)
    rw [List.length_append] at hle
    omega
  · have hnot : d ∉ tail d x ++ z := by
      rw [List.mem_append, not_or]
      exact ⟨notMem_tail x, hz⟩
    rw [tail_of_notMem hnot, List.length_append] at htail
    omega

end SocketExchange.Lib.Framing
