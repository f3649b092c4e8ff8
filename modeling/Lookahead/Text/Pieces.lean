/-!
# Pieces — cutting text at a separator

`pieces sep text` is the list of stretches of `text` between the occurrences of `sep`, empty
stretches included, so there is always one more piece than there are separators. Putting the
separator between the pieces gives the text back.
-/

namespace Lookahead
namespace Text

def pieces (sep : Char) : List Char → List (List Char)
  | [] => [[]]
  | c :: text =>
      if c = sep then [] :: pieces sep text
      else (pieces sep text).modifyHead (c :: ·)

/-! ## Laws -/

variable {sep : Char}

theorem pieces_ne_nil (text : List Char) : pieces sep text ≠ [] := by
  induction text with
  | nil =>
      simp [pieces]
  | cons c text ih =>
      by_cases h : c = sep
      · simp [pieces, h]
      · cases hp : pieces sep text with
        | nil => exact absurd hp ih
        | cons piece more => simp [pieces, h, hp]

theorem intercalate_pieces (text : List Char) :
    List.intercalate [sep] (pieces sep text) = text := by
  induction text with
  | nil =>
      rfl
  | cons c text ih =>
      cases hp : pieces sep text with
      | nil => exact absurd hp (pieces_ne_nil text)
      | cons piece more =>
          rw [hp] at ih
          by_cases h : c = sep
          · simp [pieces, h, hp, ih]
          · cases more with
            | nil => simpa [pieces, h, hp] using ih
            | cons next more => simpa [pieces, h, hp] using ih

theorem not_mem_of_mem_pieces (text : List Char) : ∀ piece ∈ pieces sep text, sep ∉ piece := by
  induction text with
  | nil =>
      simp [pieces]
  | cons c text ih =>
      cases hp : pieces sep text with
      | nil => exact absurd hp (pieces_ne_nil text)
      | cons piece more =>
          rw [hp] at ih
          by_cases h : c = sep
          · simpa [pieces, h, hp] using ih
          · have hc : sep ≠ c := fun e => h e.symm
            simpa [pieces, h, hc, hp] using ih

/-- A separator ends a piece, whatever stands before and behind it. -/
theorem pieces_append_sep (front back : List Char) :
    pieces sep (front ++ sep :: back) = pieces sep front ++ pieces sep back := by
  induction front with
  | nil =>
      simp [pieces]
  | cons c front ih =>
      by_cases h : c = sep
      · simp [pieces, h, ih]
      · cases hp : pieces sep front with
        | nil => exact absurd hp (pieces_ne_nil front)
        | cons piece more => simp [pieces, h, hp, ih]

theorem pieces_of_not_mem (piece : List Char) (h : sep ∉ piece) :
    pieces sep piece = [piece] := by
  induction piece with
  | nil =>
      rfl
  | cons c piece ih =>
      simp only [List.mem_cons, not_or] at h
      have hc : c ≠ sep := fun e => h.1 e.symm
      simp [pieces, hc, ih h.2]

/-- Pieces free of the separator are found again. -/
theorem pieces_intercalate (parts : List (List Char)) (hne : parts ≠ [])
    (hfree : ∀ piece ∈ parts, sep ∉ piece) :
    pieces sep (List.intercalate [sep] parts) = parts := by
  induction parts with
  | nil =>
      exact absurd rfl hne
  | cons piece more ih =>
      have hpiece := hfree piece (by simp)
      cases more with
      | nil =>
          simpa using pieces_of_not_mem piece hpiece
      | cons next more =>
          have hrest := ih (by simp) fun p hp => hfree p (List.mem_cons_of_mem _ hp)
          simp [pieces_append_sep, pieces_of_not_mem piece hpiece, hrest]

end Text
end Lookahead
