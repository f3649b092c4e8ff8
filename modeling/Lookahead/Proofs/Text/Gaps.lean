import Lookahead.Text.Wildcard

/-!
# Text.Gaps — how a pattern lies in a name

A pattern occurs in a name if its parts can be put there in order, with a gap before each part but
the first one. The search does not try all gaps: it puts each part after the shortest gap there is.
Nothing is lost by that. Where a part is moved to the left over some of its gap, there is a gap
behind it that has as many of each character, so no line end either, and the next part may have the
longer gap.

* `Wildcard.Follows` — parts stand in a text, each after a gap;
* `Wildcard.exists_gap_behind` — what moving a part to the left leaves behind it;
* `Wildcard.follow_iff`, `Wildcard.find_iff` — the search finds all that can be found;
* `Wildcard.Spans`, `Wildcard.occurs_iff_spans` — the stretch of a text that the parts take up;
* `Wildcard.Placement`, `Wildcard.occurs_iff_placement` — where a pattern is found, with all of its
  gaps.
-/

namespace Lookahead
namespace Wildcard

/-! ## Parts with gaps -/

/-- The parts stand in a text in order, each after a gap that does not cross the end of a line.
Anything may stand behind them. -/
inductive Follows : List (List Char) → List Char → Prop
  | done (after : List Char) : Follows [] after
  | part {gap part rest : List Char} {more : List (List Char)} (hgap : lineEnd ∉ gap)
      (hmore : Follows more rest) : Follows (part :: more) (gap ++ (part ++ rest))

variable {gap part first text rest left extra : List Char} {more : List (List Char)}

/-- The first gap may be longer. -/
theorem Follows.lengthen (h : Follows more text) (hextra : lineEnd ∉ extra) :
    Follows more (extra ++ text) := by
  cases h with
  | done after =>
      exact .done _
  | @part gap part rest more hgap hmore =>
      have hlonger : lineEnd ∉ extra ++ gap := by
        simp [hextra, hgap]
      simpa using Follows.part hlonger hmore

/-- With all gaps listed, the text is each gap with its part in turn, and what stands behind. -/
theorem follows_iff_gaps :
    Follows more text ↔ ∃ (gaps : List (List Char)) (after : List Char),
      gaps.length = more.length ∧ (∀ gap ∈ gaps, lineEnd ∉ gap) ∧
        text = (List.zipWith (· ++ ·) gaps more).flatten ++ after := by
  constructor
  · intro h
    induction h with
    | done after =>
        exact ⟨[], after, rfl, by simp, rfl⟩
    | @part gap part rest more hgap _ ih =>
        rcases ih with ⟨gaps, after, hlength, hgaps, rfl⟩
        refine ⟨gap :: gaps, after, by simp [hlength], ?_, by simp⟩
        exact List.forall_mem_cons.2 ⟨hgap, hgaps⟩
  · rintro ⟨gaps, after, hlength, hgaps, rfl⟩
    induction more generalizing gaps with
    | nil =>
        simpa using Follows.done after
    | cons part more ih =>
        cases gaps with
        | nil =>
            simp at hlength
        | cons gap gaps =>
            rcases List.forall_mem_cons.1 hgaps with ⟨hgap, hrest⟩
            have hmore := ih gaps (by simpa using hlength) hrest
            simpa using Follows.part hgap hmore

/-! ## Shortest gaps -/

/-- If a part stands in front of a gap and behind it, there is a gap behind the place in front that
ends where the other place does. -/
theorem exists_gap_behind (h : part ++ left = gap ++ (part ++ rest)) (hgap : lineEnd ∉ gap) :
    ∃ extra, lineEnd ∉ extra ∧ left = extra ++ rest := by
  have hsplit : part ++ left = (gap ++ part) ++ rest := by
    simpa using h
  rcases List.append_eq_append_iff.1 hsplit with ⟨extra, hboth, hleft⟩ | ⟨surplus, hpart, hrest⟩
  · -- the gaps before and behind the part have the same characters
    have hcount := congrArg (List.count lineEnd) hboth
    have hnone : List.count lineEnd gap = 0 := List.count_eq_zero.2 hgap
    simp only [List.count_append] at hcount
    have hextra : List.count lineEnd extra = 0 := by
      omega
    exact ⟨extra, List.count_eq_zero.1 hextra, hleft⟩
  · have hlength := congrArg List.length hpart
    simp only [List.length_append] at hlength
    have hsurplus : surplus = [] := by
      apply List.eq_nil_of_length_eq_zero
      omega
    exact ⟨[], List.not_mem_nil, by simp [hrest, hsurplus]⟩

theorem seek_of_strip (h : strip part text = some rest) : seek part text = some rest := by
  cases text with
  | nil => exact h
  | cons c text => simp only [seek, h]

/-- What is found stands behind a gap. -/
theorem exists_gap_of_seek (h : seek part text = some rest) :
    ∃ gap, lineEnd ∉ gap ∧ text = gap ++ (part ++ rest) := by
  induction text with
  | nil =>
      have hstrip : strip part [] = some rest := h
      exact ⟨[], List.not_mem_nil, by simpa using strip_eq_some_iff.1 hstrip⟩
  | cons c text ih =>
      rw [seek] at h
      split at h
      · next found hstrip =>
          cases h
          exact ⟨[], List.not_mem_nil, by simpa using strip_eq_some_iff.1 hstrip⟩
      · split at h
        · cases h
        · next hc =>
            rcases ih h with ⟨gap, hgap, rfl⟩
            refine ⟨c :: gap, ?_, rfl⟩
            simp [hgap, Ne.symm hc]

/-- What stands behind a gap is found there or further to the left. -/
theorem exists_seek_of_gap (part rest : List Char) (hgap : lineEnd ∉ gap) :
    ∃ extra, lineEnd ∉ extra ∧ seek part (gap ++ (part ++ rest)) = some (extra ++ rest) := by
  induction gap with
  | nil =>
      exact ⟨[], List.not_mem_nil, seek_of_strip (strip_append part rest)⟩
  | cons c gap ih =>
      cases hstrip : strip part (c :: gap ++ (part ++ rest)) with
      | some left =>
          -- the part stands here too, so the gap behind this place is a longer one
          have hplaces : part ++ left = c :: gap ++ (part ++ rest) :=
            (strip_eq_some_iff.1 hstrip).symm
          rcases exists_gap_behind hplaces hgap with ⟨extra, hextra, rfl⟩
          exact ⟨extra, hextra, seek_of_strip hstrip⟩
      | none =>
          rcases not_or.1 (mt List.mem_cons.2 hgap) with ⟨hc, hrest⟩
          rcases ih hrest with ⟨extra, hextra, hseek⟩
          refine ⟨extra, hextra, ?_⟩
          rw [List.cons_append] at hstrip ⊢
          simpa only [seek, hstrip, Ne.symm hc, if_false] using hseek

/-! ## The search -/

/-- Shortest gaps are enough to find parts one after the other. -/
theorem follow_iff : follow more text = true ↔ Follows more text := by
  induction more generalizing text with
  | nil =>
      exact iff_of_true rfl (.done text)
  | cons part more ih =>
      constructor
      · intro h
        cases hseek : seek part text with
        | none =>
            simp [follow, hseek] at h
        | some rest =>
            rcases exists_gap_of_seek hseek with ⟨gap, hgap, rfl⟩
            have hrest : follow more rest = true := by
              simpa only [follow, hseek] using h
            exact .part hgap (ih.1 hrest)
      · intro h
        cases h with
        | @part gap _ rest _ hgap hmore =>
            rcases exists_seek_of_gap part rest hgap with ⟨extra, hextra, hseek⟩
            have hlonger : follow more (extra ++ rest) = true := ih.2 (hmore.lengthen hextra)
            simpa only [follow, hseek] using hlonger

theorem starts_iff :
    starts first more text = true ↔ ∃ rest, text = first ++ rest ∧ Follows more rest := by
  unfold starts
  constructor
  · intro h
    cases hstrip : strip first text with
    | none =>
        simp [hstrip] at h
    | some rest =>
        exact ⟨rest, strip_eq_some_iff.1 hstrip, follow_iff.1 (by simpa only [hstrip] using h)⟩
  · rintro ⟨rest, rfl, hmore⟩
    simpa only [strip_append] using follow_iff.2 hmore

theorem find_iff :
    find first more text = true ↔
      ∃ before rest, text = before ++ (first ++ rest) ∧ Follows more rest := by
  induction text with
  | nil =>
      simp only [find, starts_iff]
      constructor
      · rintro ⟨rest, htext, hmore⟩
        exact ⟨[], rest, htext, hmore⟩
      · rintro ⟨before, rest, htext, hmore⟩
        have hbefore : before = [] := (List.append_eq_nil_iff.1 htext.symm).1
        exact ⟨rest, by simpa [hbefore] using htext, hmore⟩
  | cons c text ih =>
      simp only [find, Bool.or_eq_true, starts_iff, ih]
      constructor
      · rintro (⟨rest, htext, hmore⟩ | ⟨before, rest, rfl, hmore⟩)
        · exact ⟨[], rest, htext, hmore⟩
        · exact ⟨c :: before, rest, rfl, hmore⟩
      · rintro ⟨before, rest, htext, hmore⟩
        cases before with
        | nil =>
            exact .inl ⟨rest, htext, hmore⟩
        | cons d before =>
            rcases List.cons.inj htext with ⟨-, htext⟩
            exact .inr ⟨before, rest, htext, hmore⟩

/-! ## Whole stretches -/

/-- The parts fill a text from its start to its end, with a gap between each two of them. -/
inductive Spans : List (List Char) → List Char → Prop
  | last (part : List Char) : Spans [part] part
  | part {part gap rest : List Char} {more : List (List Char)} (hgap : lineEnd ∉ gap)
      (hmore : Spans more rest) : Spans (part :: more) (part ++ (gap ++ rest))

theorem spans_singleton_iff : Spans [part] text ↔ text = part := by
  constructor
  · intro h
    cases h with
    | last => rfl
    | part _ hmore => cases hmore
  · rintro rfl
    exact .last text

theorem spans_cons_cons_iff {next : List Char} :
    Spans (part :: next :: more) text ↔
      ∃ gap rest, lineEnd ∉ gap ∧ text = part ++ (gap ++ rest) ∧ Spans (next :: more) rest := by
  constructor
  · intro h
    cases h with
    | @part _ gap rest _ hgap hmore => exact ⟨gap, rest, hgap, rfl, hmore⟩
  · rintro ⟨gap, rest, hgap, rfl, hmore⟩
    exact .part hgap hmore

/-- What the parts fill begins with the first one, whether it is the last one too or not. -/
theorem Spans.exists_append (h : Spans (first :: more) text) : ∃ inner, text = first ++ inner := by
  cases h with
  | last => exact ⟨[], by simp⟩
  | part _ _ => exact ⟨_, rfl⟩

/-- Parts follow in a text if they fill a stretch at its start, once a part is put before it. -/
theorem follows_iff_spans :
    Follows more text ↔
      ∃ middle after, text = middle ++ after ∧ Spans (first :: more) (first ++ middle) := by
  constructor
  · intro h
    induction h generalizing first with
    | done after =>
        exact ⟨[], after, rfl, by simpa using Spans.last first⟩
    | @part gap part rest more hgap _ ih =>
        rcases @ih part with ⟨middle, after, rfl, hspans⟩
        exact ⟨gap ++ (part ++ middle), after, by simp, .part hgap hspans⟩
  · rintro ⟨middle, after, rfl, hspans⟩
    induction more generalizing first middle with
    | nil =>
        exact .done _
    | cons part more ih =>
        -- behind the first part comes a gap, and then what the others fill
        rcases spans_cons_cons_iff.1 hspans with ⟨gap, rest, hgap, hmiddle, hrest⟩
        obtain rfl := List.append_cancel_left hmiddle
        rcases hrest.exists_append with ⟨inner, rfl⟩
        simpa using Follows.part hgap (ih inner hrest)

/-- The parts occur in a text if they fill a stretch of it. -/
theorem occurs_iff_spans {parts : List (List Char)} (hparts : parts ≠ []) :
    occurs text parts = true ↔
      ∃ before middle after, text = before ++ (middle ++ after) ∧ Spans parts middle := by
  cases parts with
  | nil =>
      exact absurd rfl hparts
  | cons first more =>
      rw [occurs, find_iff]
      constructor
      · rintro ⟨before, rest, rfl, hmore⟩
        have hstretch : ∃ middle after, rest = middle ++ after ∧
            Spans (first :: more) (first ++ middle) := follows_iff_spans.1 hmore
        rcases hstretch with ⟨middle, after, rfl, hspans⟩
        exact ⟨before, first ++ middle, after, by simp, hspans⟩
      · rintro ⟨before, middle, after, rfl, hspans⟩
        rcases hspans.exists_append with ⟨inner, rfl⟩
        refine ⟨before, inner ++ after, by simp, ?_⟩
        exact follows_iff_spans.2 ⟨inner, after, rfl, hspans⟩

/-! ## Placements -/

/-- A way to lay a pattern into a name: its first part with any text before it, each further part
behind a gap within a line, and any text behind the last one. -/
structure Placement (pattern name : String) where
  before : List Char
  first : List Char
  more : List (List Char)
  gaps : List (List Char)
  after : List Char
  parts_eq : parts pattern = first :: more
  length_gaps : gaps.length = more.length
  inLine : ∀ gap ∈ gaps, '\n' ∉ gap
  written : name.toList = before ++ first ++ (List.zipWith (· ++ ·) gaps more).flatten ++ after

theorem occurs_iff_placement {pattern name : String} :
    occurs name.toList (parts pattern) = true ↔ Nonempty (Placement pattern name) := by
  cases hparts : parts pattern with
  | nil => exact absurd hparts (Text.pieces_ne_nil _)
  | cons first more =>
      simp only [occurs, find_iff, follows_iff_gaps]
      constructor
      · rintro ⟨before, rest, hname, gaps, after, hlength, hgaps, rfl⟩
        exact ⟨⟨before, first, more, gaps, after, hparts, hlength, hgaps, by simpa using hname⟩⟩
      · rintro ⟨before, _, _, gaps, after, hsame, hlength, hgaps, hname⟩
        rcases List.cons.inj (hparts.symm.trans hsame) with ⟨rfl, rfl⟩
        exact ⟨before, _, by simpa using hname, gaps, after, hlength, hgaps, rfl⟩

end Wildcard
end Lookahead
