import Lookahead.Exclusion.Lookup
import Lookahead.Proofs.Text.Gaps

/-!
# Text.Expressions — what is found for an expression

An engine is not looked into. What is relied on is what an expression stands for, and that a search
in time finds a stretch of that kind wherever there is one. Then an engine finds the expression of a
pattern exactly in the names into which the pattern can be laid. The standard engine, which reads
the parts of an expression back, can be relied on.

* `Engine.Reliable` — what is relied on of an engine;
* `Engine.Reliable.matches_join_iff` — what the expression for parts with gaps stands for;
* `Engine.Reliable.found_iff_occurs` — where the expression of a pattern is found;
* `Engine.reliable_standard` — the standard engine;
* `finds_iff_placement` — where a pattern is found in time.
-/

namespace Lookahead

/-! ## Engines to rely on -/

/-- An engine can be relied on, where `Matches expression text` says that an expression stands for
all of a text. -/
structure Engine.Reliable (engine : Engine) (Matches : List Char → List Char → Prop) : Prop where
  /-- What is escaped stands for itself. -/
  literal (part text : List Char) : Matches (engine.escape part) text ↔ text = part
  /-- A gap stands for anything within a line. -/
  stretch (text : List Char) : Matches Engine.gap text ↔ Wildcard.lineEnd ∉ text
  /-- What is written one after the other stands for texts one after the other. -/
  append (part : List Char) (more : List (List Char)) (text : List Char) :
    Matches (engine.escape part ++ Engine.gap ++ engine.join more) text ↔
      ∃ front middle rest, text = front ++ (middle ++ rest) ∧ Matches (engine.escape part) front ∧
        Matches Engine.gap middle ∧ Matches (engine.join more) rest
  /-- A search that ends in time finds a stretch that the expression stands for, if there is one. -/
  search {seconds : Float} {parts : List (List Char)} {text : List Char}
    (hintime : engine.search seconds (engine.join parts) text ≠ .timedOut) :
    engine.search seconds (engine.join parts) text = .found ↔
      ∃ before middle after, text = before ++ (middle ++ after) ∧
        Matches (engine.join parts) middle

/-- No search takes longer than the limit. -/
def Timeout.Prompt (timeout : Timeout) : Prop :=
  ∀ name pattern, timeout.search name pattern ≠ .timedOut

namespace Engine

section Reliable

variable {engine : Engine} {Matches : List Char → List Char → Prop} {first text : List Char}
  {more : List (List Char)}

namespace Reliable

/-- The expression for parts with gaps between them stands for what the parts fill. -/
theorem matches_join_iff (h : engine.Reliable Matches) :
    Matches (engine.join (first :: more)) text ↔ Wildcard.Spans (first :: more) text := by
  induction more generalizing first text with
  | nil =>
      rw [join_singleton, h.literal, Wildcard.spans_singleton_iff]
  | cons next more ih =>
      rw [join_cons_cons, h.append, Wildcard.spans_cons_cons_iff]
      simp only [h.literal, h.stretch, ih]
      constructor
      · rintro ⟨front, gap, rest, rfl, rfl, hgap, hrest⟩
        exact ⟨gap, rest, hgap, rfl, hrest⟩
      · rintro ⟨gap, rest, hgap, rfl, hrest⟩
        exact ⟨first, gap, rest, rfl, rfl, hgap, hrest⟩

/-- In time, the expression of a pattern is found in the texts in which its parts occur. -/
theorem found_iff_occurs (h : engine.Reliable Matches) {seconds : Float} {pattern : String}
    (hintime : engine.search seconds (engine.expression pattern) text ≠ .timedOut) :
    engine.search seconds (engine.expression pattern) text = .found ↔
      Wildcard.occurs text (Wildcard.parts pattern) = true := by
  rw [expression] at hintime ⊢
  have hparts : Wildcard.parts pattern ≠ [] := Text.pieces_ne_nil _
  rw [h.search hintime, Wildcard.occurs_iff_spans hparts]
  obtain ⟨first, more, hcons⟩ := List.exists_cons_of_ne_nil hparts
  simp only [hcons, h.matches_join_iff]

end Reliable

end Reliable

/-! ## The standard engine reads its expressions back -/

theorem read_ne_nil (expression : List Char) : read expression ≠ [] := by
  fun_induction read expression <;> simp_all

theorem read_marked (c : Char) (rest : List Char) :
    read ('\\' :: c :: rest) = (read rest).modifyHead (c :: ·) := by
  simp [read]

theorem read_unmarked {c : Char} (hmark : c ≠ '\\') (hpoint : c ≠ '.') (rest : List Char) :
    read (c :: rest) = (read rest).modifyHead (c :: ·) := by
  cases rest with
  | nil => simp [read]
  | cons d rest => simp [read, hmark, hpoint]

/-- A marked text is read as it was. -/
theorem read_mark_append (part rest : List Char) :
    read (mark part ++ rest) = (read rest).modifyHead (part ++ ·) := by
  induction part with
  | nil =>
      cases hread : read rest <;> simp [mark, hread]
  | cons c part ih =>
      have hhead : ∀ parts : List (List Char),
          (parts.modifyHead (part ++ ·)).modifyHead (c :: ·) =
            parts.modifyHead (c :: part ++ ·) := by
        intro parts
        cases parts <;> rfl
      by_cases hoperator : operators.contains c || Text.isBlank c
      · have hmark : mark (c :: part) ++ rest = '\\' :: c :: (mark part ++ rest) := by
          simp only [mark, List.flatMap_cons, hoperator, if_true]
          rfl
        rw [hmark, read_marked, ih, hhead]
      · have hmark : mark (c :: part) ++ rest = c :: (mark part ++ rest) := by
          simp only [mark, List.flatMap_cons, hoperator]
          rfl
        -- an operator would have been marked
        have hbackslash : c ≠ '\\' := by
          rintro rfl
          exact hoperator rfl
        have hpoint : c ≠ '.' := by
          rintro rfl
          exact hoperator rfl
        rw [hmark, read_unmarked hbackslash hpoint, ih, hhead]

theorem read_mark (part : List Char) : read (mark part) = [part] := by
  simpa [read] using read_mark_append part []

theorem read_mark_gap (part rest : List Char) :
    read (mark part ++ gap ++ rest) = part :: read rest := by
  have hgap : read (gap ++ rest) = [] :: read rest := by
    simp [gap, read]
  rw [List.append_assoc, read_mark_append, hgap]
  simp

theorem spans_read_mark_iff {part text : List Char} :
    Wildcard.Spans (read (mark part)) text ↔ text = part := by
  rw [read_mark, Wildcard.spans_singleton_iff]

/-- A gap is read as two parts that are empty. -/
theorem spans_read_gap_iff {text : List Char} :
    Wildcard.Spans (read gap) text ↔ Wildcard.lineEnd ∉ text := by
  have hread : read gap = [[], []] := rfl
  rw [hread, Wildcard.spans_cons_cons_iff]
  simp [Wildcard.spans_singleton_iff]

/-- The standard engine can be relied on: it reads an expression as parts, and the expression stands
for what these fill. -/
theorem reliable_standard :
    standard.Reliable fun expression => Wildcard.Spans (read expression) where
  literal := fun _ _ => spans_read_mark_iff
  stretch := fun _ => spans_read_gap_iff
  append := by
    intro part more text
    have hread : read (standard.escape part ++ gap ++ standard.join more) =
        part :: read (standard.join more) := read_mark_gap part _
    have hpart : ∀ front, Wildcard.Spans (read (standard.escape part)) front ↔ front = part :=
      fun _ => spans_read_mark_iff
    obtain ⟨next, others, hcons⟩ := List.exists_cons_of_ne_nil (read_ne_nil (standard.join more))
    simp only [hread, hpart, spans_read_gap_iff, hcons, Wildcard.spans_cons_cons_iff]
    constructor
    · rintro ⟨middle, rest, hmiddle, htext, hrest⟩
      exact ⟨part, middle, rest, htext, rfl, hmiddle, hrest⟩
    · rintro ⟨front, middle, rest, htext, rfl, hmiddle, hrest⟩
      exact ⟨middle, rest, hmiddle, htext, hrest⟩
  search := by
    intro seconds parts text hintime
    rw [standard_search_eq_found_iff hintime, Wildcard.occurs_iff_spans (read_ne_nil _)]

end Engine

/-! ## Patterns in names -/

/-- The standard engine takes no longer than a limit that is not too short. -/
theorem Timeout.prompt_standard {setting : Timeout.Setting}
    (h : Engine.tooShort (Timeout.limit ⟨setting, .standard⟩) = false) :
    Timeout.Prompt ⟨setting, .standard⟩ :=
  fun _ _ => Engine.standard_search_ne_timedOut h

theorem Timeout.prompt_unset : Timeout.unset.Prompt :=
  prompt_standard (by decide)

/-- If the search ends in time, a pattern is found in a name exactly if it can be laid into it: the
parts in order, anything before the first and behind the last one, and between neighbours a gap
in which anything may stand but the end of a line. The parts are what stands between the stars of
the pattern, and they have to be in the name as they are written. This is so for every engine that
can be relied on. -/
theorem finds_iff_placement {timeout : Timeout} {Matches : List Char → List Char → Prop}
    (hengine : timeout.engine.Reliable Matches) {pattern name : String}
    (hintime : timeout.search name pattern ≠ .timedOut) :
    ['*'].intercalate (Wildcard.parts pattern) = pattern.toList ∧
      (∀ part ∈ Wildcard.parts pattern, '*' ∉ part) ∧
      (timeout.attempt name pattern).outcome = .ok (timeout.finds name pattern) ∧
      (timeout.finds name pattern = true ↔ Nonempty (Wildcard.Placement pattern name)) := by
  refine ⟨Text.intercalate_pieces _, Text.not_mem_of_mem_pieces _,
    timeout.attempt_outcome name pattern, ?_⟩
  have hfound : timeout.search name pattern = .found ↔
      Wildcard.occurs name.toList (Wildcard.parts pattern) = true :=
    hengine.found_iff_occurs hintime
  rw [← Wildcard.occurs_iff_placement, ← hfound]
  simp [Timeout.finds]

/-- The first `a` of the name stands at the end of a line, so `b` has to follow the second one. The
gap before `c` is empty. -/
theorem sample_placement :
    Timeout.unset.search "a\na.bcb" "a*b*c" ≠ .timedOut ∧
      (Timeout.unset.attempt "a\na.bcb" "a*b*c").outcome = .ok true := by
  have hintime := Timeout.prompt_unset "a\na.bcb" "a*b*c"
  rcases finds_iff_placement Engine.reliable_standard hintime with ⟨-, -, houtcome, hfinds⟩
  refine ⟨hintime, houtcome.trans (congrArg Except.ok (hfinds.2 ⟨?_⟩))⟩
  exact ⟨['a', '\n'], ['a'], [['b'], ['c']], [['.'], []], ['b'], by decide, rfl, by decide,
    by decide⟩

/-- The one gap would have to hold the end of the line. -/
example : Timeout.unset.finds "a\nb" "a*b" = false := by decide

end Lookahead
