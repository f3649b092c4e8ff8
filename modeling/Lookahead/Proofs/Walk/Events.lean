import Lookahead.Proofs.Exclusion.Attempts
import Lookahead.Proofs.Walk.Nesting

/-!
# Walk.Events — what a walk has to report

Two things that a walk does on its way may be worth a report: it tries a pattern on the name of a
field, and it comes to a spread of a fragment that is not defined. `events` lists them in the order
of the walk, as far as it gets. Its notices are those of the events, and whether an event has any
depends on nothing but the limit on time.

* `Event` — a match that is tried, or a fragment that is missing;
* `events`, `notices_collect` — the events of a walk, and its notices;
* `Tries` — a walk comes to a field for which it tries a pattern;
* `attempt_mem_events_iff` — these are the matches among the events.
-/

namespace Lookahead

open FieldTree (gather)

inductive Event
  /-- A pattern is tried on the name of a field. -/
  | attempt (pattern name : String)
  /-- A fragment is spread that is not defined. -/
  | undefinedFragment (name : String)
  deriving DecidableEq, Repr

namespace Event

/-- What is reported of an event. -/
def notices (timeout : Timeout) : Event → List Notice
  | attempt pattern name => timeout.attemptNotices name pattern
  | undefinedFragment name => [.undefinedFragment name]

/-- What happens along a list, with each member in turn up to the first one that fails. -/
def along {α : Type} (contribute : α → Run FieldTree) (happens : α → List Event) :
    List α → List Event
  | [] => []
  | item :: items =>
      happens item ++
        match (contribute item).outcome with
        | .ok _ => along contribute happens items
        | .error _ => []

end Event

namespace Selection

/-- What happens because of one selection, where `inside` lists what happens in the walk through
the selections below it. -/
def events (context : Context) (inside : Rule → List Selection → List Event) (rule : Rule)
    (selection : Selection) : List Event :=
  match context.admits selection with
  | .ok true =>
      match selection with
      | field (some name) _ selectionSet =>
          (rule.tried context.timeout name).map (Event.attempt · name) ++
            if rule.verdict context.timeout name = .exclude then []
            else inside (rule.verdict context.timeout name) selectionSet.toList
      | inlineFragment _ selectionSet => inside rule selectionSet.toList
      | spread (some name) _ =>
          match context.fragments.lookup name with
          | .ok (some fragment) => inside rule fragment.selections
          | .ok none => [.undefinedFragment name]
          | .error _ => []
      | _ => []
  | _ => []

end Selection

/-- What happens in a walk through selections, at most `limit` levels deep. -/
def events (context : Context) : (limit : Nat) → Rule → List Selection → List Event
  | 0, _, _ => []
  | limit + 1, rule, selections =>
      Event.along (Selection.contribution context (collect context limit) rule)
        (Selection.events context (events context limit) rule) selections

variable {context : Context} {limit : Nat} {rule inner : Rule} {name pattern : String}
  {selections below : List Selection} {selection : Selection} {tree : FieldTree} {event : Event}

@[simp]
theorem events_nil (context : Context) (limit : Nat) (rule : Rule) :
    events context limit rule [] = [] := by
  cases limit <;> rfl

/-! ## Notices -/

/-- What is made of a value is not reported. -/
@[simp]
theorem Run.notices_map {α β : Type} (f : α → β) (run : Run α) :
    (f <$> run).notices = run.notices := by
  simp only [map_eq_pure_bind, Run.notices_bind]
  cases run.outcome <;> simp

namespace Event

theorem notices_gather {α : Type} {contribute : α → Run FieldTree} {happens : α → List Event}
    {timeout : Timeout}
    (h : ∀ item, (contribute item).notices = (happens item).flatMap (notices timeout))
    (items : List α) :
    (gather contribute items).notices =
      (along contribute happens items).flatMap (notices timeout) := by
  induction items with
  | nil =>
      rfl
  | cons item items ih =>
      rw [gather, along, List.flatMap_append, ← h item]
      cases hitem : (contribute item).outcome with
      | error failure =>
          -- the walk ends here with what was reported so far
          simp [Run.bind_of_error hitem]
      | ok first =>
          simp [Run.notices_bind_of_ok hitem, ih]

end Event

namespace Selection

variable {walk : Rule → List Selection → Run FieldTree}
  {inside : Rule → List Selection → List Event}

theorem notices_lookup_eq (context : Context) (rule : Rule) (name : String) :
    (rule.lookup context.timeout name).notices =
      ((rule.tried context.timeout name).map (Event.attempt · name)).flatMap
        (Event.notices context.timeout) := by
  rw [rule.notices_lookup, List.flatMap_map]
  rfl

/-- What a selection that stays reports, if the walk below it reports what happens there. -/
theorem notices_wanted (hadmits : context.admits selection = .ok true)
    (hnothing : ∀ rule, inside rule [] = [])
    (hwalk : ∀ rule below, (walk rule below).notices =
      (inside rule below).flatMap (Event.notices context.timeout)) :
    (selection.wanted context walk rule).notices =
      (selection.events context inside rule).flatMap (Event.notices context.timeout) := by
  cases selection with
  | field name directives selectionSet =>
      cases name with
      | none => simp [wanted, events, hadmits]
      | some name =>
          -- the matches are reported first, whether the field is wanted or not
          have hlookup := notices_lookup_eq context rule name
          by_cases hkept : rule.verdict context.timeout name = .exclude
          · simp [wanted_of_excluded hkept, events, hadmits, hkept, hlookup]
          · have hanswer := rule.outcome_lookup context.timeout name
            rw [wanted_of_kept hkept, Run.notices_bind_of_ok hanswer, hlookup]
            by_cases hempty : selectionSet.toList = []
            · simp [events, hadmits, hempty, hnothing]
            · simp [events, hadmits, hempty, hkept, hwalk]
  | inlineFragment directives selectionSet => simp [wanted, events, hadmits, hwalk]
  | spread name directives =>
      cases name with
      | none => simp [wanted, events, hadmits]
      | some name =>
          cases hlookup : context.fragments.lookup name with
          | error failure =>
              have hfails : (Run.ofExcept (context.fragments.lookup name)).outcome =
                  .error failure := hlookup
              rw [wanted, Run.bind_of_error hfails]
              simp [events, hadmits, hlookup]
          | ok found =>
              cases found with
              | none => simp [wanted_of_undefined hlookup, events, hadmits, hlookup, Event.notices]
              | some fragment => simp [wanted_of_defined hlookup, events, hadmits, hlookup, hwalk]
  | other directives selectionSet => simp [wanted, events, hadmits]
  | value value => simp [wanted, events, hadmits]

theorem notices_contribution (hnothing : ∀ rule, inside rule [] = [])
    (hwalk : ∀ rule below, (walk rule below).notices =
      (inside rule below).flatMap (Event.notices context.timeout)) (selection : Selection) :
    (selection.contribution context walk rule).notices =
      (selection.events context inside rule).flatMap (Event.notices context.timeout) := by
  cases hadmits : context.admits selection with
  | error failure =>
      have hfails : (Run.ofExcept (context.admits selection)).outcome = .error failure := hadmits
      rw [contribution, Run.bind_of_error hfails]
      simp [events, hadmits]
  | ok admitted =>
      rw [contribution_of_admits hadmits]
      cases admitted with
      | false => simp [events, hadmits]
      | true => exact notices_wanted hadmits hnothing hwalk

end Selection

/-- A walk reports what happens on its way, also if it fails in the end. -/
theorem notices_collect (context : Context) (limit : Nat) (rule : Rule)
    (selections : List Selection) :
    (collect context limit rule selections).notices =
      (events context limit rule selections).flatMap (Event.notices context.timeout) := by
  induction limit generalizing rule selections with
  | zero =>
      rfl
  | succ limit ih =>
      rw [collect_succ, events]
      apply Event.notices_gather
      intro selection
      exact selection.notices_contribution (events_nil context limit) ih

/-! ## Matches among the events -/

/-- A walk comes to a field called `name` and tries `pattern` on it. -/
inductive Tries (context : Context) (pattern name : String) : Rule → List Selection → Prop
  | here {rule : Rule} {selections : List Selection} {directives : Directives}
      {selectionSet : SelectionSet}
      (hmem : .field (some name) directives selectionSet ∈ selections)
      (hadmits : context.admits (.field (some name) directives selectionSet) = .ok true)
      (htried : pattern ∈ rule.tried context.timeout name) :
      Tries context pattern name rule selections
  | deeper {rule inner : Rule} {selections below : List Selection} {selection : Selection}
      (hmem : selection ∈ selections) (hopens : selection.Opens context rule inner below)
      (hbelow : Tries context pattern name inner below) :
      Tries context pattern name rule selections

theorem Event.mem_along {α : Type} {contribute : α → Run FieldTree} {happens : α → List Event}
    {items : List α} (h : event ∈ along contribute happens items) :
    ∃ item ∈ items, event ∈ happens item := by
  induction items with
  | nil =>
      cases h
  | cons item items ih =>
      rw [along, List.mem_append] at h
      rcases h with hfirst | hrest
      · exact ⟨item, List.mem_cons_self, hfirst⟩
      · split at hrest
        · rcases ih hrest with ⟨other, hmem, hother⟩
          exact ⟨other, List.mem_cons_of_mem _ hmem, hother⟩
        · cases hrest

/-- Where nothing fails, everything happens. -/
theorem Event.along_of_ok {α : Type} {contribute : α → Run FieldTree} (happens : α → List Event)
    {items : List α} (h : (gather contribute items).outcome = .ok tree) :
    along contribute happens items = items.flatMap happens := by
  induction items generalizing tree with
  | nil =>
      rfl
  | cons item items ih =>
      rcases FieldTree.gather_cons_ok_iff.1 h with ⟨first, others, hfirst, hothers, -⟩
      simp [along, hfirst, ih hothers]

theorem mem_events_of_mem (h : (collect context (limit + 1) rule selections).outcome = .ok tree)
    (hmem : selection ∈ selections)
    (hevent : event ∈ selection.events context (events context limit) rule) :
    event ∈ events context (limit + 1) rule selections := by
  rw [collect_succ] at h
  rw [events, Event.along_of_ok _ h]
  exact List.mem_flatMap.2 ⟨selection, hmem, hevent⟩

/-- What happens in the walk that a selection opens happens because of the selection. -/
theorem Selection.Opens.events_subset {inside : Rule → List Selection → List Event}
    (hopens : selection.Opens context rule inner below) :
    inside inner below ⊆ selection.events context inside rule := by
  intro event hevent
  cases hopens with
  | field hadmits hkept _ => simp [events, hadmits, hkept, hevent]
  | inlineFragment hadmits => simpa [events, hadmits] using hevent
  | spread hadmits hdefined => simpa [events, hadmits, hdefined] using hevent

theorem attempt_mem_events (htries : Tries context pattern name rule selections)
    (h : (collect context limit rule selections).outcome = .ok tree) :
    .attempt pattern name ∈ events context limit rule selections := by
  induction htries generalizing limit tree with
  | here hmem hadmits htried =>
      -- without a level to go the walk would have failed
      cases limit with
      | zero =>
          cases h
      | succ limit =>
          refine mem_events_of_mem h hmem ?_
          simp [Selection.events, hadmits, htried]
  | deeper hmem hopens _ ih =>
      cases limit with
      | zero =>
          cases h
      | succ limit =>
          rcases exists_collect_of_opens h hmem hopens with ⟨found, hfound⟩
          exact mem_events_of_mem h hmem (hopens.events_subset (ih hfound))

theorem tries_of_mem_events (h : .attempt pattern name ∈ events context limit rule selections) :
    Tries context pattern name rule selections := by
  induction limit generalizing rule selections with
  | zero =>
      cases h
  | succ limit ih =>
      rcases Event.mem_along h with ⟨selection, hmem, hevent⟩
      unfold Selection.events at hevent
      split at hevent
      · next hadmits =>
          split at hevent
          · next n directives selectionSet =>
              rcases List.mem_append.1 hevent with htried | hbelow
              · rcases List.mem_map.1 htried with ⟨key, hkey, heq⟩
                cases heq
                exact .here hmem hadmits hkey
              · split at hbelow
                · cases hbelow
                · next hkept =>
                    -- nothing happens in a walk through nothing
                    have hfull : selectionSet.toList ≠ [] := by
                      intro hempty
                      simp [hempty] at hbelow
                    exact .deeper hmem (.field hadmits hkept hfull) (ih hbelow)
          · exact .deeper hmem (.inlineFragment hadmits) (ih hevent)
          · split at hevent
            · next hdefined => exact .deeper hmem (.spread hadmits hdefined) (ih hevent)
            · simp at hevent
            · cases hevent
          · cases hevent
      · cases hevent

/-- The matches among the events of a walk that ends well are those that it tries. -/
theorem attempt_mem_events_iff (h : (collect context limit rule selections).outcome = .ok tree) :
    .attempt pattern name ∈ events context limit rule selections ↔
      Tries context pattern name rule selections := by
  constructor
  · intro hevent
    exact tries_of_mem_events hevent
  · intro htries
    exact attempt_mem_events htries h

end Lookahead
