import Mathlib.Data.List.Basic
import Lookahead.Proofs.Walk.Events

/-!
# Walk.Stops — the selections a walk comes to, with their places

A walk stops at each selection that its directives let stay, whether it goes on below it or not. The
place of a stop says how it is got to: which selection of the list is taken, which one of those that
this one leads to, and so on. A fragment that is spread twice is walked twice, so its selections
have stops at two places. The walk is depth first and from left to right, which is to say that it
makes its stops in the order of their places.

* `Meets` — a walk comes to a selection, at a place and with a rule;
* `InWalkOrder` — a list has all stops of a walk, in the order of their places;
* `stops`, `inWalkOrder_stops` — such a list for every walk that ends well;
* `events_eq_stops` — what happens in a walk happens at its stops, one after the other.
-/

namespace Lookahead

open FieldTree (gather)

/-- A selection that a walk comes to, where it stands, and the rule it is looked at with. -/
structure Stop where
  place : List Nat
  rule : Rule
  node : Selection

namespace Stop

/-- A stop below a selection, seen from the list that the selection stands in. -/
def under (index : Nat) (stop : Stop) : Stop :=
  ⟨index :: stop.place, stop.rule, stop.node⟩

/-- What happens at a stop: patterns are tried on the name of a field, and a spread may be of a
fragment that is not defined. -/
def events (context : Context) (stop : Stop) : List Event :=
  match stop.node with
  | .field (some name) _ _ =>
      (stop.rule.tried context.timeout name).map (Event.attempt · name)
  | .spread (some name) _ =>
      match context.fragments.lookup name with
      | .ok none => [.undefinedFragment name]
      | _ => []
  | _ => []

@[simp]
theorem events_under (context : Context) (index : Nat) (stop : Stop) :
    (stop.under index).events context = stop.events context := rfl

end Stop

/-- A walk through selections comes to a stop: to one of them that its directives let stay, or to a
selection below one of them that the walk goes into. -/
inductive Meets (context : Context) : Rule → List Selection → Stop → Prop
  | here {rule : Rule} {selections : List Selection} {index : Nat} {node : Selection}
      (hnode : selections[index]? = some node) (hadmits : context.admits node = .ok true) :
      Meets context rule selections ⟨[index], rule, node⟩
  | deeper {rule inner : Rule} {selections below : List Selection} {index : Nat}
      {selection : Selection} {stop : Stop} (hselection : selections[index]? = some selection)
      (hopens : selection.Opens context rule inner below)
      (hmeets : Meets context inner below stop) :
      Meets context rule selections (stop.under index)

/-- A list has the stops of a walk and no others, in the order of their places. -/
structure InWalkOrder (context : Context) (rule : Rule) (selections : List Selection)
    (stops : List Stop) : Prop where
  sorted : stops.Pairwise fun stop later => stop.place < later.place
  complete : ∀ stop, stop ∈ stops ↔ Meets context rule selections stop

/-! ## Listing the stops -/

namespace Selection

/-- The stops that one selection leads to: itself, at no distance, and then those below it, where
`inside` lists the stops in a walk. -/
def stops (context : Context) (inside : Rule → List Selection → List Stop) (rule : Rule)
    (selection : Selection) : List Stop :=
  match context.admits selection with
  | .ok true =>
      ⟨[], rule, selection⟩ ::
        match selection with
        | field (some name) _ selectionSet =>
            if rule.verdict context.timeout name = .exclude then []
            else inside (rule.verdict context.timeout name) selectionSet.toList
        | inlineFragment _ selectionSet => inside rule selectionSet.toList
        | spread (some name) _ =>
            match context.fragments.lookup name with
            | .ok (some fragment) => inside rule fragment.selections
            | _ => []
        | _ => []
  | _ => []

end Selection

/-- The stops of a walk through selections, at most `limit` levels deep. -/
def stops (context : Context) : (limit : Nat) → Rule → List Selection → List Stop
  | 0, _, _ => []
  | limit + 1, rule, selections =>
      selections.zipIdx.flatMap fun (selection, index) =>
        (selection.stops context (stops context limit) rule).map (Stop.under index)

variable {context : Context} {limit : Nat} {rule inner : Rule} {selections below : List Selection}
  {selection : Selection} {stop : Stop} {tree : FieldTree}

@[simp]
theorem stops_nil (context : Context) (limit : Nat) (rule : Rule) :
    stops context limit rule [] = [] := by
  cases limit <;> rfl

namespace Selection

variable {inside : Rule → List Selection → List Stop}

theorem Opens.admits (h : selection.Opens context rule inner below) :
    context.admits selection = .ok true := by
  cases h with
  | field hadmits _ _ => exact hadmits
  | inlineFragment hadmits => exact hadmits
  | spread hadmits _ => exact hadmits

/-- A selection leads to no stop, or to itself and to the stops of a walk. -/
theorem stops_cases (context : Context) (rule : Rule) (selection : Selection)
    (hnothing : ∀ rule, inside rule [] = []) :
    selection.stops context inside rule = [] ∨
      ∃ inner below, selection.stops context inside rule =
        ⟨[], rule, selection⟩ :: inside inner below := by
  unfold stops
  split
  · right
    split
    · split
      · exact ⟨rule, [], by rw [hnothing]⟩
      · exact ⟨_, _, rfl⟩
    · exact ⟨_, _, rfl⟩
    · split
      · exact ⟨_, _, rfl⟩
      · exact ⟨rule, [], by rw [hnothing]⟩
    · exact ⟨rule, [], by rw [hnothing]⟩
  · exact .inl rfl

/-- The stops of a selection are itself and those of the walk it opens. -/
theorem mem_stops_iff (hnothing : ∀ rule, inside rule [] = []) :
    stop ∈ selection.stops context inside rule ↔
      context.admits selection = .ok true ∧
        (stop = ⟨[], rule, selection⟩ ∨
          ∃ inner below, selection.Opens context rule inner below ∧ stop ∈ inside inner below) := by
  constructor
  · intro h
    unfold stops at h
    split at h
    · next hadmits =>
        refine ⟨hadmits, ?_⟩
        rcases List.mem_cons.1 h with hself | hbelow
        · exact .inl hself
        · right
          split at hbelow
          · next name directives selectionSet =>
              split at hbelow
              · cases hbelow
              · next hkept =>
                  -- a field without selections has no stops below it
                  have hfull : selectionSet.toList ≠ [] := by
                    intro hempty
                    simp [hempty, hnothing] at hbelow
                  exact ⟨_, _, .field hadmits hkept hfull, hbelow⟩
          · exact ⟨_, _, .inlineFragment hadmits, hbelow⟩
          · split at hbelow
            · next hdefined => exact ⟨_, _, .spread hadmits hdefined, hbelow⟩
            · cases hbelow
          · cases hbelow
    · cases h
  · rintro ⟨hadmits, rfl | ⟨inner, below, hopens, hbelow⟩⟩
    · simp [stops, hadmits]
    · cases hopens with
      | field _ hkept _ => simp [stops, hadmits, hkept, hbelow]
      | inlineFragment _ => simp [stops, hadmits, hbelow]
      | spread _ hdefined => simp [stops, hadmits, hdefined, hbelow]

end Selection

/-! ## All of them, in order -/

theorem mem_stops_succ_iff :
    stop ∈ stops context (limit + 1) rule selections ↔
      ∃ (index : Nat) (selection : Selection) (first : Stop),
        selections[index]? = some selection ∧
        first ∈ selection.stops context (stops context limit) rule ∧ stop = first.under index := by
  simp only [stops, List.mem_flatMap, List.mem_map, Prod.exists, List.mem_zipIdx_iff_getElem?]
  constructor
  · rintro ⟨selection, index, hselection, first, hfirst, rfl⟩
    exact ⟨index, selection, first, hselection, hfirst, rfl⟩
  · rintro ⟨index, selection, first, hselection, hfirst, rfl⟩
    exact ⟨selection, index, hselection, first, hfirst, rfl⟩

theorem meets_of_mem_stops (h : stop ∈ stops context limit rule selections) :
    Meets context rule selections stop := by
  induction limit generalizing rule selections stop with
  | zero =>
      cases h
  | succ limit ih =>
      rcases mem_stops_succ_iff.1 h with ⟨index, selection, first, hselection, hfirst, rfl⟩
      rcases (Selection.mem_stops_iff (stops_nil context limit)).1 hfirst with
        ⟨hadmits, rfl | ⟨inner, below, hopens, hbelow⟩⟩
      · exact .here hselection hadmits
      · exact .deeper hselection hopens (ih hbelow)

/-- A walk that ends well has gone as far as there are stops. -/
theorem mem_stops_of_meets (hmeets : Meets context rule selections stop)
    (h : (collect context limit rule selections).outcome = .ok tree) :
    stop ∈ stops context limit rule selections := by
  induction hmeets generalizing limit tree with
  | @here rule selections index node hnode hadmits =>
      cases limit with
      | zero =>
          cases h
      | succ limit =>
          have hself : ⟨[], rule, node⟩ ∈ node.stops context (stops context limit) rule :=
            (Selection.mem_stops_iff (stops_nil context limit)).2 ⟨hadmits, .inl rfl⟩
          exact mem_stops_succ_iff.2 ⟨index, node, _, hnode, hself, rfl⟩
  | deeper hselection hopens _ ih =>
      cases limit with
      | zero =>
          cases h
      | succ limit =>
          rcases exists_collect_of_opens h (List.mem_of_getElem? hselection) hopens with
            ⟨found, hfound⟩
          have hbelow := (Selection.mem_stops_iff (stops_nil context limit)).2
            ⟨hopens.admits, .inr ⟨_, _, hopens, ih hfound⟩⟩
          exact mem_stops_succ_iff.2 ⟨_, _, _, hselection, hbelow, rfl⟩

theorem place_ne_nil_of_mem_stops (h : stop ∈ stops context limit rule selections) :
    stop.place ≠ [] := by
  cases meets_of_mem_stops h with
  | here _ _ => exact List.cons_ne_nil _ _
  | deeper _ _ _ => exact List.cons_ne_nil _ _

/-- The stops of a walk are in the order of their places: those of one selection since it comes
before what is below it, and those of different selections by where they stand in the list. -/
theorem sorted_stops (context : Context) (limit : Nat) (rule : Rule) (selections : List Selection) :
    (stops context limit rule selections).Pairwise fun stop later => stop.place < later.place := by
  induction limit generalizing rule selections with
  | zero =>
      exact .nil
  | succ limit ih =>
      have hbelow : ∀ selection : Selection,
          (selection.stops context (stops context limit) rule).Pairwise
            fun stop later => stop.place < later.place := by
        intro selection
        -- the place of the selection itself is the shortest of those below it
        rcases selection.stops_cases context rule (stops_nil context limit) with
          hnone | ⟨inner, below, hstops⟩
        · rw [hnone]
          exact .nil
        · rw [hstops]
          refine .cons ?_ (ih inner below)
          intro later hlater
          rcases List.exists_cons_of_ne_nil (place_ne_nil_of_mem_stops hlater) with
            ⟨index, place, hplace⟩
          rw [hplace]
          exact List.nil_lt_cons index place
      have hindices : selections.zipIdx.Pairwise fun first second => first.2 < second.2 := by
        rw [← List.pairwise_map, List.zipIdx_map_snd]
        exact List.pairwise_lt_range' 1
      -- places are compared by the index first, and behind the same index by the rest
      rw [stops, List.pairwise_flatMap]
      constructor
      · intro ⟨selection, index⟩ _
        refine List.pairwise_map.2 ((hbelow selection).imp ?_)
        intro stop later hlt
        exact List.cons_lt_cons_iff.2 (.inr ⟨rfl, hlt⟩)
      · refine hindices.imp ?_
        intro first second hlt stop hstop later hlater
        rcases List.mem_map.1 hstop with ⟨_, _, rfl⟩
        rcases List.mem_map.1 hlater with ⟨_, _, rfl⟩
        exact List.cons_lt_cons_iff.2 (.inl hlt)

/-- Whatever a walk that ends well comes to is among its stops, in the order of the places. -/
theorem inWalkOrder_stops (h : (collect context limit rule selections).outcome = .ok tree) :
    InWalkOrder context rule selections (stops context limit rule selections) where
  sorted := sorted_stops context limit rule selections
  complete _ := ⟨meets_of_mem_stops, fun hmeets => mem_stops_of_meets hmeets h⟩

/-! ## What happens at the stops -/

/-- What happens because of a selection that is gone into without a failure happens at its stops. -/
theorem Selection.events_eq_stops {insideEvents : Rule → List Selection → List Event}
    {insideStops : Rule → List Selection → List Stop}
    (hevents : ∀ rule, insideEvents rule [] = []) (hstops : ∀ rule, insideStops rule [] = [])
    (hbelow : ∀ inner below, selection.Opens context rule inner below →
      insideEvents inner below = (insideStops inner below).flatMap (Stop.events context)) :
    selection.events context insideEvents rule =
      (selection.stops context insideStops rule).flatMap (Stop.events context) := by
  -- both lists follow the walk: nothing happens where it stops, and below it both go on alike
  cases hadmits : context.admits selection with
  | error failure => simp [Selection.events, Selection.stops, hadmits]
  | ok admitted =>
      cases admitted with
      | false => simp [Selection.events, Selection.stops, hadmits]
      | true =>
          cases selection with
          | field name directives selectionSet =>
              cases name with
              | none => simp [Selection.events, Selection.stops, Stop.events, hadmits]
              | some name =>
                  by_cases hkept : rule.verdict context.timeout name = .exclude
                  · simp [Selection.events, Selection.stops, Stop.events, hadmits, hkept]
                  · by_cases hempty : selectionSet.toList = []
                    · simp [Selection.events, Selection.stops, Stop.events, hadmits, hempty,
                        hevents, hstops]
                    · have hinside := hbelow _ _ (.field hadmits hkept hempty)
                      simp [Selection.events, Selection.stops, Stop.events, hadmits, hkept, hinside]
          | inlineFragment directives selectionSet =>
              have hinside := hbelow _ _ (.inlineFragment hadmits)
              simp [Selection.events, Selection.stops, Stop.events, hadmits, hinside]
          | spread name directives =>
              cases name with
              | none => simp [Selection.events, Selection.stops, Stop.events, hadmits]
              | some name =>
                  cases hlookup : context.fragments.lookup name with
                  | error failure =>
                      simp [Selection.events, Selection.stops, Stop.events, hadmits, hlookup]
                  | ok found =>
                      cases found with
                      | none =>
                          simp [Selection.events, Selection.stops, Stop.events, hadmits, hlookup]
                      | some fragment =>
                          have hinside := hbelow _ _ (.spread hadmits hlookup)
                          simp [Selection.events, Selection.stops, Stop.events, hadmits, hlookup,
                            hinside]
          | other directives selectionSet =>
              simp [Selection.events, Selection.stops, Stop.events, hadmits]
          | value value => simp [Selection.events, Selection.stops, Stop.events, hadmits]

/-- What happens in a walk that ends well happens at its stops, one after the other. -/
theorem events_eq_stops (h : (collect context limit rule selections).outcome = .ok tree) :
    events context limit rule selections =
      (stops context limit rule selections).flatMap (Stop.events context) := by
  induction limit generalizing rule selections tree with
  | zero =>
      cases h
  | succ limit ih =>
      have hone : ∀ selection ∈ selections,
          selection.events context (events context limit) rule =
            (selection.stops context (stops context limit) rule).flatMap (Stop.events context) := by
        intro selection hmem
        refine Selection.events_eq_stops (events_nil context limit) (stops_nil context limit) ?_
        intro inner below hopens
        rcases exists_collect_of_opens h hmem hopens with ⟨found, hfound⟩
        exact ih hfound
      -- where a selection stands in the list makes no difference to what happens at its stops
      have hplaces : ∀ (selection : Selection) (index : Nat),
          ((selection.stops context (stops context limit) rule).map (Stop.under index)).flatMap
              (Stop.events context) =
            (selection.stops context (stops context limit) rule).flatMap (Stop.events context) := by
        intro selection index
        simp only [List.flatMap_map, Stop.events_under]
      rw [collect_succ] at h
      calc
        events context (limit + 1) rule selections
            = selections.flatMap (Selection.events context (events context limit) rule) :=
              Event.along_of_ok _ h
        _ = (selections.zipIdx.map Prod.fst).flatMap fun selection =>
              (selection.stops context (stops context limit) rule).flatMap
                (Stop.events context) := by
              rw [List.zipIdx_map_fst]
              exact List.flatMap_congr hone
        _ = (stops context (limit + 1) rule selections).flatMap (Stop.events context) := by
              simp only [stops, List.flatMap_map, List.flatMap_assoc, hplaces]

end Lookahead
