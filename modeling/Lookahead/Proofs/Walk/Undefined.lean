import Lookahead.Proofs.Walk.Inlining
import Lookahead.Proofs.Walk.Stops

/-!
# Walk.Undefined — spreads of fragments that are not defined

A walk that comes to a spread of a fragment that is not defined says so and goes on. It says so each
time it comes to the spread, which may be more often than the spread is written, since the fragment
around it may be spread more than once. Apart from that the spread might as well not be there: a
walk that ends well has the same tree without it. Only where a field would be left with nothing
below it there is a difference, as the field would become a leaf.

* `Stop.undefined?` — the fragment that is missing at a stop;
* `reports_eq_undefined` — the reports of a walk are those of its stops;
* `Trimmed`, `FragmentTable.TrimmedTo` — spreads of missing fragments are taken out, anywhere in
  selections and in the bodies of a table;
* `collect_trimmed` — the tree of a walk that ends well is the same after that;
* `undefined_fragments_only_reported` — both of it.
-/

namespace Lookahead

open FieldTree (gather gather_cons_ok_iff)

/-! ## Reports -/

/-- A notice that a fragment is not defined. -/
def Notice.reportsUndefined (notice : Notice) : Bool :=
  notice.message == "Fragment is not defined, ignoring its spread"

/-- The name of the fragment that is spread at a stop, if it is not defined. -/
def Stop.undefined? (context : Context) (stop : Stop) : Option String :=
  match stop.node with
  | .spread (some name) _ =>
      match context.fragments.lookup name with
      | .ok none => some name
      | _ => none
  | _ => none

variable {context : Context} {limit : Nat} {rule : Rule} {selections after : List Selection}
  {stop : Stop} {tree : FieldTree} {table : FragmentTable} {name : String}

/-- Trying a pattern is no report of a missing fragment. -/
theorem filter_attemptNotices (timeout : Timeout) (name pattern : String) :
    (timeout.attemptNotices name pattern).filter Notice.reportsUndefined = [] := by
  have hsetting : timeout.notices.filter Notice.reportsUndefined = [] := by
    unfold Timeout.notices
    split <;> simp [Notice.reportsUndefined, Notice.message]
  unfold Timeout.attemptNotices
  split <;> simp [hsetting, Notice.reportsUndefined, Notice.message]

/-- What is reported at a stop about fragments is that the one spread there is missing. -/
theorem Stop.filter_notices (context : Context) (stop : Stop) :
    ((stop.events context).flatMap (Event.notices context.timeout)).filter
        Notice.reportsUndefined =
      (stop.undefined? context).toList.map .undefinedFragment := by
  unfold Stop.events Stop.undefined?
  split
  · next name _ _ hnode =>
      simp only [hnode, List.flatMap_map, List.filter_flatMap, Event.notices, Option.toList_none,
        List.map_nil, filter_attemptNotices, List.flatMap_eq_nil_iff, implies_true]
  · next name _ hnode =>
      simp only [hnode]
      cases context.fragments.lookup name with
      | error failure => rfl
      | ok found => cases found <;> rfl
  · next hfield hspread =>
      split
      · next hnode => exact absurd hnode (hspread _ _)
      · rfl

/-- The missing fragments that a walk reports are those at its stops, one report for each. -/
theorem reports_eq_undefined (h : (collect context limit rule selections).outcome = .ok tree) :
    (collect context limit rule selections).notices.filter Notice.reportsUndefined =
      ((stops context limit rule selections).filterMap (Stop.undefined? context)).map
        .undefinedFragment := by
  rw [notices_collect, events_eq_stops h]
  induction stops context limit rule selections with
  | nil =>
      rfl
  | cons stop stops ih =>
      simp only [List.flatMap_cons, List.flatMap_append, List.filter_append, ih,
        Stop.filter_notices]
      cases hstop : stop.undefined? context <;> simp [hstop]

/-! ## Taking the spreads out -/

/-- If the first of a list adds what it added, and the others gather what they gathered, then so do
all of them together. -/
theorem gather_cons_of_same {α : Type} {contribute other : α → Run FieldTree}
    {item changed : α} {items after : List α}
    (hfirst : ∀ added, (contribute item).outcome = .ok added →
      (other changed).outcome = .ok added)
    (hrest : ∀ others, (gather contribute items).outcome = .ok others →
      (gather other after).outcome = .ok others)
    (h : (gather contribute (item :: items)).outcome = .ok tree) :
    (gather other (changed :: after)).outcome = .ok tree := by
  rcases gather_cons_ok_iff.1 h with ⟨first, others, hadded, hothers, hunion⟩
  exact gather_cons_ok_iff.2 ⟨first, others, hfirst first hadded, hrest others hothers, hunion⟩

/-- Selections from which spreads of missing fragments, at any depth, are taken out. -/
inductive Trimmed (fragments : FragmentTable) : List Selection → List Selection → Prop
  | nil : Trimmed fragments [] []
  | keep {selection : Selection} {rest after : List Selection}
      (hrest : Trimmed fragments rest after) :
      Trimmed fragments (selection :: rest) (selection :: after)
  | drop {name : String} {directives : Directives} {rest after : List Selection}
      (hundefined : fragments.lookup name = .ok none) (hrest : Trimmed fragments rest after) :
      Trimmed fragments (.spread (some name) directives :: rest) after
  | field {name : Option String} {directives : Directives} {selectionSet changed : SelectionSet}
      {rest after : List Selection}
      (hbelow : Trimmed fragments selectionSet.toList changed.toList)
      (hfull : changed.toList = [] → selectionSet.toList = [])
      (hrest : Trimmed fragments rest after) :
      Trimmed fragments (.field name directives selectionSet :: rest)
        (.field name directives changed :: after)
  | inlineFragment {directives : Directives} {selectionSet changed : SelectionSet}
      {rest after : List Selection}
      (hbelow : Trimmed fragments selectionSet.toList changed.toList)
      (hrest : Trimmed fragments rest after) :
      Trimmed fragments (.inlineFragment directives selectionSet :: rest)
        (.inlineFragment directives changed :: after)
  | other {directives : Directives} {selectionSet changed : SelectionSet}
      {rest after : List Selection}
      (hbelow : Trimmed fragments selectionSet.toList changed.toList)
      (hrest : Trimmed fragments rest after) :
      Trimmed fragments (.other directives selectionSet :: rest)
        (.other directives changed :: after)

theorem Trimmed.refl (fragments : FragmentTable) (selections : List Selection) :
    Trimmed fragments selections selections := by
  induction selections with
  | nil => exact .nil
  | cons selection selections ih => exact .keep ih

theorem Trimmed.eq_nil {fragments : FragmentTable} (h : Trimmed fragments [] after) :
    after = [] := by
  cases h
  rfl

/-- A table in which spreads of missing fragments are taken out of the bodies of some definitions.
The names in it are the same, so the same fragments are missing. -/
def FragmentTable.TrimmedTo (before after : FragmentTable) : Prop :=
  ∀ name, after.lookup name = before.lookup name ∨
    ∃ fragment changed, before.lookup name = .ok (some fragment) ∧
      after.lookup name = .ok (some changed) ∧
      Trimmed before fragment.selections changed.selections

theorem FragmentTable.TrimmedTo.undefined {before : FragmentTable} (h : before.TrimmedTo table)
    (hundefined : before.lookup name = .ok none) : table.lookup name = .ok none := by
  rcases h name with hsame | ⟨fragment, changed, hdefined, -, -⟩
  · exact hsame.trans hundefined
  · cases hundefined.symm.trans hdefined

theorem FragmentTable.TrimmedTo.defined {before : FragmentTable} {fragment : Fragment}
    (h : before.TrimmedTo table) (hdefined : before.lookup name = .ok (some fragment)) :
    ∃ changed, table.lookup name = .ok (some changed) ∧
      Trimmed before fragment.selections changed.selections := by
  rcases h name with hsame | ⟨original, changed, horiginal, hchanged, hbelow⟩
  · exact ⟨fragment, hsame.trans hdefined, .refl _ _⟩
  · cases hdefined.symm.trans horiginal
    exact ⟨changed, hchanged, hbelow⟩

namespace Selection

variable {walk other : Rule → List Selection → Run FieldTree} {selection : Selection}
  {name : Option String} {directives : Directives} {selectionSet changed : SelectionSet}

/-- Where `walk` has a tree, `other` has the same one without the spreads of missing fragments. -/
def KeepsTrees (fragments : FragmentTable) (walk other : Rule → List Selection → Run FieldTree) :
    Prop :=
  ∀ rule selections after tree, Trimmed fragments selections after →
    (walk rule selections).outcome = .ok tree → (other rule after).outcome = .ok tree

/-- A field adds the same, unless it loses all selections. -/
theorem Contributes.trimmed_field (hwalk : KeepsTrees context.fragments walk other)
    (hbelow : Trimmed context.fragments selectionSet.toList changed.toList)
    (hfull : changed.toList = [] → selectionSet.toList = [])
    (h : Contributes context walk rule (field name directives selectionSet) tree) :
    Contributes (context.withFragments table) other rule (field name directives changed) tree := by
  cases h with
  | leftOut hadmits =>
      exact .leftOut hadmits
  | excluded hadmits hverdict =>
      exact .excluded hadmits hverdict
  | leaf hadmits hverdict hempty =>
      rw [hempty] at hbelow
      exact .leaf hadmits hverdict hbelow.eq_nil
  | branch hadmits hverdict hkept hchildren =>
      have hstill : changed.toList ≠ [] := fun hempty => hkept (hfull hempty)
      exact .branch hadmits hverdict hstill (hwalk _ _ _ _ hbelow hchildren)

theorem Contributes.trimmed_inlineFragment (hwalk : KeepsTrees context.fragments walk other)
    (hbelow : Trimmed context.fragments selectionSet.toList changed.toList)
    (h : Contributes context walk rule (.inlineFragment directives selectionSet) tree) :
    Contributes (context.withFragments table) other rule (.inlineFragment directives changed)
      tree := by
  cases h with
  | leftOut hadmits => exact .leftOut hadmits
  | inlineFragment hadmits hinside => exact .inlineFragment hadmits (hwalk _ _ _ _ hbelow hinside)

/-- Below a node of another kind there is nothing that matters. -/
theorem Contributes.trimmed_other (changed : SelectionSet)
    (h : Contributes context walk rule (.other directives selectionSet) tree) :
    Contributes (context.withFragments table) other rule (.other directives changed) tree := by
  cases h with
  | leftOut hadmits => exact .leftOut hadmits
  | other hadmits => exact .other hadmits

/-- A selection that stays as it is adds the same, also if spreads are taken out of its fragment. -/
theorem Contributes.trimmed_kept (hwalk : KeepsTrees context.fragments walk other)
    (htable : context.fragments.TrimmedTo table)
    (h : Contributes context walk rule selection tree) :
    Contributes (context.withFragments table) other rule selection tree := by
  cases selection with
  | field name directives selectionSet =>
      exact h.trimmed_field hwalk (.refl _ _) id
  | inlineFragment directives selectionSet =>
      exact h.trimmed_inlineFragment hwalk (.refl _ _)
  | spread name directives =>
      cases h with
      | leftOut hadmits =>
          exact .leftOut hadmits
      | spread hadmits hdefined hinside =>
          rcases htable.defined hdefined with ⟨changed, hchanged, hbelow⟩
          exact .spread hadmits hchanged (hwalk _ _ _ _ hbelow hinside)
      | undefined hadmits hundefined =>
          exact .undefined hadmits (htable.undefined hundefined)
  | other directives selectionSet =>
      exact h.trimmed_other selectionSet
  | value value =>
      cases h with
      | leftOut hadmits => exact .leftOut hadmits
      | value hadmits => exact .value hadmits

/-- A spread of a missing fragment adds nothing. -/
theorem Contributes.eq_nil_of_undefined {name : String}
    (hundefined : context.fragments.lookup name = .ok none)
    (h : Contributes context walk rule (.spread (some name) directives) tree) : tree = .nil := by
  cases h with
  | leftOut _ => rfl
  | spread _ hdefined _ => cases hundefined.symm.trans hdefined
  | undefined _ _ => rfl

end Selection

/-- Selections gather the same tree without the spreads of missing fragments, if the walks below
them keep their trees. -/
theorem gather_trimmed
    (hwalk : Selection.KeepsTrees context.fragments (collect context limit)
      (collect (context.withFragments table) limit))
    (htable : context.fragments.TrimmedTo table)
    (htrimmed : Trimmed context.fragments selections after)
    (h : (gather (Selection.contribution context (collect context limit) rule)
      selections).outcome = .ok tree) :
    (gather (Selection.contribution (context.withFragments table)
      (collect (context.withFragments table) limit) rule) after).outcome = .ok tree := by
  -- the induction is on what is taken out beside each other; what is taken out below is left to
  -- the walks
  induction htrimmed generalizing tree with
  | nil =>
      cases h
      rfl
  | keep _ ihrest =>
      refine gather_cons_of_same ?_ (fun _ => ihrest) h
      intro added hadded
      exact ((Selection.contributes_of_ok hadded).trimmed_kept hwalk htable).outcome
  | drop hundefined _ ihrest =>
      rcases gather_cons_ok_iff.1 h with ⟨first, others, hfirst, hothers, rfl⟩
      have hnothing := (Selection.contributes_of_ok hfirst).eq_nil_of_undefined hundefined
      simpa only [hnothing, FieldTree.nil_union] using ihrest hothers
  | field hbelow hfull _ _ ihrest =>
      refine gather_cons_of_same ?_ (fun _ => ihrest) h
      intro added hadded
      exact ((Selection.contributes_of_ok hadded).trimmed_field hwalk hbelow hfull).outcome
  | inlineFragment hbelow _ _ ihrest =>
      refine gather_cons_of_same ?_ (fun _ => ihrest) h
      intro added hadded
      exact ((Selection.contributes_of_ok hadded).trimmed_inlineFragment hwalk hbelow).outcome
  | @other _ _ changed _ _ _ _ _ ihrest =>
      refine gather_cons_of_same ?_ (fun _ => ihrest) h
      intro added hadded
      exact ((Selection.contributes_of_ok hadded).trimmed_other changed).outcome

/-- A walk that ends well has the same tree without the spreads of missing fragments. -/
theorem collect_trimmed (htable : context.fragments.TrimmedTo table)
    (htrimmed : Trimmed context.fragments selections after)
    (h : (collect context limit rule selections).outcome = .ok tree) :
    (collect (context.withFragments table) limit rule after).outcome = .ok tree := by
  induction limit generalizing rule selections after tree with
  | zero =>
      cases h
  | succ limit ih =>
      have hwalk : Selection.KeepsTrees context.fragments (collect context limit)
          (collect (context.withFragments table) limit) := by
        intro inner below trimmed found hbelow hfound
        exact ih hbelow hfound
      rw [collect_succ] at h ⊢
      exact gather_trimmed hwalk htable htrimmed h

/-- A walk that ends well reports the fragments that are not defined at its stops, in the order of
the stops and once for each of them. Without the spreads of such fragments, in its selections and in
the fragments they lead to, it has the same tree, as long as no field loses all of its selections.
-/
theorem undefined_fragments_only_reported
    (h : (collect context limit rule selections).outcome = .ok tree) :
    (∃ stops, InWalkOrder context rule selections stops ∧
      (collect context limit rule selections).notices.filter Notice.reportsUndefined =
        (stops.filterMap (Stop.undefined? context)).map .undefinedFragment) ∧
      ∀ (table : FragmentTable) (after : List Selection),
        context.fragments.TrimmedTo table → Trimmed context.fragments selections after →
          (collect (context.withFragments table) limit rule after).outcome = .ok tree := by
  constructor
  · exact ⟨_, inWalkOrder_stops h, reports_eq_undefined h⟩
  · intro table after htable htrimmed
    exact collect_trimmed htable htrimmed h

/-! ### A fragment that is missing in two places -/

/-- The query `{ ...G, ...F, a { ...G, c } }`, where `G` is not defined and `F` spreads it too. -/
def gapSelections : List Selection :=
  [.spread (some "G") .missing,
    .spread (some "F") .missing,
    .field (some "a") .missing
      (.listed [.spread (some "G") .missing, .field (some "c") .missing .missing])]

def gapContext : Context where
  fragments := .table
    [("F", some (.definition (.listed
      [.field (some "d") .missing .missing, .spread (some "G") .missing])))]
  variableValues := .object []
  withDirectives := true
  timeout := .unset

/-- The table without the spread in `F`. -/
def gapTable : FragmentTable :=
  .table [("F", some (.definition (.listed [.field (some "d") .missing .missing])))]

theorem trimmedTo_gapTable : gapContext.fragments.TrimmedTo gapTable := by
  intro name
  by_cases hname : "F" = name
  · subst hname
    exact .inr ⟨_, _, rfl, rfl, .keep (.drop rfl .nil)⟩
  · left
    simp [gapContext, gapTable, FragmentTable.lookup, FragmentTable.find, hname]

/-- The missing fragment is reported three times. Without the spreads of it the tree is the same. -/
theorem sample_undefined_fragments :
    (∃ stops, InWalkOrder gapContext .keep gapSelections stops ∧
      stops.filterMap (Stop.undefined? gapContext) = ["G", "G", "G"]) ∧
      (collect (gapContext.withFragments gapTable) 3 .keep
        [.spread (some "F") .missing,
          .field (some "a") .missing (.listed [.field (some "c") .missing .missing])]).outcome =
        .ok (.leaf "d" (.branch "a" (.leaf "c" .nil) .nil)) := by
  have hwalk : (collect gapContext 3 .keep gapSelections).outcome =
      .ok (.leaf "d" (.branch "a" (.leaf "c" .nil) .nil)) := rfl
  rcases undefined_fragments_only_reported hwalk with ⟨⟨stops, horder, hreports⟩, htrees⟩
  refine ⟨⟨stops, horder, ?_⟩, ?_⟩
  · have hnotices : (collect gapContext 3 .keep gapSelections).notices =
        ["G", "G", "G"].map .undefinedFragment := rfl
    have hnames : (stops.filterMap (Stop.undefined? gapContext)).map Notice.undefinedFragment =
        ["G", "G", "G"].map .undefinedFragment := by
      rw [← hreports, hnotices]
      simp only [List.map_cons, List.map_nil, List.filter_cons, Notice.reportsUndefined,
        Notice.message, beq_self_eq_true, if_true, List.filter_nil]
    have hinjective : Function.Injective Notice.undefinedFragment := by
      intro name other hsame
      cases hsame
      rfl
    exact List.map_injective_iff.2 hinjective hnames
  · have hbelow : Trimmed gapContext.fragments
        [.spread (some "G") .missing, .field (some "c") .missing .missing]
        [.field (some "c") .missing .missing] := .drop rfl (.keep .nil)
    refine htrees _ _ trimmedTo_gapTable (.drop rfl (.keep (.field hbelow ?_ .nil)))
    intro hempty
    cases hempty

end Lookahead
