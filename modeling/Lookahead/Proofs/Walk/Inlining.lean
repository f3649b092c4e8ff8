import Lookahead.Proofs.Query.Permission
import Lookahead.Proofs.Walk.Presence

/-!
# Inlining — fragments replaced by what stands in them

A fragment asks for what its selections ask for, so it makes no difference whether they stand in
the fragment or in its place, as long as each of them is behind the directives of the fragment.

* `Selection.inside?`, `Selection.guardedBy` — what stands in a fragment, and how it is put in its
  place;
* `Inlined`, `FragmentTable.InlinedTo` — some fragments are replaced, anywhere in selections and in
  the bodies of a table; a field keeps something below it, since it would become a leaf otherwise;
* `collect_inlined` — a walk that ends well is the same after that, with all its notices;
* `fragments_are_transparent` — so it is for a fragment among other selections, and anywhere below.
-/

namespace Lookahead

open FieldTree (gather gather_cons_ok_iff)

/-! ## Fragments and what stands in them -/

namespace Selection

/-- A selection with further directives in front of its own. A plain value has none. -/
def guardedBy (front : Directives) : Selection → Selection
  | field name directives selectionSet => field name (front.prepend directives) selectionSet
  | inlineFragment directives selectionSet =>
      inlineFragment (front.prepend directives) selectionSet
  | spread name directives => spread name (front.prepend directives)
  | other directives selectionSet => other (front.prepend directives) selectionSet
  | value content => .value content

/-- The selections in a fragment that is written in place, or is defined where it is spread. -/
def inside? (fragments : FragmentTable) : Selection → Option (List Selection)
  | inlineFragment _ selectionSet => some selectionSet.toList
  | spread (some name) _ =>
      match fragments.lookup name with
      | .ok (some fragment) => some fragment.selections
      | _ => none
  | _ => none

variable {context : Context} {walk : Rule → List Selection → Run FieldTree} {rule : Rule}
  {fragment selection : Selection} {inside : List Selection} {tree : FieldTree} {admitted : Bool}

/-! ### Behind the directives of a fragment -/

/-- Whatever is not a plain value gets the directives. -/
theorem directives_guardedBy (front : Directives) (selection : Selection) :
    (∃ content, selection = .value content) ∨
      (selection.guardedBy front).directives = front.prepend selection.directives := by
  cases selection with
  | value content => exact .inl ⟨content, rfl⟩
  | field _ _ _ => exact .inr rfl
  | inlineFragment _ _ => exact .inr rfl
  | spread _ _ => exact .inr rfl
  | other _ _ => exact .inr rfl

theorem wanted_guardedBy (front : Directives) (selection : Selection) :
    (selection.guardedBy front).wanted context walk rule = selection.wanted context walk rule := by
  cases selection with
  | field name _ _ => cases name <;> rfl
  | inlineFragment _ _ => rfl
  | spread name _ => cases name <;> rfl
  | other _ _ => rfl
  | value _ => rfl

theorem admits_guardedBy_of_true (hfragment : context.admits fragment = .ok true)
    (hown : context.admits selection = .ok admitted) :
    context.admits (selection.guardedBy fragment.directives) = .ok admitted := by
  rcases directives_guardedBy fragment.directives selection with ⟨content, rfl⟩ | hdirectives
  · exact hown
  · unfold Context.admits at hfragment hown ⊢
    rw [hdirectives]
    split
    · next hflag =>
        rw [if_pos hflag] at hfragment hown
        exact Directives.permit_prepend_of_true hfragment hown
    · next hflag =>
        rw [if_neg hflag] at hown
        exact hown

/-- Behind directives that let a fragment stay, a selection adds what it adds without them. -/
theorem contribution_guardedBy_of_true (hfragment : context.admits fragment = .ok true)
    (h : (selection.contribution context walk rule).outcome = .ok tree) :
    (selection.guardedBy fragment.directives).contribution context walk rule =
      selection.contribution context walk rule := by
  rcases exists_admits_of_ok h with ⟨admitted, hown⟩
  have hguarded := admits_guardedBy_of_true hfragment hown
  rw [contribution_of_admits hguarded, contribution_of_admits hown, wanted_guardedBy]

/-- Behind directives that leave a fragment out, a selection adds nothing. -/
theorem contribution_guardedBy_of_false (hfragment : context.admits fragment = .ok false)
    (selection : Selection) :
    (selection.guardedBy fragment.directives).contribution context walk rule = pure .nil := by
  unfold Context.admits at hfragment
  split at hfragment
  · next hflag =>
      have hadmits : ∀ selection : Selection, context.admits selection =
          selection.directives.permit context.variableValues := by
        intro selection
        exact if_pos hflag
      rcases directives_guardedBy fragment.directives selection with ⟨content, rfl⟩ | hdirectives
      · -- a plain value adds nothing, wherever it stands
        exact contribution_of_admits (hadmits (.value content))
      · have hleftOut := Directives.permit_prepend_of_false hfragment selection.directives
        rw [← hdirectives, ← hadmits] at hleftOut
        exact contribution_of_admits hleftOut
  · cases hfragment

/-- A fragment that stays adds what its selections add. -/
theorem contribution_of_inside (hinside : fragment.inside? context.fragments = some inside)
    (hadmits : context.admits fragment = .ok true) :
    fragment.contribution context walk rule = walk rule inside := by
  rw [contribution_of_admits hadmits, if_pos rfl]
  cases fragment with
  | field name directives selectionSet => cases hinside
  | inlineFragment directives selectionSet =>
      cases hinside
      rfl
  | spread name directives =>
      cases name with
      | none => cases hinside
      | some name =>
          simp only [inside?] at hinside
          split at hinside
          · next definition hlookup =>
              cases hinside
              exact wanted_of_defined hlookup
          · cases hinside
  | other directives selectionSet => cases hinside
  | value content => cases hinside

end Selection

/-! ## Replacing fragments -/

/-- Selections in which some fragments, at any depth, are replaced by what stands in them. -/
inductive Inlined (fragments : FragmentTable) : List Selection → List Selection → Prop
  | nil : Inlined fragments [] []
  | keep {selection : Selection} {rest after : List Selection}
      (hrest : Inlined fragments rest after) :
      Inlined fragments (selection :: rest) (selection :: after)
  | field {name : Option String} {directives : Directives} {selectionSet changed : SelectionSet}
      {rest after : List Selection}
      (hbelow : Inlined fragments selectionSet.toList changed.toList)
      (hfull : changed.toList = [] → selectionSet.toList = [])
      (hrest : Inlined fragments rest after) :
      Inlined fragments (.field name directives selectionSet :: rest)
        (.field name directives changed :: after)
  | inlineFragment {directives : Directives} {selectionSet changed : SelectionSet}
      {rest after : List Selection}
      (hbelow : Inlined fragments selectionSet.toList changed.toList)
      (hrest : Inlined fragments rest after) :
      Inlined fragments (.inlineFragment directives selectionSet :: rest)
        (.inlineFragment directives changed :: after)
  | replace {fragment : Selection} {inside below rest after : List Selection}
      (hinside : fragment.inside? fragments = some inside)
      (hbelow : Inlined fragments inside below) (hrest : Inlined fragments rest after) :
      Inlined fragments (fragment :: rest)
        (below.map (Selection.guardedBy fragment.directives) ++ after)

theorem Inlined.refl (fragments : FragmentTable) (selections : List Selection) :
    Inlined fragments selections selections := by
  induction selections with
  | nil => exact .nil
  | cons selection selections ih => exact .keep ih

theorem Inlined.append_left {fragments : FragmentTable} {selections after : List Selection}
    (h : Inlined fragments selections after) (front : List Selection) :
    Inlined fragments (front ++ selections) (front ++ after) := by
  induction front with
  | nil => exact h
  | cons selection front ih => exact .keep ih

/-- Nothing comes from nothing. -/
theorem Inlined.eq_nil {fragments : FragmentTable} {below : List Selection}
    (h : Inlined fragments [] below) : below = [] := by
  cases h
  rfl

/-- A table in which fragments are replaced in the bodies of some definitions. -/
def FragmentTable.InlinedTo (before after : FragmentTable) : Prop :=
  ∀ name, after.lookup name = before.lookup name ∨
    ∃ fragment changed, before.lookup name = .ok (some fragment) ∧
      after.lookup name = .ok (some changed) ∧
      Inlined before fragment.selections changed.selections

theorem FragmentTable.InlinedTo.refl (table : FragmentTable) : table.InlinedTo table :=
  fun _ => .inl rfl

/-- The same context with other fragments. -/
def Context.withFragments (context : Context) (fragments : FragmentTable) : Context :=
  { context with fragments }

/-! ## What a selection adds -/

namespace Selection

variable {context : Context} {table : FragmentTable} {rule : Rule} {tree : FieldTree}
  {walk other : Rule → List Selection → Run FieldTree}

/-- Walks in two contexts that agree, where fragments are replaced, on all that ends well. -/
def Agree (context : Context) (walk other : Rule → List Selection → Run FieldTree) : Prop :=
  ∀ rule selections after tree, Inlined context.fragments selections after →
    (walk rule selections).outcome = .ok tree → other rule after = walk rule selections

/-- What a selection adds depends on whether it stays, and on what it then asks for. -/
theorem contribution_congr {selection changed : Selection}
    (hdirectives : changed.directives = selection.directives)
    (hwanted : context.admits selection = .ok true →
      changed.wanted (context.withFragments table) other rule =
        selection.wanted context walk rule)
    (h : (selection.contribution context walk rule).outcome = .ok tree) :
    changed.contribution (context.withFragments table) other rule =
      selection.contribution context walk rule := by
  rcases exists_admits_of_ok h with ⟨admitted, hadmits⟩
  have hsame : (context.withFragments table).admits changed = .ok admitted := by
    unfold Context.admits at hadmits ⊢
    rw [hdirectives]
    exact hadmits
  rw [contribution_of_admits hsame, contribution_of_admits hadmits]
  cases admitted with
  | false => rfl
  | true => exact hwanted hadmits

/-- A field below which fragments are replaced adds the same, unless it loses all selections. -/
theorem contribution_field_inlined (table : FragmentTable) {name : Option String}
    {directives : Directives} {selectionSet changed : SelectionSet}
    (hagree : Agree context walk other)
    (hbelow : Inlined context.fragments selectionSet.toList changed.toList)
    (hfull : changed.toList = [] → selectionSet.toList = [])
    (h : ((field name directives selectionSet).contribution context walk rule).outcome =
      .ok tree) :
    (field name directives changed).contribution (context.withFragments table) other rule =
      (field name directives selectionSet).contribution context walk rule := by
  have hdirectives : (field name directives changed).directives =
      (field name directives selectionSet).directives := rfl
  refine contribution_congr hdirectives ?_ h
  intro hadmitted
  cases contributes_of_ok h with
  | leftOut hleft =>
      rw [hadmitted] at hleft
      cases hleft
  | @excluded name _ _ _ hverdict =>
      have hother : rule.verdict (context.withFragments table).timeout name = .exclude := hverdict
      rw [wanted_of_excluded hother, wanted_of_excluded hverdict]
      rfl
  | @leaf name _ _ _ hverdict hempty =>
      -- nothing can be inlined where nothing stands, so the field stays a leaf
      have hother : rule.verdict (context.withFragments table).timeout name ≠ .exclude := hverdict
      have hstill : changed.toList = [] := by
        rw [hempty] at hbelow
        exact hbelow.eq_nil
      rw [wanted_of_kept hother, wanted_of_kept hverdict, hempty, hstill]
      rfl
  | @branch name _ _ _ _ hverdict hkept hwalk =>
      have hother : rule.verdict (context.withFragments table).timeout name ≠ .exclude := hverdict
      -- and by `hfull` a branch stays a branch
      have hstill : changed.toList ≠ [] := fun hempty => hkept (hfull hempty)
      have hchildren := hagree _ _ _ _ hbelow hwalk
      rw [wanted_of_kept hother, wanted_of_kept hverdict, if_neg (by simpa using hstill),
        if_neg (by simpa using hkept), ← hchildren]
      rfl

theorem contribution_inlineFragment_inlined (table : FragmentTable) {directives : Directives}
    {selectionSet changed : SelectionSet} (hagree : Agree context walk other)
    (hbelow : Inlined context.fragments selectionSet.toList changed.toList)
    (h : ((inlineFragment directives selectionSet).contribution context walk rule).outcome =
      .ok tree) :
    (inlineFragment directives changed).contribution (context.withFragments table) other rule =
      (inlineFragment directives selectionSet).contribution context walk rule := by
  have hdirectives : (inlineFragment directives changed).directives =
      (inlineFragment directives selectionSet).directives := rfl
  refine contribution_congr hdirectives ?_ h
  intro hadmitted
  cases contributes_of_ok h with
  | leftOut hleft =>
      rw [hadmitted] at hleft
      cases hleft
  | inlineFragment _ hwalk => exact hagree _ _ _ _ hbelow hwalk

/-- A spread adds the same if its fragment is as it was, or has others replaced in it. -/
theorem contribution_spread_inlined {name : Option String} {directives : Directives}
    (hagree : Agree context walk other) (htable : context.fragments.InlinedTo table)
    (h : ((spread name directives).contribution context walk rule).outcome = .ok tree) :
    (spread name directives).contribution (context.withFragments table) other rule =
      (spread name directives).contribution context walk rule := by
  refine contribution_congr rfl ?_ h
  intro hadmitted
  cases contributes_of_ok h with
  | leftOut hleft =>
      rw [hadmitted] at hleft
      cases hleft
  | @undefined name _ _ hundefined =>
      have hstill : table.lookup name = .ok none := by
        rcases htable name with hsame | ⟨fragment, changed, hdefined, -, -⟩
        · exact hsame.trans hundefined
        · rw [hundefined] at hdefined
          cases hdefined
      have hother : (context.withFragments table).fragments.lookup name = .ok none := hstill
      rw [wanted_of_undefined hother, wanted_of_undefined hundefined]
  | @spread name _ fragment _ _ hdefined hwalk =>
      obtain ⟨changed, hchanged, hbelow⟩ : ∃ changed, table.lookup name = .ok (some changed) ∧
          Inlined context.fragments fragment.selections changed.selections := by
        rcases htable name with hsame | ⟨before, changed, hbefore, hafter, hbelow⟩
        · exact ⟨fragment, hsame.trans hdefined, .refl _ _⟩
        · rw [hdefined] at hbefore
          cases hbefore
          exact ⟨changed, hafter, hbelow⟩
      have hother : (context.withFragments table).fragments.lookup name = .ok (some changed) :=
        hchanged
      rw [wanted_of_defined hother, wanted_of_defined hdefined]
      exact hagree _ _ _ _ hbelow hwalk

/-- Even a selection that stays as it is may lead to replaced fragments. -/
theorem contribution_kept_inlined {selection : Selection}
    (hagree : Agree context walk other) (htable : context.fragments.InlinedTo table)
    (h : (selection.contribution context walk rule).outcome = .ok tree) :
    selection.contribution (context.withFragments table) other rule =
      selection.contribution context walk rule := by
  cases selection with
  | field name directives selectionSet =>
      exact contribution_field_inlined table hagree (.refl _ _) id h
  | inlineFragment directives selectionSet =>
      exact contribution_inlineFragment_inlined table hagree (.refl _ _) h
  | spread name directives =>
      exact contribution_spread_inlined hagree htable h
  | other directives selectionSet => rfl
  | value content => rfl

end Selection

/-! ## Walks -/

namespace FieldTree

variable {α : Type} {contribute : α → Run FieldTree}

/-- What is changed without a change to what it contributes, gathers the same. -/
theorem gather_map_of_same {change : α → α} {items : List α} {tree : FieldTree}
    (hsame : ∀ item added, (contribute item).outcome = .ok added →
      contribute (change item) = contribute item)
    (h : (gather contribute items).outcome = .ok tree) :
    gather contribute (items.map change) = gather contribute items := by
  induction items generalizing tree with
  | nil =>
      rfl
  | cons item items ih =>
      rcases gather_cons_ok_iff.1 h with ⟨first, others, hfirst, hothers, -⟩
      simp only [List.map_cons, gather, hsame item first hfirst, ih hothers]

/-- What contributes nothing gathers nothing. -/
theorem gather_map_of_nothing {change : α → α}
    (hnothing : ∀ item, contribute (change item) = pure .nil) (items : List α) :
    gather contribute (items.map change) = pure .nil := by
  induction items with
  | nil =>
      rfl
  | cons item items ih =>
      simp only [List.map_cons, gather, hnothing item, ih, pure_bind, nil_union]

end FieldTree

variable {context : Context} {table : FragmentTable} {limit : Nat} {rule : Rule}
  {selections after : List Selection} {tree : FieldTree}

/-- In place of a fragment, its selections behind its directives add what the fragment adds. -/
theorem gather_guardedBy {fragment : Selection} {inside below : List Selection}
    (hagree : Selection.Agree context (collect context limit)
      (collect (context.withFragments table) limit))
    (hinside : fragment.inside? context.fragments = some inside)
    (hbelow : Inlined context.fragments inside below)
    (h : (fragment.contribution context (collect context limit) rule).outcome = .ok tree) :
    gather (Selection.contribution (context.withFragments table)
        (collect (context.withFragments table) limit) rule)
      (below.map (Selection.guardedBy fragment.directives)) =
        fragment.contribution context (collect context limit) rule := by
  rcases Selection.exists_admits_of_ok h with ⟨admitted, hadmits⟩
  have hother : (context.withFragments table).admits fragment = .ok admitted := hadmits
  cases admitted with
  | false =>
      rw [Selection.contribution_of_admits hadmits]
      exact FieldTree.gather_map_of_nothing
        (Selection.contribution_guardedBy_of_false hother) below
  | true =>
      rw [Selection.contribution_of_inside hinside hadmits] at h ⊢
      have hsame := hagree rule inside below tree hbelow h
      have hwalk : (collect (context.withFragments table) limit rule below).outcome = .ok tree := by
        rw [hsame]
        exact h
      -- the walk inside the fragment was one level down, and is now on the level of the fragment
      have hlevel := collect_of_le (Nat.le_succ limit) hwalk
      have hgather : gather (Selection.contribution (context.withFragments table)
          (collect (context.withFragments table) limit) rule) below =
            collect context limit rule inside :=
        calc
          _ = collect (context.withFragments table) (limit + 1) rule below :=
                (collect_succ _ _ _ _).symm
          _ = collect (context.withFragments table) limit rule below := hlevel
          _ = collect context limit rule inside := hsame
      have hgathered := h
      rw [← hgather] at hgathered ⊢
      refine FieldTree.gather_map_of_same ?_ hgathered
      intro selection added hadded
      exact Selection.contribution_guardedBy_of_true hother hadded

/-- A walk that ends well is the same where fragments are replaced, anywhere in the selections and
in the fragments they lead to. -/
theorem collect_inlined (htable : context.fragments.InlinedTo table)
    (hinlined : Inlined context.fragments selections after)
    (h : (collect context limit rule selections).outcome = .ok tree) :
    collect (context.withFragments table) limit rule after =
      collect context limit rule selections := by
  induction limit generalizing rule selections after tree with
  | zero =>
      cases h
  | succ limit ih =>
      have hagree : Selection.Agree context (collect context limit)
          (collect (context.withFragments table) limit) := by
        intro inner below inlined found hbelow hfound
        exact ih hbelow hfound
      rw [collect_succ] at h ⊢
      rw [collect_succ]
      -- the limit carries the walks below, the list those beside
      induction hinlined generalizing tree with
      | nil =>
          simp only [gather]
      | keep _ ihrest =>
          rcases gather_cons_ok_iff.1 h with ⟨first, others, hfirst, hothers, -⟩
          have hsame := Selection.contribution_kept_inlined hagree htable hfirst
          simp only [gather, hsame, ihrest hothers]
      | field hbelow hfull _ _ ihrest =>
          rcases gather_cons_ok_iff.1 h with ⟨first, others, hfirst, hothers, -⟩
          have hsame := Selection.contribution_field_inlined table hagree hbelow hfull hfirst
          simp only [gather, hsame, ihrest hothers]
      | inlineFragment hbelow _ _ ihrest =>
          rcases gather_cons_ok_iff.1 h with ⟨first, others, hfirst, hothers, -⟩
          have hsame := Selection.contribution_inlineFragment_inlined table hagree hbelow hfirst
          simp only [gather, hsame, ihrest hothers]
      | replace hinside hbelow _ _ ihrest =>
          rcases gather_cons_ok_iff.1 h with ⟨first, others, hfirst, hothers, -⟩
          have hsame := gather_guardedBy hagree hinside hbelow hfirst
          rw [FieldTree.gather_append, hsame, ihrest hothers, gather]

/-- If a walk through selections with a fragment among them ends well, the same walk through what
stands in the fragment, each behind its directives, has the same tree and the same notices. So it is
if fragments are replaced in the selections of fields and fragments at any depth, in the table as
well, as long as no field loses all of its selections. -/
theorem fragments_are_transparent (context : Context) (limit : Nat) (rule : Rule) :
    (∀ (front back inside : List Selection) (fragment : Selection) (tree : FieldTree),
      fragment.inside? context.fragments = some inside →
      (collect context limit rule (front ++ [fragment] ++ back)).outcome = .ok tree →
        collect context limit rule
            (front ++ inside.map (Selection.guardedBy fragment.directives) ++ back) =
          collect context limit rule (front ++ [fragment] ++ back)) ∧
      ∀ (table : FragmentTable) (selections after : List Selection) (tree : FieldTree),
        context.fragments.InlinedTo table → Inlined context.fragments selections after →
        (collect context limit rule selections).outcome = .ok tree →
          collect (context.withFragments table) limit rule after =
            collect context limit rule selections := by
  constructor
  · intro front back inside fragment tree hinside h
    have hreplaced : Inlined context.fragments (fragment :: back)
        (inside.map (Selection.guardedBy fragment.directives) ++ back) :=
      .replace hinside (.refl _ _) (.refl _ _)
    have hinlined : Inlined context.fragments (front ++ [fragment] ++ back)
        (front ++ inside.map (Selection.guardedBy fragment.directives) ++ back) := by
      rw [List.append_assoc, List.append_assoc]
      exact hreplaced.append_left front
    exact collect_inlined (.refl context.fragments) hinlined h
  · intro table selections after tree htable hinlined h
    exact collect_inlined htable hinlined h

/-- A field whose only fragment is empty is an empty branch; without the fragment it is a leaf. -/
example :
    (collect sampleContext 3 .keep
        [.field (some "a") .missing (.listed [.inlineFragment .missing .missing])]).outcome =
      .ok (.branch "a" .nil .nil) ∧
    (collect sampleContext 3 .keep [.field (some "a") .missing (.listed [])]).outcome =
      .ok (.leaf "a" .nil) :=
  ⟨rfl, rfl⟩

/-- The spread in `{ a, ...F @include(if: $v), c }` and the one in `{ b { ...F } }` may both be
replaced by what stands in `F`. -/
theorem sample_transparent_fragments :
    collect sampleContext 4 .keep
        ([.field (some "a") .missing .missing] ++
          sampleFragment.selections.map (Selection.guardedBy
            (.listed [.named "include" (.listed [.ofVariable "v"])])) ++
          [.field (some "c") .missing .missing]) =
      collect sampleContext 4 .keep
        ([.field (some "a") .missing .missing] ++
          [.spread (some "F") (.listed [.named "include" (.listed [.ofVariable "v"])])] ++
          [.field (some "c") .missing .missing]) ∧
    collect (sampleContext.withFragments sampleContext.fragments) 5 sampleRule
        [.field (some "b") .missing (.listed
          (sampleFragment.selections.map (Selection.guardedBy .missing)))] =
      collect sampleContext 5 sampleRule
        [.field (some "b") .missing (.listed [.spread (some "F") .missing])] := by
  constructor
  · have hwalk : (collect sampleContext 4 .keep
        ([.field (some "a") .missing .missing] ++
          [.spread (some "F") (.listed [.named "include" (.listed [.ofVariable "v"])])] ++
          [.field (some "c") .missing .missing])).outcome =
        .ok (.branch "a" (.branch "b" (.leaf "x" .nil) .nil)
          (.leaf "d" (.leaf "c" .nil))) := rfl
    exact (fragments_are_transparent sampleContext 4 .keep).1 _ _ _ _ _ rfl hwalk
  · have hwalk : (collect sampleContext 5 sampleRule
        [.field (some "b") .missing (.listed [.spread (some "F") .missing])]).outcome =
        .ok (.branch "b" (.branch "a" (.branch "b" (.leaf "x" .nil) .nil)
          (.leaf "d" .nil)) .nil) := rfl
    have hbelow : Inlined sampleContext.fragments [.spread (some "F") .missing]
        (sampleFragment.selections.map (Selection.guardedBy .missing)) := by
      rw [← List.append_nil (sampleFragment.selections.map (Selection.guardedBy .missing))]
      exact .replace rfl (.refl _ _) .nil
    exact (fragments_are_transparent sampleContext 5 sampleRule).2 _ _ _ _ (.refl _)
      (.field hbelow (fun hempty => by cases hempty) .nil) hwalk

end Lookahead
