import Lookahead.Query.Selection

/-!
# Reordering — the same selections in another order

Who writes a query may put the selections of one list in any order, and may write one of them
again. The same may be done in the lists below fields and in fragments, at any depth.

* `Reordered` — selections after any number of such changes;
* `Selection.Alike` — one selection after such changes below it;
* `Reordered.matched` — each selection of either list has one like it in the other;
* `FragmentTable.ReorderedTo` — the same names for fragments with reordered selections.
-/

namespace Lookahead

/-- Selections may change places, stand there once more, and be reordered below. -/
inductive Reordered : List Selection → List Selection → Prop
  | refl (selections : List Selection) : Reordered selections selections
  | swap (first second : Selection) (rest : List Selection) :
      Reordered (first :: second :: rest) (second :: first :: rest)
  /-- A selection that is there already may be written again in front. -/
  | again {selection : Selection} {rest : List Selection} (hmem : selection ∈ rest) :
      Reordered rest (selection :: rest)
  | cons (first : Selection) {rest others : List Selection} (hrest : Reordered rest others) :
      Reordered (first :: rest) (first :: others)
  | field {name : Option String} {directives : Directives} {selectionSet changed : SelectionSet}
      {rest : List Selection} (hbelow : Reordered selectionSet.toList changed.toList) :
      Reordered (.field name directives selectionSet :: rest)
        (.field name directives changed :: rest)
  | inlineFragment {directives : Directives} {selectionSet changed : SelectionSet}
      {rest : List Selection} (hbelow : Reordered selectionSet.toList changed.toList) :
      Reordered (.inlineFragment directives selectionSet :: rest)
        (.inlineFragment directives changed :: rest)
  | symm {selections others : List Selection} (h : Reordered selections others) :
      Reordered others selections
  | trans {selections middle others : List Selection} (hleft : Reordered selections middle)
      (hright : Reordered middle others) : Reordered selections others

/-! ## One selection -/

namespace Selection

/-- The same selection, with reordered selections below it. -/
inductive Alike : Selection → Selection → Prop
  | field {name : Option String} {directives : Directives} {selectionSet changed : SelectionSet}
      (hbelow : Reordered selectionSet.toList changed.toList) :
      Alike (field name directives selectionSet) (field name directives changed)
  | inlineFragment {directives : Directives} {selectionSet changed : SelectionSet}
      (hbelow : Reordered selectionSet.toList changed.toList) :
      Alike (inlineFragment directives selectionSet) (inlineFragment directives changed)
  | spread {name : Option String} {directives : Directives} :
      Alike (spread name directives) (spread name directives)
  | other {directives : Directives} {selectionSet : SelectionSet} :
      Alike (other directives selectionSet) (other directives selectionSet)
  | value {content : Value} : Alike (.value content) (.value content)

namespace Alike

variable {selection middle changed : Selection}

theorem refl (selection : Selection) : selection.Alike selection := by
  cases selection with
  | field name directives selectionSet => exact .field (.refl _)
  | inlineFragment directives selectionSet => exact .inlineFragment (.refl _)
  | spread name directives => exact .spread
  | other directives selectionSet => exact .other
  | value content => exact .value

theorem symm (h : selection.Alike changed) : changed.Alike selection := by
  cases h with
  | field hbelow => exact .field hbelow.symm
  | inlineFragment hbelow => exact .inlineFragment hbelow.symm
  | spread => exact .spread
  | other => exact .other
  | value => exact .value

theorem trans (h : selection.Alike middle) (hchanged : middle.Alike changed) :
    selection.Alike changed := by
  cases h with
  | field hbelow =>
      cases hchanged with
      | field hinner => exact .field (hbelow.trans hinner)
  | inlineFragment hbelow =>
      cases hchanged with
      | inlineFragment hinner => exact .inlineFragment (hbelow.trans hinner)
  | spread => exact hchanged
  | other => exact hchanged
  | value => exact hchanged

theorem directives_eq (h : selection.Alike changed) :
    changed.directives = selection.directives := by
  cases h <;> rfl

theorem selections (h : selection.Alike changed) :
    Reordered selection.selections changed.selections := by
  cases h with
  | field hbelow => exact hbelow
  | inlineFragment hbelow => exact hbelow
  | spread => exact .refl _
  | other => exact .refl _
  | value => exact .refl _

end Alike

end Selection

/-! ## Lists of selections -/

/-- Each selection of either list has one like it in the other. -/
structure Matched (selections others : List Selection) : Prop where
  forth : ∀ selection ∈ selections, ∃ other ∈ others, selection.Alike other
  back : ∀ other ∈ others, ∃ selection ∈ selections, selection.Alike other

namespace Matched

variable {selections middle others rest : List Selection} {first changed : Selection}

theorem refl (selections : List Selection) : Matched selections selections where
  forth := fun selection hmem => ⟨selection, hmem, .refl _⟩
  back := fun selection hmem => ⟨selection, hmem, .refl _⟩

theorem symm (h : Matched selections others) : Matched others selections where
  forth := by
    intro other hmem
    rcases h.back other hmem with ⟨selection, hselection, halike⟩
    exact ⟨selection, hselection, halike.symm⟩
  back := by
    intro selection hmem
    rcases h.forth selection hmem with ⟨other, hother, halike⟩
    exact ⟨other, hother, halike.symm⟩

theorem trans (h : Matched selections middle) (hothers : Matched middle others) :
    Matched selections others where
  forth := by
    intro selection hmem
    rcases h.forth selection hmem with ⟨between, hbetween, halike⟩
    rcases hothers.forth between hbetween with ⟨other, hother, hthen⟩
    exact ⟨other, hother, halike.trans hthen⟩
  back := by
    intro other hmem
    rcases hothers.back other hmem with ⟨between, hbetween, halike⟩
    rcases h.back between hbetween with ⟨selection, hselection, hfirst⟩
    exact ⟨selection, hselection, hfirst.trans halike⟩

/-- Lists with the same members match. -/
theorem of_mem_iff (h : ∀ selection, selection ∈ selections ↔ selection ∈ others) :
    Matched selections others where
  forth := fun selection hmem => ⟨selection, (h selection).1 hmem, .refl _⟩
  back := fun selection hmem => ⟨selection, (h selection).2 hmem, .refl _⟩

theorem cons (hfirst : first.Alike changed) (hrest : Matched rest others) :
    Matched (first :: rest) (changed :: others) where
  forth := by
    intro selection hmem
    rcases List.mem_cons.1 hmem with rfl | hmem
    · exact ⟨changed, List.mem_cons_self, hfirst⟩
    · rcases hrest.forth selection hmem with ⟨other, hother, halike⟩
      exact ⟨other, List.mem_cons_of_mem _ hother, halike⟩
  back := by
    intro other hmem
    rcases List.mem_cons.1 hmem with rfl | hmem
    · exact ⟨first, List.mem_cons_self, hfirst⟩
    · rcases hrest.back other hmem with ⟨selection, hselection, halike⟩
      exact ⟨selection, List.mem_cons_of_mem _ hselection, halike⟩

theorem eq_nil_iff (h : Matched selections others) : selections = [] ↔ others = [] := by
  constructor
  · rintro rfl
    apply List.eq_nil_iff_forall_not_mem.2
    intro other hmem
    rcases h.back other hmem with ⟨selection, hselection, -⟩
    exact List.not_mem_nil hselection
  · rintro rfl
    apply List.eq_nil_iff_forall_not_mem.2
    intro selection hmem
    rcases h.forth selection hmem with ⟨other, hother, -⟩
    exact List.not_mem_nil hother

end Matched

variable {selections others : List Selection}

theorem Reordered.matched (h : Reordered selections others) : Matched selections others := by
  induction h with
  | refl selections =>
      exact .refl selections
  | swap first second rest =>
      apply Matched.of_mem_iff
      intro selection
      simp only [List.mem_cons]
      exact or_left_comm
  | @again selection rest hmem =>
      apply Matched.of_mem_iff
      intro other
      simpa using fun h : other = selection => h ▸ hmem
  | cons first _ ih =>
      exact .cons (.refl first) ih
  | field hbelow _ =>
      exact .cons (.field hbelow) (.refl _)
  | inlineFragment hbelow _ =>
      exact .cons (.inlineFragment hbelow) (.refl _)
  | symm _ ih =>
      exact ih.symm
  | trans _ _ ihleft ihright =>
      exact ihleft.trans ihright

/-- Reordered selections are none if and only if there were none. -/
theorem Reordered.eq_nil_iff (h : Reordered selections others) : selections = [] ↔ others = [] :=
  h.matched.eq_nil_iff

theorem Reordered.of_perm (h : selections.Perm others) : Reordered selections others := by
  induction h with
  | nil =>
      exact .refl []
  | cons first _ ih =>
      exact .cons first ih
  | swap first second rest =>
      exact .swap second first rest
  | trans _ _ ihleft ihright =>
      exact .trans ihleft ihright

/-! ## Fragments -/

/-- Each name stands for the same in both tables, or for fragments with reordered selections. -/
def FragmentTable.ReorderedTo (before after : FragmentTable) : Prop :=
  ∀ name, after.lookup name = before.lookup name ∨
    ∃ fragment changed, before.lookup name = .ok (some fragment) ∧
      after.lookup name = .ok (some changed) ∧
      Reordered fragment.selections changed.selections

namespace FragmentTable.ReorderedTo

variable {before after : FragmentTable} {name : String}

theorem defined (h : before.ReorderedTo after) {fragment : Fragment}
    (hdefined : before.lookup name = .ok (some fragment)) :
    ∃ changed, after.lookup name = .ok (some changed) ∧
      Reordered fragment.selections changed.selections := by
  rcases h name with hlookup | ⟨known, changed, hbefore, hafter, hbelow⟩
  · exact ⟨fragment, hlookup.trans hdefined, .refl _⟩
  · -- the fragment of a name is but one
    cases hdefined.symm.trans hbefore
    exact ⟨changed, hafter, hbelow⟩

theorem undefined (h : before.ReorderedTo after) (hundefined : before.lookup name = .ok none) :
    after.lookup name = .ok none := by
  rcases h name with hlookup | ⟨known, changed, hbefore, -, -⟩
  · exact hlookup.trans hundefined
  · cases hundefined.symm.trans hbefore

end FragmentTable.ReorderedTo

end Lookahead
