import Lookahead.Proofs.Request.Answered

/-!
# Request.Options — what the reading of options fails over

Nobody checks the options of a request. A value of a wrong shape is harmless as long as it counts as
absent, and otherwise it does harm where it is used and not before: patterns where they are gone
through, a path where a branch is taken, new names where a name is asked for.

* `Value.Misshapen` — a value that is there and does not have a shape;
* `Pattern.Fails` — what patterns fail over;
* `Options.TreeFails` — what the tree of a request fails over, as long as its walk goes well;
* `Options.RenamingFails`, `Options.LabelFails` — what the labels of a tree fail over.
-/

namespace Lookahead

/-! ## Values of a wrong shape -/

namespace Value

variable {value item : Value} {items : List Value} {failure : Failure}

def IsRecord (value : Value) : Prop :=
  ∃ fields, value = .object fields

/-- A value that does not count as absent and does not have a shape. -/
def Misshapen (shape : Value → Prop) (value : Value) : Prop :=
  value.truthy = true ∧ ¬ shape value

/-- A record with anything in it was there all along. -/
theorem orElse_eq_object_iff {fields : List (String × Value)} (h : fields ≠ []) :
    value.orElse (.object []) = .object fields ↔ value = .object fields := by
  cases htruthy : value.truthy with
  | true =>
      rw [orElse_of_truthy htruthy]
  | false =>
      rw [orElse_of_not_truthy htruthy]
      constructor
      · intro hnone
        cases hnone
        exact absurd rfl h
      · rintro rfl
        simp [truthy, h] at htruthy

theorem misshapen_iff {shape : Value → Prop} (h : ¬ shape value) :
    value.Misshapen shape ↔ value.truthy = true := by
  simp [Misshapen, h]

theorem not_misshapen_of_shape {shape : Value → Prop} (h : shape value) :
    ¬ value.Misshapen shape :=
  fun hmisshapen => hmisshapen.2 h

theorem not_misshapen_null {shape : Value → Prop} : ¬ Value.null.Misshapen shape :=
  fun h => Bool.false_ne_true h.1

/-- Where only one shape is read, any other value is refused unless it counts as absent. -/
theorem refused_iff {α : Type} {cause : Failure} {fallback : α} :
    (if value.truthy = true then (.error cause : Except Failure α) else .ok fallback) =
        .error failure ↔ failure = cause ∧ value.truthy = true := by
  cases value.truthy <;> simp [eq_comm]

/-- A value that does not count as absent and cannot be gone through. -/
inductive Unlisted : Value → Prop
  | truth : Unlisted (.bool true)
  | number {negative : Bool} {digits places : Nat} (h : digits ≠ 0) :
      Unlisted (.number negative digits places)

/-- With a record as the fallback, a value that is no record in the end was there all along. -/
theorem not_isRecord_orElse_iff :
    ¬ (value.orElse (.object [])).IsRecord ↔ value.Misshapen IsRecord := by
  cases htruthy : value.truthy with
  | true =>
      simp [orElse_of_truthy htruthy, Misshapen, htruthy]
  | false =>
      simp [orElse_of_not_truthy htruthy, Misshapen, htruthy, IsRecord]

end Value

/-! ## Patterns -/

namespace Pattern

variable {value item : Value} {items : List Value} {failure : Failure}

/-- What patterns fail over: a value that cannot be gone through, or a member of a list that is
there and is no text. -/
inductive Fails : Value → Failure → Prop
  | unlisted {value : Value} (h : value.Unlisted) : Fails value .patternsNotListed
  | notText {items : List Value} {item : Value} (hmem : item ∈ items)
      (h : item.Misshapen Value.IsText) : Fails (.array items) .patternNotText

theorem ofItem_eq_error_iff :
    ofItem item = .error failure ↔
      failure = .patternNotText ∧ item.Misshapen Value.IsText := by
  unfold ofItem
  split
  · next pattern =>
      have hshaped : ¬ (Value.text pattern).Misshapen Value.IsText :=
        Value.not_misshapen_of_shape ⟨pattern, rfl⟩
      simp only [reduceCtorEq, hshaped, and_false]
  · next hother =>
      have hshape : ¬ item.IsText := by
        rintro ⟨text, rfl⟩
        exact hother text rfl
      simp only [Value.misshapen_iff hshape, Value.refused_iff]

theorem ofItems_eq_error_iff :
    ofItems items = .error failure ↔
      failure = .patternNotText ∧ ∃ item ∈ items, item.Misshapen Value.IsText := by
  induction items with
  | nil =>
      simp [ofItems]
  | cons item items ih =>
      cases hitem : ofItem item with
      | error cause =>
          -- the first member that fails decides, but all of them fail alike
          rcases ofItem_eq_error_iff.1 hitem with ⟨rfl, hmisshapen⟩
          simp [ofItems, hitem, Bind.bind, Except.bind, hmisshapen, eq_comm]
      | ok pattern =>
          have hshaped : ¬ item.Misshapen Value.IsText := by
            intro hmisshapen
            have herror := ofItem_eq_error_iff.2 ⟨rfl, hmisshapen⟩
            cases hitem.symm.trans herror
          cases hitems : ofItems items with
          | error cause =>
              simp [ofItems, hitem, hitems, Bind.bind, Except.bind, hshaped, ← ih]
          | ok patterns =>
              simp [ofItems, hitem, hitems, Bind.bind, Except.bind, pure, Except.pure, hshaped,
                ← ih]

/-- Patterns that count as absent fail over nothing. -/
theorem ofValue_orElse_eq_error_iff :
    ofValue (value.orElse (.array [])) = .error failure ↔ Fails value failure := by
  constructor
  · intro h
    cases htruthy : value.truthy with
    | false =>
        rw [Value.orElse_of_not_truthy htruthy] at h
        cases h
    | true =>
        rw [Value.orElse_of_truthy htruthy] at h
        cases value with
        | null => cases htruthy
        | bool truth =>
            cases h
            cases htruthy
            exact .unlisted .truth
        | number negative digits places =>
            cases h
            exact .unlisted (.number (by simpa [Value.truthy] using htruthy))
        | text text => cases h
        | array items =>
            rcases ofItems_eq_error_iff.1 h with ⟨rfl, item, hmem, hitem⟩
            exact .notText hmem hitem
        | object fields => cases h
  · intro h
    cases h with
    | unlisted h =>
        cases h with
        | truth => rfl
        | @number negative digits places hdigits =>
            have htruthy : (Value.number negative digits places).truthy = true := by
              simpa [Value.truthy] using hdigits
            rw [Value.orElse_of_truthy htruthy]
            rfl
    | @notText items item hmem hitem =>
        have htruthy : (Value.array items).truthy = true := by
          simpa [Value.truthy] using List.ne_nil_of_mem hmem
        rw [Value.orElse_of_truthy htruthy]
        exact ofItems_eq_error_iff.2 ⟨rfl, item, hmem, hitem⟩

end Pattern

/-! ## Options -/

namespace Options

variable {options : Value} {parsed : Options} {failure : Failure}

/-- What options hold under a key, if they are a record and hold anything there. -/
def given (key : String) (options : Value) : Value :=
  (options.field? key).getD .null

/-- What the tree of a request fails over, as long as its walk does not fail: options that are no
record, then the patterns, then the path. -/
inductive TreeFails (options : Value) : Failure → Prop
  | options (h : options.Misshapen Value.IsRecord) : TreeFails options .optionsNotRecord
  | patterns {failure : Failure} (h : Pattern.Fails (given skipKey options) failure) :
      TreeFails options failure
  | path (hpatterns : ∀ failure, ¬ Pattern.Fails (given skipKey options) failure)
      (h : (given pathKey options).Misshapen Value.IsText) : TreeFails options .pathNotText

/-- New names that are no record are a failure where a name is asked for. -/
inductive RenamingFails (options : Value) (asks : Prop) : Failure → Prop
  | transform (h : (given transformKey options).Misshapen Value.IsRecord) (hasks : asks) :
      RenamingFails options asks .transformNotRecord

/-- A list or a record is a failure as the label of a leaf, unless it is empty. -/
inductive LabelFails (options : Value) (tree : FieldTree) : Failure → Prop
  | label {path : List String} {fields : List (String × Value)} {label : Value}
      (hleaf : tree.get? path = some .leaf)
      (hfields : given transformKey options = .object fields)
      (hlabel : Value.lookup (FieldTree.dotted "" path) fields = some label)
      (htruthy : label.truthy = true) (hplain : label.canLabel = false) :
      LabelFails options tree .labelNotPlain

/-- Options are read unless they are there and no record. -/
theorem ofValue_eq_error_iff :
    ofValue options = .error failure ↔
      failure = .optionsNotRecord ∧ options.Misshapen Value.IsRecord := by
  cases options with
  | object fields =>
      have hshaped : ¬ (Value.object fields).Misshapen Value.IsRecord :=
        Value.not_misshapen_of_shape ⟨fields, rfl⟩
      cases fields <;> simp only [ofValue, Value.truthy, hshaped] <;> simp
  | _ =>
      simp only [ofValue, Value.refused_iff]
      simp [Value.misshapen_iff, Value.IsRecord]

theorem not_misshapen_of_ofValue (h : ofValue options = .ok parsed) :
    ¬ options.Misshapen Value.IsRecord := by
  intro hmisshapen
  cases h.symm.trans (ofValue_eq_error_iff.2 ⟨rfl, hmisshapen⟩)

/-- Options that are read are those of a record, or of none at all. -/
theorem exists_fields_of_ofValue (h : ofValue options = .ok parsed) :
    ∃ fields, parsed = ofFields fields ∧
      ∀ key, given key options = (Value.lookup key fields).getD .null := by
  cases options with
  | object fields =>
      cases fields with
      | nil =>
          cases h
          exact ⟨[], rfl, fun _ => rfl⟩
      | cons field fields =>
          cases h
          exact ⟨field :: fields, rfl, fun _ => rfl⟩
  | _ =>
      -- nothing but an absent value is read here, and it holds nothing
      simp only [ofValue] at h
      split at h
      · cases h
      · cases h
        exact ⟨[], rfl, fun _ => rfl⟩

theorem path_eq_given (h : ofValue options = .ok parsed) : parsed.path = given pathKey options := by
  rcases exists_fields_of_ofValue h with ⟨fields, rfl, hgiven⟩
  exact (hgiven pathKey).symm

theorem skip_eq_given (h : ofValue options = .ok parsed) :
    parsed.skip = (given skipKey options).orElse (.array []) := by
  rcases exists_fields_of_ofValue h with ⟨fields, rfl, hgiven⟩
  rw [hgiven skipKey]
  rfl

theorem transform_eq_given (h : ofValue options = .ok parsed) :
    parsed.transform = (given transformKey options).orElse (.object []) := by
  rcases exists_fields_of_ofValue h with ⟨fields, rfl, hgiven⟩
  rw [hgiven transformKey]
  rfl

theorem renamingFails_iff {asks : Prop} (h : ofValue options = .ok parsed) :
    RenamingFails options asks failure ↔
      failure = .transformNotRecord ∧ ¬ parsed.transform.IsRecord ∧ asks := by
  rw [transform_eq_given h, Value.not_isRecord_orElse_iff]
  constructor
  · intro hfails
    cases hfails with
    | transform hmisshapen hasks => exact ⟨rfl, hmisshapen, hasks⟩
  · rintro ⟨rfl, hmisshapen, hasks⟩
    exact .transform hmisshapen hasks

/-- What is no record holds nothing. -/
theorem given_of_not_isRecord (h : ¬ options.IsRecord) (key : String) :
    given key options = .null := by
  cases options with
  | object fields => exact absurd ⟨fields, rfl⟩ h
  | _ => rfl

theorem not_fails_null : ¬ Pattern.Fails .null failure := by
  intro h
  cases h with
  | unlisted h => cases h

/-- Options that are no record fail over nothing else. -/
theorem treeFails_iff_of_misshapen (h : options.Misshapen Value.IsRecord) :
    TreeFails options failure ↔ failure = .optionsNotRecord := by
  constructor
  · intro hfails
    cases hfails with
    | options _ => rfl
    | patterns hpatterns =>
        rw [given_of_not_isRecord h.2] at hpatterns
        exact absurd hpatterns not_fails_null
    | path _ hpath =>
        rw [given_of_not_isRecord h.2] at hpath
        exact absurd hpath Value.not_misshapen_null
  · rintro rfl
    exact .options h

end Options

theorem FieldTree.branchAt_eq_error_iff {tree : FieldTree} {path : Value} {failure : Failure} :
    tree.branchAt path = .error failure ↔
      failure = .pathNotText ∧ path.Misshapen Value.IsText := by
  cases path with
  | text dotted =>
      have hshaped : ¬ (Value.text dotted).Misshapen Value.IsText :=
        Value.not_misshapen_of_shape ⟨dotted, rfl⟩
      simp only [branchAt, hshaped, and_false, iff_false]
      split <;> simp
  | _ =>
      simp only [branchAt, Value.refused_iff]
      simp [Value.misshapen_iff, Value.IsText]

/-! ## New names -/

namespace Value

variable {transform : Value} {name : String} {failure : Failure}

/-- A new name is asked for in vain exactly if there is no record of them. -/
theorem label_eq_error_iff :
    transform.label name = .error failure ↔
      failure = .transformNotRecord ∧ ¬ transform.IsRecord := by
  cases transform with
  | object fields => simp [label, field?, IsRecord]
  | _ => simp [label, field?, IsRecord, eq_comm]

theorem isRecord_of_label {label : Value} (h : transform.label name = .ok label) :
    transform.IsRecord := by
  by_contra hshape
  cases h.symm.trans (label_eq_error_iff.2 ⟨rfl, hshape⟩)

/-- A list or a record under a name becomes the label of the name, unless it is empty. -/
theorem exists_label_not_plain_iff :
    (∃ label, transform.label name = .ok label ∧ label.canLabel = false) ↔
      ∃ fields value, transform = .object fields ∧ lookup name fields = some value ∧
        value.truthy = true ∧ value.canLabel = false := by
  cases transform with
  | object fields =>
      cases hlookup : lookup name fields with
      | none => simp [label, field?, hlookup, orElse, truthy, canLabel]
      | some value =>
          cases htruthy : value.truthy <;>
            simp [label, field?, hlookup, orElse, htruthy, canLabel]
  | _ => simp [label, field?]

theorem IsRecord.exists_labels (h : transform.IsRecord) (names : List String) :
    ∃ labels, names.mapM transform.label = .ok labels := by
  rcases h with ⟨fields, rfl⟩
  induction names with
  | nil =>
      exact ⟨[], rfl⟩
  | cons name names ih =>
      rcases ih with ⟨labels, hlabels⟩
      have hfirst : (object fields).label name =
          .ok (((lookup name fields).getD .null).orElse (.text name)) := rfl
      exact ⟨_ :: labels, by simp only [List.mapM_cons, hfirst, hlabels]; rfl⟩

/-- Without a record of new names, any name at all is one too many. -/
theorem mapM_label_eq_error_iff {names : List String} :
    names.mapM transform.label = .error failure ↔
      failure = .transformNotRecord ∧ ¬ transform.IsRecord ∧ names ≠ [] := by
  by_cases hshape : transform.IsRecord
  · rcases hshape.exists_labels names with ⟨labels, hlabels⟩
    simp only [hlabels, hshape, reduceCtorEq, not_true_eq_false, false_and, and_false]
  · cases names with
    | nil =>
        simp [pure, Except.pure]
    | cons name names =>
        have hfirst : transform.label name = .error .transformNotRecord :=
          label_eq_error_iff.2 ⟨rfl, hshape⟩
        simp [List.mapM_cons, hfirst, Bind.bind, Except.bind, hshape, eq_comm]

end Value

namespace Projection

variable {options : Options} {labels : List Value} {items : List FieldTree.Item}
  {item : FieldTree.Item} {failure : Failure}

/-- What an entry that is listed fails over: it is a leaf, and there is no record of new names or
its new name cannot be a label. -/
inductive Fails (options : Options) (item : FieldTree.Item) : Failure → Prop
  | transform (hleaf : item.isBranch = false) (h : ¬ options.transform.IsRecord) :
      Fails options item .transformNotRecord
  | label {label : Value} (hleaf : item.isBranch = false)
      (hlabel : options.transform.label item.path = .ok label) (h : label.canLabel = false) :
      Fails options item .labelNotPlain

theorem add_eq_error_iff :
    add options labels item = .error failure ↔ Fails options item failure := by
  cases hkind : item.isBranch with
  | true =>
      -- the path of a branch is not renamed, so nothing can be wrong with it
      simp only [add, hkind, if_true, reduceCtorEq, false_iff]
      intro hfails
      cases hfails with
      | transform hleaf _ => cases hkind.symm.trans hleaf
      | label hleaf _ _ => cases hkind.symm.trans hleaf
  | false =>
      have hadd : add options labels item = (do
          let label ← options.transform.label item.path
          if label.canLabel then .ok (insert labels label) else .error .labelNotPlain) := by
        simp only [add, hkind, Bool.false_eq_true, if_false]
      rw [hadd]
      constructor
      · intro h
        cases hlabel : options.transform.label item.path with
        | error cause =>
            rw [hlabel] at h
            cases h
            rcases Value.label_eq_error_iff.1 hlabel with ⟨rfl, hshape⟩
            exact .transform hkind hshape
        | ok label =>
            cases hplain : label.canLabel with
            | true =>
                simp [hlabel, hplain, Bind.bind, Except.bind] at h
            | false =>
                simp only [hlabel, hplain, Bind.bind, Except.bind] at h
                cases h
                exact .label hkind hlabel hplain
      · intro h
        cases h with
        | transform _ hshape =>
            rw [Value.label_eq_error_iff.2 ⟨rfl, hshape⟩]
            rfl
        | label _ hlabel hplain =>
            simp [hlabel, hplain, Bind.bind, Except.bind]

/-- All entries that fail under the same options fail alike. -/
theorem Fails.alike {other : FieldTree.Item} {cause : Failure} (h : Fails options item failure)
    (hother : Fails options other cause) : failure = cause := by
  cases h with
  | transform _ hshape =>
      cases hother with
      | transform _ _ => rfl
      | label _ hlabel _ => exact absurd (Value.isRecord_of_label hlabel) hshape
  | label _ hlabel _ =>
      cases hother with
      | transform _ hshape => exact absurd (Value.isRecord_of_label hlabel) hshape
      | label _ _ _ => rfl

/-- Entries that are added one after the other fail exactly if one of them does. -/
theorem foldlM_add_eq_error_iff :
    items.foldlM (add options) labels = .error failure ↔
      ∃ item ∈ items, Fails options item failure := by
  induction items generalizing labels with
  | nil =>
      simp [pure, Except.pure]
  | cons item items ih =>
      rw [List.foldlM_cons]
      cases hadd : add options labels item with
      | error cause =>
          have hfails := add_eq_error_iff.1 hadd
          constructor
          · intro h
            cases h
            exact ⟨item, List.mem_cons_self, hfails⟩
          · rintro ⟨other, -, hother⟩
            rw [hfails.alike hother]
            rfl
      | ok next =>
          have hfirst : ¬ Fails options item failure := by
            intro hfails
            cases hadd.symm.trans (add_eq_error_iff.2 hfails)
          have hrest : items.foldlM (add options) next = .error failure ↔
              ∃ item ∈ items, Fails options item failure := ih
          simpa [hfirst, Bind.bind, Except.bind] using hrest

end Projection

theorem FieldTree.Entry.eq_leaf_of_not_branch {entry : Entry} (h : entry.isBranch = false) :
    entry = .leaf := by
  cases entry with
  | leaf => rfl
  | branch children => cases h

/-- An entry of a tree fails exactly if a leaf does, by its dotted path. -/
theorem Projection.exists_fails_iff {options : Value} {parsed : Options} {tree : FieldTree}
    {failure : Failure} (hparsed : Options.ofValue options = .ok parsed) (hd : tree.Distinct) :
    (∃ item ∈ tree.listing, Fails parsed item failure) ↔
      Options.RenamingFails options (∃ path, tree.get? path = some .leaf) failure ∨
        Options.LabelFails options tree failure := by
  rw [Options.renamingFails_iff hparsed]
  constructor
  · rintro ⟨item, hmem, hfails⟩
    rcases (FieldTree.mem_listing_iff hd).1 hmem with ⟨path, entry, hentry, rfl⟩
    cases hfails with
    | transform hleaf hshape =>
        rw [FieldTree.Entry.eq_leaf_of_not_branch hleaf] at hentry
        exact .inl ⟨rfl, hshape, path, hentry⟩
    | label hleaf hlabel hplain =>
        rw [FieldTree.Entry.eq_leaf_of_not_branch hleaf] at hentry
        rcases Value.exists_label_not_plain_iff.1 ⟨_, hlabel, hplain⟩ with
          ⟨fields, label, htransform, hlookup, htruthy, hplain⟩
        have hfields : fields ≠ [] := by
          rintro rfl
          cases hlookup
        rw [Options.transform_eq_given hparsed, Value.orElse_eq_object_iff hfields] at htransform
        exact .inr (.label hentry htransform hlookup htruthy hplain)
  · rintro (⟨rfl, hshape, path, hleaf⟩ | hlabel)
    · have hitem := (FieldTree.mem_listing_iff hd).2 ⟨path, .leaf, hleaf, rfl⟩
      exact ⟨_, hitem, .transform rfl hshape⟩
    · cases hlabel with
      | @label path fields label hleaf hgiven hlookup htruthy hplain =>
          have hitem := (FieldTree.mem_listing_iff hd).2 ⟨path, .leaf, hleaf, rfl⟩
          have htransform : parsed.transform = .object fields := by
            rw [Options.transform_eq_given hparsed, hgiven, Value.orElse_of_truthy]
            cases fields with
            | nil => cases hlookup
            | cons field fields => rfl
          rcases Value.exists_label_not_plain_iff.2
            ⟨fields, label, htransform, hlookup, htruthy, hplain⟩ with ⟨_, hasked, hrefused⟩
          exact ⟨_, hitem, .label rfl hasked hrefused⟩

end Lookahead
