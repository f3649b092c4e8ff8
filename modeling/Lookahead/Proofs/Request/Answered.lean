import Lookahead.Proofs.Request.Labels
import Lookahead.Proofs.Walk.Nesting
import Lookahead.Request.Session

/-!
# Request.Answered — when a request has an answer

Where each option has its type, nothing can go wrong but the walk: the tree of a request is the
walk's, up to the choice of a branch, and the other views are made of the tree.

* `Options.Accepted` — options whose values have their types, or no options at all;
* `Run.Follows` — a run that ends as something before it ended;
* `Query.follows_requestedTree` — every view ends as the tree of the request does;
* `answered_iff_faultless` — a request has an answer unless its walk comes to a faulty selection, or
  is nested too deep.

A query that nobody validated may hold a faulty selection, and no request that comes to it has an
answer. Only the nodes of the field being resolved may lack a name; they are passed over.
-/

namespace Lookahead

/-! ## Options of the right types -/

namespace Value

def IsText (value : Value) : Prop :=
  ∃ text, value = .text text

def IsTruth (value : Value) : Prop :=
  ∃ truth, value = .bool truth

/-- A list of texts. -/
def IsTexts (value : Value) : Prop :=
  ∃ texts : List String, value = .array (texts.map .text)

/-- A record of texts. -/
def IsRenaming (value : Value) : Prop :=
  ∃ names : List (String × String),
    value = .object (names.map fun entry => (entry.1, .text entry.2))

theorem isRenaming_nil : IsRenaming (.object []) :=
  ⟨[], rfl⟩

theorem isTexts_nil : IsTexts (.array []) :=
  ⟨[], rfl⟩

/-- What is there instead of an absent value has the shape of the value. -/
theorem shape_orElse {shape : Value → Prop} {value fallback : Value}
    (h : value = .null ∨ shape value) (hfallback : shape fallback) :
    shape (value.orElse fallback) := by
  by_cases htruthy : value.truthy = true
  · rw [orElse_of_truthy htruthy]
    rcases h with rfl | hshape
    · cases htruthy
    · exact hshape
  · rw [orElse_of_not_truthy (by simpa using htruthy)]
    exact hfallback

/-- Under a record of texts every label is a text. -/
theorem IsRenaming.label {transform : Value} (h : transform.IsRenaming) (name : String) :
    ∃ text, transform.label name = .ok (.text text) := by
  rcases h with ⟨names, rfl⟩
  exact ⟨newName names name, label_ofNames names name⟩

end Value

namespace Options

/-- What a record holds under a key has a shape, if it holds anything there. -/
def Typed (fields : List (String × Value)) (key : String) (shape : Value → Prop) : Prop :=
  ∀ value, Value.lookup key fields = some value → value = .null ∨ shape value

/-- Each option that a record sets has its type. Options without a meaning may be anything. -/
structure WellTyped (fields : List (String × Value)) : Prop where
  path : Typed fields pathKey Value.IsText
  transform : Typed fields transformKey Value.IsRenaming
  withDirectives : Typed fields withDirectivesKey Value.IsTruth
  skip : Typed fields skipKey Value.IsTexts
  keepParentField : Typed fields keepParentFieldKey Value.IsTruth

/-- Options that a caller may hand over. -/
inductive Accepted : Value → Prop
  | absent : Accepted .null
  | record {fields : List (String × Value)} (h : WellTyped fields) : Accepted (.object fields)

/-- Options, once read, that make sense wherever they are used. -/
structure Sound (options : Options) : Prop where
  path : options.path = .null ∨ options.path.IsText
  transform : options.transform.IsRenaming
  skip : options.skip.IsTexts

variable {fields : List (String × Value)} {options : Value} {parsed : Options}

theorem Typed.getD {key : String} {shape : Value → Prop} (h : Typed fields key shape) :
    (Value.lookup key fields).getD .null = .null ∨
      shape ((Value.lookup key fields).getD .null) := by
  cases hlookup : Value.lookup key fields with
  | none => exact .inl rfl
  | some value => exact h value hlookup

theorem WellTyped.sound (h : WellTyped fields) : (ofFields fields).Sound where
  path := h.path.getD
  transform := Value.shape_orElse h.transform.getD Value.isRenaming_nil
  skip := Value.shape_orElse h.skip.getD Value.isTexts_nil

theorem wellTyped_nil : WellTyped [] := by
  constructor <;> intro value hlookup <;> cases hlookup

/-- Accepted options are read as a record whose options have their types. -/
theorem Accepted.exists_fields (h : Accepted options) :
    ∃ fields, ofValue options = .ok (ofFields fields) ∧ WellTyped fields := by
  cases h with
  | absent =>
      exact ⟨[], rfl, wellTyped_nil⟩
  | @record fields h =>
      cases fields with
      | nil => exact ⟨[], rfl, wellTyped_nil⟩
      | cons field fields => exact ⟨field :: fields, rfl, h⟩

theorem Accepted.exists_parsed (h : Accepted options) :
    ∃ parsed, ofValue options = .ok parsed := by
  rcases h.exists_fields with ⟨fields, hread, -⟩
  exact ⟨_, hread⟩

theorem Accepted.sound (h : Accepted options) (hparsed : ofValue options = .ok parsed) :
    parsed.Sound := by
  rcases h.exists_fields with ⟨fields, hread, hwellTyped⟩
  have hsame := hparsed.symm.trans hread
  cases hsame
  exact hwellTyped.sound

theorem Sound.exists_patterns (h : parsed.Sound) :
    ∃ patterns, Pattern.ofValue parsed.skip = .ok patterns := by
  rcases h.skip with ⟨patterns, hskip⟩
  exact ⟨patterns, by rw [hskip]; exact Pattern.ofItems_texts patterns⟩

/-- A path that makes sense leads to a branch of every tree, the empty one at worst. -/
theorem Sound.exists_branch (h : parsed.Sound) (tree : FieldTree) :
    ∃ branch, tree.branchAt parsed.path = .ok branch := by
  unfold FieldTree.branchAt
  rcases h.path with hnull | ⟨path, htext⟩
  · exact ⟨tree, by rw [hnull]; rfl⟩
  · rw [htext]
    split
    · exact ⟨tree.subtree path, rfl⟩
    · exact ⟨tree, rfl⟩

theorem Sound.exists_labels (h : parsed.Sound) (names : List String) :
    ∃ labels, names.mapM parsed.transform.label = .ok labels := by
  induction names with
  | nil =>
      exact ⟨[], rfl⟩
  | cons name names ih =>
      rcases h.transform.label name with ⟨text, htext⟩
      rcases ih with ⟨labels, hlabels⟩
      exact ⟨.text text :: labels, by rw [List.mapM_cons, htext, hlabels]; rfl⟩

theorem Sound.exists_add (h : parsed.Sound) (labels : List Value) (item : FieldTree.Item) :
    ∃ more, Projection.add parsed labels item = .ok more := by
  unfold Projection.add
  split
  · exact ⟨_, rfl⟩
  · rcases h.transform.label item.path with ⟨text, htext⟩
    exact ⟨_, by rw [htext]; rfl⟩

theorem Sound.exists_projection (h : parsed.Sound) (items : List FieldTree.Item)
    (labels : List Value) : ∃ more, items.foldlM (Projection.add parsed) labels = .ok more := by
  induction items generalizing labels with
  | nil =>
      exact ⟨labels, rfl⟩
  | cons item items ih =>
      rcases h.exists_add labels item with ⟨next, hnext⟩
      rcases ih next with ⟨more, hmore⟩
      exact ⟨more, by rw [List.foldlM_cons, hnext]; exact hmore⟩

end Options

/-! ## Runs that follow one another -/

namespace Run

variable {α β γ : Type} {base : Except Failure α} {x : Run β}

/-- A run that has an answer whenever `base` has one, and otherwise fails as `base` did. -/
def Follows (x : Run β) (base : Except Failure α) : Prop :=
  ∃ present : α → β, x.outcome = base.map present

theorem follows_outcome (x : Run β) : x.Follows x.outcome :=
  ⟨id, by cases x.outcome <;> rfl⟩

/-- What always goes on after `x` still follows what `x` followed. -/
theorem Follows.bind (h : x.Follows base) {f : β → Run γ}
    (htotal : ∀ b, ∃ c, (f b).outcome = .ok c) : (x >>= f).Follows base := by
  rcases h with ⟨present, hpresent⟩
  rcases Classical.skolem.1 htotal with ⟨next, hnext⟩
  refine ⟨fun a => next (present a), ?_⟩
  cases base with
  | ok a => rw [outcome_bind_of_ok hpresent, hnext]; rfl
  | error failure => rw [bind_of_error hpresent]; rfl

/-- What has an answer anyway may come before. -/
theorem Follows.after {b : β} (hx : x.outcome = .ok b) {f : β → Run γ}
    (h : (f b).Follows base) : (x >>= f).Follows base := by
  rcases h with ⟨present, hpresent⟩
  exact ⟨present, by rw [outcome_bind_of_ok hx, hpresent]⟩

theorem Follows.map (h : x.Follows base) (f : β → γ) : (f <$> x).Follows base := by
  rw [map_eq_pure_bind]
  exact h.bind fun b => ⟨f b, rfl⟩

theorem Follows.isOk_iff (h : x.Follows base) :
    (∃ b, x.outcome = .ok b) ↔ ∃ a, base = .ok a := by
  rcases h with ⟨present, hpresent⟩
  cases base with
  | ok a =>
      exact ⟨fun _ => ⟨a, rfl⟩, fun _ => ⟨present a, hpresent⟩⟩
  | error failure =>
      constructor
      · rintro ⟨b, hb⟩
        have hcontra := hpresent.symm.trans hb
        cases hcontra
      · rintro ⟨a, ha⟩
        cases ha

theorem Follows.error_of_error (h : x.Follows base) {failure : Failure}
    (herror : x.outcome = .error failure) : base = .error failure := by
  rcases h with ⟨present, hpresent⟩
  have hsame := hpresent.symm.trans herror
  cases base with
  | ok a => cases hsame
  | error cause =>
      cases hsame
      rfl

end Run

/-! ## The tree and the views of a request -/

namespace ResolverInfo

variable {settings : Settings} {info : ResolverInfo} {options : Value} {parsed : Options}
  {patterns : List String}

/-- The tree of a request ends as its walk does. -/
theorem requestedTree_follows (hnodes : info.resolvedNodes ≠ []) (hsound : parsed.Sound)
    (hparsed : Options.ofValue options = .ok parsed)
    (hpatterns : Pattern.ofValue parsed.skip = .ok patterns) :
    (info.requestedTree settings options).Follows
      (collect (info.contextOf settings parsed) settings.nestingLimit
        (.within (Pattern.scope patterns)) (selectionsBelow info.resolvedNodes)).outcome := by
  rcases Classical.skolem.1 hsound.exists_branch with ⟨branch, hbranch⟩
  refine ⟨branch, ?_⟩
  rw [outcome_requestedTree hnodes hparsed hpatterns]
  cases (collect (info.contextOf settings parsed) settings.nestingLimit
    (.within (Pattern.scope patterns)) (selectionsBelow info.resolvedNodes)).outcome with
  | ok tree => exact hbranch tree
  | error failure => rfl

theorem requestedNames_follows (h : Options.Accepted options) :
    (info.requestedNames settings options).Follows
      (info.requestedTree settings options).outcome := by
  rcases h.exists_parsed with ⟨parsed, hparsed⟩
  have hsound := h.sound hparsed
  unfold requestedNames
  refine Run.Follows.after (b := parsed) hparsed ?_
  exact (Run.follows_outcome _).bind fun tree => hsound.exists_labels tree.names

theorem projection_follows (h : Options.Accepted options) :
    (info.projection settings options).Follows (info.requestedTree settings options).outcome := by
  rcases h.exists_parsed with ⟨parsed, hparsed⟩
  have hsound := h.sound hparsed
  unfold projection
  refine Run.Follows.after (b := parsed) hparsed ?_
  exact (Run.follows_outcome _).bind fun tree => hsound.exists_projection tree.listing []

end ResolverInfo

namespace Query

variable {settings : Settings} {info : ResolverInfo} {query : Query}

/-- The options of a question. -/
def options : Query → Value
  | tree options => options
  | names options => options
  | projection options => options
  | paths => ResolverInfo.everyPath

/-- Under accepted options every view has an answer if the tree of the request is there, and
otherwise fails as the tree does. -/
theorem answer_follows (h : Options.Accepted query.options) :
    (query.answer settings info).Follows
      (info.requestedTree settings query.options).outcome := by
  cases query with
  | tree options =>
      exact (Run.follows_outcome _).map Answer.tree
  | names options =>
      exact (ResolverInfo.requestedNames_follows h).map Answer.names
  | projection options =>
      exact (ResolverInfo.projection_follows h).map Answer.projection
  | paths =>
      have hpaths : (info.requestedPaths settings).Follows
          (info.requestedTree settings ResolverInfo.everyPath).outcome :=
        (ResolverInfo.projection_follows h).bind fun labels => ⟨_, rfl⟩
      exact hpaths.map Answer.paths

variable {parsed : Options} {patterns : List String}

/-- A request has an answer if there is nothing to walk or the walk has no fault. -/
theorem answer_isOk_iff (h : Options.Accepted query.options)
    (hparsed : Options.ofValue query.options = .ok parsed)
    (hpatterns : Pattern.ofValue parsed.skip = .ok patterns) :
    (∃ answer, (query.answer settings info).outcome = .ok answer) ↔
      info.resolvedNodes = [] ∨
        Faultless (info.contextOf settings parsed) settings.nestingLimit
          (.within (Pattern.scope patterns)) (selectionsBelow info.resolvedNodes) := by
  have hview : (query.answer settings info).Follows _ := answer_follows h
  by_cases hnodes : info.resolvedNodes = []
  · have htree : (info.requestedTree settings query.options).outcome = .ok .nil :=
      ResolverInfo.outcome_requestedTree_of_no_node hnodes
    exact ⟨fun _ => .inl hnodes, fun _ => hview.isOk_iff.2 ⟨.nil, htree⟩⟩
  · have htree : (info.requestedTree settings query.options).Follows _ :=
      ResolverInfo.requestedTree_follows hnodes (h.sound hparsed) hparsed hpatterns
    have hwalk := hview.isOk_iff.trans (htree.isOk_iff.trans collect_isOk_iff_faultless)
    constructor
    · intro hanswer
      exact .inr (hwalk.1 hanswer)
    · rintro (hnone | hfaultless)
      · exact absurd hnone hnodes
      · exact hwalk.2 hfaultless

/-- A request without an answer had something to walk through, and its walk failed. -/
theorem collect_error_of_answer (h : Options.Accepted query.options)
    (hparsed : Options.ofValue query.options = .ok parsed)
    (hpatterns : Pattern.ofValue parsed.skip = .ok patterns) {failure : Failure}
    (herror : (query.answer settings info).outcome = .error failure) :
    (collect (info.contextOf settings parsed) settings.nestingLimit
      (.within (Pattern.scope patterns)) (selectionsBelow info.resolvedNodes)).outcome =
        .error failure := by
  have hview : (query.answer settings info).Follows _ := answer_follows h
  have htreeError := hview.error_of_error herror
  by_cases hnodes : info.resolvedNodes = []
  · -- without a node there is a tree, so nothing failed
    rw [ResolverInfo.outcome_requestedTree_of_no_node hnodes] at htreeError
    cases htreeError
  · have htree : (info.requestedTree settings query.options).Follows _ :=
      ResolverInfo.requestedTree_follows hnodes (h.sound hparsed) hparsed hpatterns
    exact htree.error_of_error htreeError

/-- A request without an answer has met a fault, or the limit. -/
theorem exists_fault_of_answer (h : Options.Accepted query.options)
    (hparsed : Options.ofValue query.options = .ok parsed)
    (hpatterns : Pattern.ofValue parsed.skip = .ok patterns) {failure : Failure}
    (herror : (query.answer settings info).outcome = .error failure) :
    failure = .nestingExceeded ∨
      ∃ level inner below, Nested (info.contextOf settings parsed) level
        (.within (Pattern.scope patterns)) (selectionsBelow info.resolvedNodes) inner below ∧
        ∃ selection ∈ below,
          selection.fault? (info.contextOf settings parsed) = some failure := by
  have hwalkError := collect_error_of_answer h hparsed hpatterns herror
  rcases exists_fault_of_collect hwalkError with ⟨level, inner, below, hnested, hcause⟩
  rcases hcause with ⟨-, hexceeded⟩ | ⟨-, hfault⟩
  · exact .inl hexceeded
  · exact .inr ⟨level, inner, below, hnested, hfault⟩

end Query

/-- Under accepted options a request has an answer exactly if there is nothing to walk or its walk
stays within the limit and comes to no faulty selection. Any failure is the fault of a selection
that the walk comes to, or the limit was met. -/
theorem answered_iff_faultless (settings : Settings) (info : ResolverInfo) {query : Query}
    (h : Options.Accepted query.options) :
    ∃ parsed patterns, Options.ofValue query.options = .ok parsed ∧
      Pattern.ofValue parsed.skip = .ok patterns ∧
      ((∃ answer, (query.answer settings info).outcome = .ok answer) ↔
        info.resolvedNodes = [] ∨
          Faultless (info.contextOf settings parsed) settings.nestingLimit
            (.within (Pattern.scope patterns)) (selectionsBelow info.resolvedNodes)) ∧
      ∀ failure, (query.answer settings info).outcome = .error failure →
        failure = .nestingExceeded ∨
          ∃ level inner below, Nested (info.contextOf settings parsed) level
            (.within (Pattern.scope patterns)) (selectionsBelow info.resolvedNodes) inner below ∧
            ∃ selection ∈ below,
              selection.fault? (info.contextOf settings parsed) = some failure := by
  rcases h.exists_parsed with ⟨parsed, hparsed⟩
  rcases (h.sound hparsed).exists_patterns with ⟨patterns, hpatterns⟩
  refine ⟨parsed, patterns, hparsed, hpatterns, Query.answer_isOk_iff h hparsed hpatterns, ?_⟩
  intro failure herror
  exact Query.exists_fault_of_answer h hparsed hpatterns herror

/-! ### A field without a name -/

/-- The query `{ root { … } }`, where the one field below `root` has no name. -/
def namelessInfo : ResolverInfo where
  fieldName := .text "root"
  fieldNodes := .listed
    [.field (some "root") .missing (.listed [.field none .missing .missing])]
  legacyNodes := .missing
  fragments := .malformed .null
  variableValues := .null

theorem outcome_tree_namelessInfo :
    ((Query.tree .null).answer {} namelessInfo).outcome = .error .namelessSelection := rfl

/-- There is no tree, since the walk comes to a field without a name. -/
theorem sample_faulty_walk :
    Options.Accepted (Query.tree .null).options ∧
      ∃ parsed patterns, Options.ofValue .null = .ok parsed ∧
        Pattern.ofValue parsed.skip = .ok patterns ∧
        ¬ Faultless (namelessInfo.contextOf {} parsed) 400 (.within (Pattern.scope patterns))
          (selectionsBelow namelessInfo.resolvedNodes) := by
  have haccepted : Options.Accepted (Query.tree .null).options := .absent
  refine ⟨haccepted, ?_⟩
  rcases answered_iff_faultless {} namelessInfo haccepted with
    ⟨parsed, patterns, hparsed, hpatterns, hanswered, -⟩
  refine ⟨parsed, patterns, hparsed, hpatterns, ?_⟩
  intro hfaultless
  rcases hanswered.2 (.inr hfaultless) with ⟨answer, hanswer⟩
  rw [outcome_tree_namelessInfo] at hanswer
  cases hanswer

/-- Without validation even a request with accepted options may fail for another reason than
endless nesting. -/
theorem unvalidated_request_may_fail :
    ¬ ∀ (settings : Settings) (info : ResolverInfo) (query : Query) (failure : Failure),
        Options.Accepted query.options →
        (query.answer settings info).outcome = .error failure →
        failure = .nestingExceeded := by
  intro hclaim
  have hexceeded := hclaim {} namelessInfo (.tree .null) _ .absent outcome_tree_namelessInfo
  cases hexceeded

end Lookahead
