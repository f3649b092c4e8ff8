import Lookahead.Proofs.Request.Answered
import Lookahead.Proofs.Text.Expressions
import Lookahead.Proofs.Walk.Expiry
import Lookahead.Proofs.Walk.Undefined

/-!
# Request.Warnings — what a malformed limit on time comes to

A setting of the time limit that is no numeral is as good as none, since the limit is two seconds in
both cases. It is read for each match that is tried, though, and each time it is reported. So
requests under the two settings have the same answer or fail in the same way, and their notices are
those of one and the same sequence of events: what an event reports without a setting it reports in
any case, and under the malformed one a warning stands before each match that is tried.

* `Context.outcome_collect_withTimeout`, `Context.events_withTimeout` — walks whose searches end
  alike;
* `Query.opening`, `Query.events` — what a request reports before its walk, and what happens in it;
* `malformed_timeout_only_warns` — a request under both settings.
-/

namespace Lookahead

/-! ## Walks whose searches end alike -/

section Limits

variable {context : Context} {timeout : Timeout} {rule : Rule}
  {walk other : Rule → List Selection → Run FieldTree}

theorem Timeout.finds_congr {timeout other : Timeout} (h : timeout.search = other.search) :
    timeout.finds = other.finds := by
  funext name pattern
  simp only [finds, h]

theorem Rule.verdict_congr {timeout other : Timeout} (h : timeout.search = other.search)
    (name : String) (rule : Rule) : rule.verdict timeout name = rule.verdict other name := by
  simp only [verdict, Timeout.finds_congr h]

theorem Rule.tried_congr {timeout other : Timeout} (h : timeout.search = other.search)
    (name : String) (rule : Rule) : rule.tried timeout name = rule.tried other name := by
  cases rule with
  | within scope => simp only [tried, Timeout.finds_congr h]
  | _ => rfl

/-- The keys with stars are tried up to the first that is found in the name and excludes, and that
one too, unless the name is a key itself. -/
theorem Rule.tried_within_eq_take (timeout : Timeout) (name : String) (scope : Scope) :
    (within scope).tried timeout name =
      if (scope.find? name).isSome then []
      else
        ((Scope.starred scope.entries).take ((Scope.starred scope.entries).findIdx (fun entry =>
          timeout.finds name entry.1 && entry.2 = .exclude) + 1)).map Prod.fst := by
  simp only [tried, Scope.tried_eq_take]

/-- A selection adds the same tree, or fails in the same way, if the walks below it do so. -/
theorem Selection.outcome_contribution_withTimeout
    (h : timeout.search = context.timeout.search)
    (hwalk : ∀ rule below, (other rule below).outcome = (walk rule below).outcome)
    (selection : Selection) :
    (selection.contribution (context.withTimeout timeout) other rule).outcome =
      (selection.contribution context walk rule).outcome := by
  have hverdict : ∀ name, rule.verdict (context.withTimeout timeout).timeout name =
      rule.verdict context.timeout name := fun name => Rule.verdict_congr h name rule
  apply outcome_contribution_congr
  · rfl
  · rfl
  · intro name
    rw [hverdict]
  · intro name below
    rw [hverdict]
    exact hwalk _ below
  · intro below
    exact hwalk rule below

theorem Context.outcome_collect_withTimeout (h : timeout.search = context.timeout.search)
    (limit : Nat) (rule : Rule) (selections : List Selection) :
    (collect (context.withTimeout timeout) limit rule selections).outcome =
      (collect context limit rule selections).outcome := by
  induction limit generalizing rule selections with
  | zero =>
      rfl
  | succ limit ih =>
      simp only [collect_succ]
      apply FieldTree.outcome_gather_congr
      exact Selection.outcome_contribution_withTimeout h ih

/-- The same happens along a list if its members end alike and the same happens in them. -/
theorem Event.along_congr {α : Type} {contribute changed : α → Run FieldTree}
    {happens occurs : α → List Event}
    (houtcome : ∀ item, (changed item).outcome = (contribute item).outcome)
    (hevents : ∀ item, occurs item = happens item) (items : List α) :
    along changed occurs items = along contribute happens items := by
  induction items with
  | nil =>
      rfl
  | cons item items ih =>
      simp only [along, houtcome, hevents, ih]

theorem Selection.events_withTimeout (h : timeout.search = context.timeout.search)
    {inside happens : Rule → List Selection → List Event}
    (hinside : ∀ rule below, happens rule below = inside rule below) (selection : Selection) :
    selection.events (context.withTimeout timeout) happens rule =
      selection.events context inside rule := by
  have hverdict : ∀ name, rule.verdict (context.withTimeout timeout).timeout name =
      rule.verdict context.timeout name := fun name => Rule.verdict_congr h name rule
  have htried : ∀ name, rule.tried (context.withTimeout timeout).timeout name =
      rule.tried context.timeout name := fun name => Rule.tried_congr h name rule
  simp only [Selection.events, hverdict, htried, hinside]
  rfl

/-- The same happens with both. -/
theorem Context.events_withTimeout (h : timeout.search = context.timeout.search) (limit : Nat)
    (rule : Rule) (selections : List Selection) :
    events (context.withTimeout timeout) limit rule selections =
      events context limit rule selections := by
  induction limit generalizing rule selections with
  | zero =>
      rfl
  | succ limit ih =>
      refine Event.along_congr ?_ ?_ selections
      · intro selection
        exact selection.outcome_contribution_withTimeout h
          (Context.outcome_collect_withTimeout h limit)
      · intro selection
        exact selection.events_withTimeout h ih

end Limits

/-! ## Requests whose searches end alike -/

namespace Run

variable {α β : Type} {x y : Run α}

/-- A calculation that may fail has nothing to report. -/
@[simp]
theorem notices_bind_ofExcept (x : Run α) (f : α → Except Failure β) :
    (x >>= fun a => ofExcept (f a)).notices = x.notices := by
  rw [notices_bind]
  cases x.outcome <;> simp

/-- What is made of runs that end in the same way ends in the same way. -/
theorem outcome_map_congr (h : x.outcome = y.outcome) (f : α → β) :
    (f <$> x).outcome = (f <$> y).outcome := by
  simp only [map_eq_pure_bind, outcome_bind, h]

end Run

namespace ResolverInfo

variable {settings other : Settings} {info : ResolverInfo} {options : Value}

/-- What happens in the walk of a request, if it comes to a walk. -/
def events (settings : Settings) (info : ResolverInfo) (options : Value) : List Event :=
  if info.resolvedNodes.isEmpty then []
  else
    match Options.ofValue options with
    | .error _ => []
    | .ok parsed =>
        match Pattern.ofValue parsed.skip with
        | .error _ => []
        | .ok patterns =>
            Lookahead.events (info.contextOf settings parsed) settings.nestingLimit
              (.within (Pattern.scope patterns)) (selectionsBelow info.resolvedNodes)

/-- In their contexts two settings differ in the limit on time only. -/
theorem contextOf_eq_withTimeout (settings other : Settings) (info : ResolverInfo)
    (parsed : Options) : info.contextOf settings parsed =
      (info.contextOf other parsed).withTimeout settings.timeout := rfl

theorem outcome_requestedTree_congr (hlimit : settings.nestingLimit = other.nestingLimit)
    (hsearch : settings.timeout.search = other.timeout.search) :
    (info.requestedTree settings options).outcome = (info.requestedTree other options).outcome := by
  by_cases hnodes : info.resolvedNodes = []
  · simp only [outcome_requestedTree_of_no_node hnodes]
  · -- the context of the walk is the only place where the limit on time is looked at
    have hwalk : ∀ parsed rule,
        (collect (info.contextOf settings parsed)
          settings.nestingLimit rule (selectionsBelow info.resolvedNodes)).outcome =
        (collect (info.contextOf other parsed)
          other.nestingLimit rule (selectionsBelow info.resolvedNodes)).outcome := by
      intro parsed rule
      rw [contextOf_eq_withTimeout settings other, hlimit]
      exact Context.outcome_collect_withTimeout hsearch other.nestingLimit rule _
    simp only [outcome_requestedTree_step_by_step hnodes, hwalk]

theorem events_of_unread {failure : Failure} (h : Options.ofValue options = .error failure) :
    info.events settings options = [] := by
  simp [events, h]

theorem events_of_read {parsed : Options} {patterns : List String}
    (hnodes : info.resolvedNodes ≠ []) (hparsed : Options.ofValue options = .ok parsed)
    (hpatterns : Pattern.ofValue parsed.skip = .ok patterns) :
    info.events settings options =
      Lookahead.events (info.contextOf settings parsed) settings.nestingLimit
        (.within (Pattern.scope patterns)) (selectionsBelow info.resolvedNodes) := by
  have hwalks : info.resolvedNodes.isEmpty = false := by simpa using hnodes
  simp only [events, hwalks, hparsed, hpatterns, Bool.false_eq_true, if_false]

theorem events_congr (hlimit : settings.nestingLimit = other.nestingLimit)
    (hsearch : settings.timeout.search = other.timeout.search) :
    info.events settings options = info.events other options := by
  have hwalk : ∀ parsed rule,
      Lookahead.events (info.contextOf settings parsed) settings.nestingLimit rule
          (selectionsBelow info.resolvedNodes) =
        Lookahead.events (info.contextOf other parsed) other.nestingLimit rule
          (selectionsBelow info.resolvedNodes) := by
    intro parsed rule
    rw [contextOf_eq_withTimeout settings other, hlimit]
    exact Context.events_withTimeout hsearch other.nestingLimit rule _
  simp only [events, hwalk]

/-- A request reports what it has to say before its walk, and then what happens in the walk. -/
theorem notices_requestedTree :
    (info.requestedTree settings options).notices =
      info.notices ++
        (info.events settings options).flatMap (Event.notices settings.timeout) := by
  by_cases hnodes : info.resolvedNodes = []
  · simp [requestedTree, events, hnodes]
  · have hwalks : info.resolvedNodes.isEmpty = false := by simpa using hnodes
    cases hparsed : Options.ofValue options with
    | error failure =>
        simp [requestedTree, events, hwalks, hparsed, Run.notices_bind]
    | ok parsed =>
        cases hpatterns : Pattern.ofValue parsed.skip with
        | error failure =>
            simp [requestedTree, events, hwalks, hparsed, hpatterns, Run.notices_bind]
        | ok patterns =>
            have hnotices : (collectNodes (info.contextOf settings parsed) settings.nestingLimit
                (.within (Pattern.scope patterns)) info.resolvedNodes).notices =
                (info.events settings options).flatMap (Event.notices settings.timeout) := by
              rw [collectNodes_eq_collect _ _ _ hnodes, notices_collect,
                events_of_read hnodes hparsed hpatterns]
              rfl
            rw [requestedTree, Run.notices_bind_of_ok rfl, if_neg (by simpa using hnodes),
              Run.notices_bind_of_ok hparsed, Run.notices_bind_of_ok hpatterns,
              Run.notices_bind_ofExcept, ← hnotices]
            rfl

/-- A view that is made of the tree reports what the tree does, if it can read the options. -/
theorem notices_view {α : Type} (labels : Options → FieldTree → Except Failure α) :
    (do
      let parsed ← Run.ofExcept (Options.ofValue options)
      let tree ← info.requestedTree settings options
      Run.ofExcept (labels parsed tree) : Run α).notices =
        (match Options.ofValue options with
          | .ok _ => info.notices
          | .error _ => []) ++
          (info.events settings options).flatMap (Event.notices settings.timeout) := by
  cases hparsed : Options.ofValue options with
  | error failure =>
      simp only [events_of_unread hparsed, List.flatMap_nil, List.append_nil]
      rfl
  | ok parsed =>
      rw [Run.notices_bind_of_ok rfl, Run.notices_bind_ofExcept]
      exact notices_requestedTree

end ResolverInfo

namespace Query

variable {settings other : Settings} {info : ResolverInfo} {query : Query}

/-- What a request reports before its walk. A view other than the tree does not get to that if it
cannot read its options. -/
def opening (info : ResolverInfo) : Query → List Notice
  | tree _ => info.notices
  | query =>
      match Options.ofValue query.options with
      | .ok _ => info.notices
      | .error _ => []

/-- What happens in the walk of a request. -/
def events (settings : Settings) (info : ResolverInfo) (query : Query) : List Event :=
  info.events settings query.options

theorem outcome_answer_congr (hlimit : settings.nestingLimit = other.nestingLimit)
    (hsearch : settings.timeout.search = other.timeout.search) :
    (query.answer settings info).outcome = (query.answer other info).outcome := by
  have htree : ∀ options : Value,
      (info.requestedTree settings options).outcome =
        (info.requestedTree other options).outcome :=
    fun _ => ResolverInfo.outcome_requestedTree_congr hlimit hsearch
  have hprojection : ∀ options : Value,
      (info.projection settings options).outcome = (info.projection other options).outcome := by
    intro options
    simp only [ResolverInfo.projection, Run.outcome_bind, htree]
  cases query with
  | tree options =>
      exact Run.outcome_map_congr (htree options) _
  | names options =>
      refine Run.outcome_map_congr ?_ _
      simp only [ResolverInfo.requestedNames, Run.outcome_bind, htree]
  | projection options =>
      exact Run.outcome_map_congr (hprojection options) _
  | paths =>
      refine Run.outcome_map_congr ?_ _
      simp only [ResolverInfo.requestedPaths, Run.outcome_bind, hprojection]

/-- A request reports what it has to say before its walk and what happens in the walk. -/
theorem notices_answer :
    (query.answer settings info).notices =
      query.opening info ++
        (query.events settings info).flatMap (Event.notices settings.timeout) := by
  cases query with
  | tree options =>
      rw [answer, Run.notices_map]
      exact ResolverInfo.notices_requestedTree
  | names options =>
      rw [answer, Run.notices_map]
      exact ResolverInfo.notices_view _
  | projection options =>
      rw [answer, Run.notices_map]
      exact ResolverInfo.notices_view _
  | paths =>
      simp only [answer, ResolverInfo.requestedPaths, bind_pure_comp, Run.notices_map]
      exact ResolverInfo.notices_view _

end Query

/-! ## A malformed setting -/

/-- The settings with another text for the limit on time. -/
def Settings.withMatchTimeout (settings : Settings) (setting : Option String) : Settings :=
  { settings with matchTimeout := setting }

namespace Event

/-- What a malformed setting adds to the reports of an event. -/
def warnings (setting : String) : Event → List Notice
  | attempt _ _ => [.unreadableTimeout setting]
  | undefinedFragment _ => []

theorem notices_unreadable (engine : Engine) (setting : String) (event : Event) :
    event.notices ⟨.unreadable setting, engine⟩ =
      event.warnings setting ++ event.notices ⟨.unset, engine⟩ := by
  cases event <;> rfl

/-- A match that is tried and ends in time has nothing to report without a setting. -/
theorem notices_unset_of_prompt {engine : Engine}
    (h : Timeout.Prompt ⟨.unset, engine⟩) (pattern name : String) :
    (attempt pattern name).notices ⟨.unset, engine⟩ = [] := by
  simp [notices, Timeout.attemptNotices, Timeout.notices, h name pattern]

end Event

/-- A request under a setting of the time limit that is neither empty nor a numeral has the same
answer as without a setting, or fails in the same way. Both report what there is to say before the
walk, and then the events of one and the same walk. Each event has the reports that it has without a
setting; with it, a warning stands before those of each match that is tried. If no match takes
longer than the limit, that warning is all there is to report of a match. Where the walk ends well
its events are those at its stops. On a name that is no key of the scope all keys with stars are
tried up to the first that matches and excludes, and that one too; on a key none is tried. -/
theorem malformed_timeout_only_warns {setting : String} (hset : setting ≠ "")
    (hmalformed : Numeral.ofString? setting = none) (settings : Settings) (info : ResolverInfo)
    (query : Query) :
    (query.answer (settings.withMatchTimeout (some setting)) info).outcome =
        (query.answer (settings.withMatchTimeout none) info).outcome ∧
      (query.answer (settings.withMatchTimeout none) info).notices =
        query.opening info ++ (query.events (settings.withMatchTimeout none) info).flatMap
          (Event.notices (settings.withMatchTimeout none).timeout) ∧
      (query.answer (settings.withMatchTimeout (some setting)) info).notices =
        query.opening info ++ (query.events (settings.withMatchTimeout none) info).flatMap
          (fun event => event.warnings setting ++
            event.notices (settings.withMatchTimeout none).timeout) ∧
      ((settings.withMatchTimeout none).timeout.Prompt → ∀ pattern name,
        (Event.attempt pattern name).notices (settings.withMatchTimeout none).timeout = []) ∧
      (∀ parsed patterns tree, info.resolvedNodes ≠ [] →
        Options.ofValue query.options = .ok parsed → Pattern.ofValue parsed.skip = .ok patterns →
        (collect (info.contextOf (settings.withMatchTimeout none) parsed) settings.nestingLimit
          (.within (Pattern.scope patterns)) (selectionsBelow info.resolvedNodes)).outcome =
            .ok tree →
        ∃ stops, InWalkOrder (info.contextOf (settings.withMatchTimeout none) parsed)
            (.within (Pattern.scope patterns)) (selectionsBelow info.resolvedNodes) stops ∧
          query.events (settings.withMatchTimeout none) info = stops.flatMap
            (Stop.events (info.contextOf (settings.withMatchTimeout none) parsed))) ∧
      ∀ (name : String) (scope : Scope),
        (Rule.within scope).tried (settings.withMatchTimeout none).timeout name =
          if (scope.find? name).isSome then []
          else
            ((Scope.starred scope.entries).take ((Scope.starred scope.entries).findIdx (fun entry =>
              (settings.withMatchTimeout none).timeout.finds name entry.1 &&
                entry.2 = .exclude) + 1)).map Prod.fst := by
  have hread : (settings.withMatchTimeout (some setting)).timeout =
      ⟨.unreadable setting, settings.engine⟩ := by
    simp [Settings.withMatchTimeout, Settings.timeout, Timeout.Setting.ofText, hset, hmalformed]
  -- both settings mean the same limit
  have hsearch : (settings.withMatchTimeout (some setting)).timeout.search =
      (settings.withMatchTimeout none).timeout.search := by
    rw [hread]
    rfl
  refine ⟨Query.outcome_answer_congr rfl hsearch, Query.notices_answer, ?_, ?_, ?_, ?_⟩
  · have hevents : query.events (settings.withMatchTimeout (some setting)) info =
        query.events (settings.withMatchTimeout none) info :=
      ResolverInfo.events_congr rfl hsearch
    have hnotices : Event.notices ⟨.unreadable setting, settings.engine⟩ = fun event =>
        event.warnings setting ++ event.notices (settings.withMatchTimeout none).timeout :=
      funext (Event.notices_unreadable settings.engine setting)
    rw [Query.notices_answer, hevents, hread, hnotices]
  · intro hprompt
    exact Event.notices_unset_of_prompt hprompt
  · intro parsed patterns tree hnodes hparsed hpatterns htree
    refine ⟨_, inWalkOrder_stops htree, ?_⟩
    rw [← events_eq_stops htree]
    exact ResolverInfo.events_of_read hnodes hparsed hpatterns
  · intro name scope
    exact Rule.tried_within_eq_take _ name scope

/-! ### A field with missing fragments below it -/

/-- The query `{ root { ...G, ...F, a { ...G, c } } }`, where `G` is not defined and `F` has a field
`d` and spreads `G`. -/
def gapInfo : ResolverInfo where
  fieldName := .text "root"
  fieldNodes := .listed [.field (some "root") .missing (.listed gapSelections)]
  legacyNodes := .missing
  fragments := gapContext.fragments
  variableValues := gapContext.variableValues

/-- The pattern `*d` is tried on `d` and on `a`, each time between two reports of the fragment. -/
theorem sample_malformed_timeout :
    ((Query.tree (ResolverInfo.skipping ["*d"])).answer
        (Settings.withMatchTimeout {} (some "fast")) gapInfo).outcome =
      ((Query.tree (ResolverInfo.skipping ["*d"])).answer
        (Settings.withMatchTimeout {} none) gapInfo).outcome ∧
      ((Query.tree (ResolverInfo.skipping ["*d"])).answer
          (Settings.withMatchTimeout {} none) gapInfo).notices =
        [.undefinedFragment "G", .undefinedFragment "G", .undefinedFragment "G"] ∧
      ((Query.tree (ResolverInfo.skipping ["*d"])).answer
          (Settings.withMatchTimeout {} (some "fast")) gapInfo).notices =
        [.undefinedFragment "G", .unreadableTimeout "fast", .undefinedFragment "G",
          .unreadableTimeout "fast", .undefinedFragment "G"] := by
  have hset : "fast" ≠ "" := by decide
  have hmalformed : Numeral.ofString? "fast" = none := by decide
  have hevents : (Query.tree (ResolverInfo.skipping ["*d"])).events
      (Settings.withMatchTimeout {} none) gapInfo =
        [.undefinedFragment "G", .attempt "*d" "d", .undefinedFragment "G", .attempt "*d" "a",
          .undefinedFragment "G"] := rfl
  rcases malformed_timeout_only_warns hset hmalformed {} gapInfo
    (.tree (ResolverInfo.skipping ["*d"])) with ⟨houtcome, hunset, hwarned, hquiet, -, -⟩
  have hnothing := hquiet Timeout.prompt_unset
  rw [hevents] at hunset hwarned
  refine ⟨houtcome, hunset.trans ?_, hwarned.trans ?_⟩
  · simp only [List.flatMap_cons, List.flatMap_nil, hnothing]
    rfl
  · simp only [List.flatMap_cons, List.flatMap_nil, hnothing]
    rfl

end Lookahead
