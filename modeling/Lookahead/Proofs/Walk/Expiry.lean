import Mathlib.Data.List.Basic
import Lookahead.Proofs.Exclusion.Expiry
import Lookahead.Proofs.FieldTree.Places
import Lookahead.Proofs.Walk.Agreement
import Lookahead.Proofs.Walk.Events
import Lookahead.Proofs.Walk.Prune

/-!
# Walk.Expiry — walks whose matches time out

A match that is found too late counts as none. So a walk in which all matches come too late goes by
the keys without stars alone, and since these come first in any case, it leaves out no field that a
walk with more time would keep. Nothing of this goes unnoticed: every match that times out is
reported as an error.

* `everywhere_collect` — the names of a walk's tree are names of fields it may come to;
* `collect_withTimeout` — without rules there is nothing that could time out;
* `FieldTree.prune_starless` — pruning when time is over goes by the keys without stars;
* `expired_walk_degrades_safely` — the tree and the errors of such a walk.
-/

namespace Lookahead

/-- The same context with another limit on the time of a match. -/
def Context.withTimeout (context : Context) (timeout : Timeout) : Context :=
  { context with timeout }

variable {context : Context} {limit : Nat} {rule inner : Rule} {selections below : List Selection}
  {tree : FieldTree} {timeout : Timeout}

/-! ## The names of a walk's tree -/

namespace FieldTree

variable {holds : String → Prop} {left right : FieldTree}

theorem Everywhere.erase (h : tree.Everywhere fun name _ => holds name) (name : String) :
    (tree.erase name).Everywhere fun name _ => holds name := by
  induction tree using consInduction with
  | nil =>
      trivial
  | cons first entry rest _ ih =>
      rcases everywhere_cons.1 h with ⟨hfirst, hbelow, hrest⟩
      rw [erase_cons]
      split
      · exact ih hrest
      · exact everywhere_cons.2 ⟨hfirst, hbelow, ih hrest⟩

/-- A union has no names but those of its sides. -/
theorem Everywhere.union (hl : left.Everywhere fun name _ => holds name)
    (hr : right.Everywhere fun name _ => holds name) :
    (left.union right).Everywhere fun name _ => holds name := by
  induction left using consInduction generalizing right with
  | nil =>
      simpa using hr
  | cons name entry rest ihbelow ih =>
      rcases everywhere_cons.1 hl with ⟨hname, hbelow, hrest⟩
      have hother : (childrenOf (right.find? name)).Everywhere fun name _ => holds name := by
        cases hfound : right.find? name with
        | none => trivial
        | some other => exact (hr.of_find? hfound).2
      have hmeet : childrenOf (some (entry.meet (right.find? name))) =
          (childrenOf (some entry)).union (childrenOf (right.find? name)) := by
        simpa only [joined_some] using childrenOf_joined (some entry) (right.find? name)
      rw [union_cons]
      refine everywhere_cons.2 ⟨hname, ?_, ih hrest (hr.erase name)⟩
      rw [hmeet]
      cases entry with
      | leaf => simpa [childrenOf] using hother
      | branch children => exact ihbelow children rfl hbelow hother

end FieldTree

/-- What holds of the names of all fields that selections contain, or lead to, holds of all names
in the tree of a walk through them. -/
theorem everywhere_collect {holds : String → Prop}
    (hnames : ∀ name directives selectionSet,
      Contained context.fragments selections (.field (some name) directives selectionSet) →
        holds name)
    (h : (collect context limit rule selections).outcome = .ok tree) :
    tree.Everywhere fun name _ => holds name := by
  refine collect_induction (motive := fun _ _ selections tree =>
    (∀ name directives selectionSet,
      Contained context.fragments selections (.field (some name) directives selectionSet) →
        holds name) → tree.Everywhere fun name _ => holds name) ?_ ?_ h hnames
  · intro _ _ _
    trivial
  · intro limit rule selection selections first others hcase hinside ih hnames
    have hrest : others.Everywhere fun name _ => holds name := by
      refine ih ?_
      intro name directives selectionSet hcontained
      apply hnames name directives selectionSet
      cases hcontained with
      | here hmem => exact .here (List.mem_cons_of_mem _ hmem)
      | deeper hmem hleads hinner => exact .deeper (List.mem_cons_of_mem _ hmem) hleads hinner
    -- below the selection there are no other fields than among the selections around it
    have hbelow : ∀ inner below found, selection.LeadsTo context.fragments below →
        (collect context limit inner below).outcome = .ok found →
          found.Everywhere fun name _ => holds name := by
      intro inner below found hleads hfound
      refine hinside inner below found hfound ?_
      intro name directives selectionSet hcontained
      exact hnames name directives selectionSet (.deeper List.mem_cons_self hleads hcontained)
    refine FieldTree.Everywhere.union ?_ hrest
    cases hcase with
    | leaf _ _ _ => exact ⟨hnames _ _ _ (.here List.mem_cons_self), trivial⟩
    | branch _ _ _ hwalk =>
        exact ⟨hnames _ _ _ (.here List.mem_cons_self), hbelow _ _ _ .field hwalk, trivial⟩
    | inlineFragment _ hwalk => exact hbelow _ _ _ .inlineFragment hwalk
    | spread _ hdefined hwalk => exact hbelow _ _ _ (.spread hdefined) hwalk
    | _ => trivial

/-! ## Walks without rules -/

/-- A walk without rules tries no match, so the limit on time does not matter to it. -/
theorem collect_withTimeout (context : Context) (timeout : Timeout) (limit : Nat)
    (selections : List Selection) :
    collect (context.withTimeout timeout) limit .keep selections =
      collect context limit .keep selections := by
  induction limit generalizing selections with
  | zero =>
      rfl
  | succ limit ih =>
      simp only [collect_succ]
      apply FieldTree.gather_congr
      intro selection _
      have hlimit : selection.contribution (context.withTimeout timeout)
            (collect (context.withTimeout timeout) limit) .keep =
          selection.contribution context (collect (context.withTimeout timeout) limit) .keep := by
        cases selection with
        | field name directives selectionSet => cases name <;> rfl
        | inlineFragment directives selectionSet => rfl
        | spread name directives => cases name <;> rfl
        | other directives selectionSet => rfl
        | value value => rfl
      rw [hlimit]
      apply Selection.contribution_congr_of_opens
      intro inner below hopens
      -- below a walk without rules there are only walks without rules
      have hkeep : inner = .keep := by
        cases hopens <;> rfl
      rw [hkeep]
      exact ih below

/-! ## Pruning when time is over -/

theorem FieldTree.prune_starless (hexpires : timeout.Expires) (other : Timeout)
    (hnames : tree.Everywhere fun name _ => Wildcard.isPattern name = false) (rule : Rule) :
    tree.prune other rule.starless = tree.prune timeout rule := by
  induction tree using consInduction generalizing rule with
  | nil =>
      rfl
  | cons name entry rest ihbelow ih =>
      rcases everywhere_cons.1 hnames with ⟨hname, hbelow, hrest⟩
      have hverdict : rule.starless.verdict other name = (rule.verdict timeout name).starless :=
        Rule.verdict_starless hexpires hname other rule
      have hentry : entry.prune other (rule.verdict timeout name).starless =
          entry.prune timeout (rule.verdict timeout name) := by
        cases entry with
        | leaf => rfl
        | branch children => exact congrArg Entry.branch (ihbelow children rfl hbelow _)
      simp only [prune_cons, hverdict, Rule.starless_eq_exclude_iff, hentry, ih hrest]

/-- A path that is left within some limit is left when time is over. -/
theorem FieldTree.isSome_get?_prune_of_expires {scope : Scope} {path : List String}
    (hexpires : timeout.Expires) (other : Timeout)
    (h : ((tree.prune other (.within scope)).get? path).isSome) :
    ((tree.prune timeout (.within scope)).get? path).isSome := by
  by_cases hend : path = []
  · simp [hend] at h
  · have hother := @get?_prune other (.within scope) path hend tree
    have hover := @get?_prune timeout (.within scope) path hend tree
    by_cases hexcluded : (Rule.within scope).below timeout path = .exclude
    · -- what is excluded when time is over is excluded in any case
      have hin : (Rule.within scope).below other path = .exclude :=
        Rule.below_of_expires hexpires hexcluded other
      simp [hother, hin] at h
    · by_cases hin : (Rule.within scope).below other path = .exclude
      · simp [hother, hin] at h
      · simpa [hother, hover, hin, hexcluded] using h

/-! ## Errors -/

/-- The error that an event leads to. -/
def Event.timedOut? (timeout : Timeout) : Event → Option Notice
  | attempt pattern name =>
      if timeout.search name pattern = .timedOut then some (.matchTimedOut pattern name) else none
  | undefinedFragment _ => none

theorem Event.errors_notices (timeout : Timeout) (event : Event) :
    (event.notices timeout).filter (fun notice => notice.level = .error) =
      (event.timedOut? timeout).toList := by
  cases event with
  | attempt pattern name =>
      rw [notices, Timeout.errors_attemptNotices, timedOut?]
      split <;> rfl
  | undefinedFragment name => simp [notices, timedOut?, Notice.level]

theorem Event.timedOut?_eq_some_iff {event : Event} {pattern name : String} :
    event.timedOut? timeout = some (.matchTimedOut pattern name) ↔
      event = .attempt pattern name ∧ timeout.search name pattern = .timedOut := by
  cases event with
  | attempt tried other =>
      by_cases hover : timeout.search other tried = .timedOut
      · simp only [timedOut?, hover, if_true, Option.some.injEq, Notice.matchTimedOut.injEq,
          attempt.injEq]
        constructor
        · rintro ⟨rfl, rfl⟩
          exact ⟨⟨rfl, rfl⟩, hover⟩
        · rintro ⟨⟨rfl, rfl⟩, -⟩
          exact ⟨rfl, rfl⟩
      · simp only [timedOut?, hover]
        constructor
        · intro hnone
          cases hnone
        · rintro ⟨⟨rfl, rfl⟩, hsame⟩
          exact absurd hsame hover
  | undefinedFragment other => simp [timedOut?]

/-- The errors of a walk are those of its events. -/
theorem errors_collect (context : Context) (limit : Nat) (rule : Rule)
    (selections : List Selection) :
    (collect context limit rule selections).notices.filter (fun notice => notice.level = .error) =
      (events context limit rule selections).filterMap (Event.timedOut? context.timeout) := by
  rw [notices_collect, List.filter_flatMap, List.filterMap_eq_flatMap_toList]
  apply List.flatMap_congr
  intro event _
  exact event.errors_notices context.timeout

/-- A match is reported to have timed out exactly if the walk tries it and it does. -/
theorem matchTimedOut_mem_iff {pattern name : String}
    (h : (collect context limit rule selections).outcome = .ok tree) :
    .matchTimedOut pattern name ∈ (collect context limit rule selections).notices ↔
      Tries context pattern name rule selections ∧
        context.timeout.search name pattern = .timedOut := by
  have herror : ∀ notices : List Notice, .matchTimedOut pattern name ∈ notices ↔
      .matchTimedOut pattern name ∈ notices.filter (fun notice => notice.level = .error) := by
    intro notices
    simp [List.mem_filter, Notice.level]
  rw [herror, errors_collect, List.mem_filterMap]
  simp only [Event.timedOut?_eq_some_iff, ← attempt_mem_events_iff h]
  constructor
  · rintro ⟨event, hmem, rfl, hover⟩
    exact ⟨hmem, hover⟩
  · rintro ⟨hmem, hover⟩
    exact ⟨_, hmem, rfl, hover⟩

/-! ## Walks when time is over -/

/-- Where the walk without rules has a tree and no field has a star in its name, the walk under
patterns has one too if every match that would be found comes too late. Its tree is the one that the
keys without stars leave, whatever the limit and the engine are, and it has every path that is left
within any other limit. Its errors are, in order, those of the matches that it tries and that time
out, each with its pattern and the name of the field. -/
theorem expired_walk_degrades_safely (patterns : List String)
    (hexpires : context.timeout.Expires)
    (hnames : ∀ name directives selectionSet,
      Contained context.fragments selections (.field (some name) directives selectionSet) →
        Wildcard.isPattern name = false)
    (h : (collect context limit .keep selections).outcome = .ok tree) :
    ∃ notices kept,
      collect context limit (.within (Pattern.scope patterns)) selections =
        ⟨notices, .ok kept⟩ ∧
      (∀ other : Timeout,
        (collect (context.withTimeout other) limit (.within (Pattern.scope patterns).starless)
          selections).outcome = .ok kept) ∧
      (∀ other : Timeout, ∃ full,
        (collect (context.withTimeout other) limit (.within (Pattern.scope patterns))
          selections).outcome = .ok full ∧
        ∀ path, (full.get? path).isSome → (kept.get? path).isSome) ∧
      (∀ pattern name, .matchTimedOut pattern name ∈ notices ↔
        Tries context pattern name (.within (Pattern.scope patterns)) selections ∧
          context.timeout.search name pattern = .timedOut) ∧
      notices.filter (fun notice => notice.level = .error) =
        (events context limit (.within (Pattern.scope patterns)) selections).filterMap
          (Event.timedOut? context.timeout) := by
  have hwalk := collect_prune (.within (Pattern.scope patterns)) h
  have hother : ∀ other : Timeout,
      (collect (context.withTimeout other) limit .keep selections).outcome = .ok tree := by
    intro other
    simpa only [collect_withTimeout] using h
  refine ⟨_, _, Run.ext rfl hwalk, ?_, ?_, fun _ _ => matchTimedOut_mem_iff hwalk,
    errors_collect context limit _ selections⟩
  · intro other
    have hstarless := collect_prune (.within (Pattern.scope patterns).starless) (hother other)
    have hpruned : tree.prune other (.within (Pattern.scope patterns).starless) =
        tree.prune context.timeout (.within (Pattern.scope patterns)) :=
      FieldTree.prune_starless hexpires other (everywhere_collect hnames h)
        (.within (Pattern.scope patterns))
    exact hstarless.trans (congrArg Except.ok hpruned)
  · intro other
    refine ⟨_, collect_prune _ (hother other), ?_⟩
    intro path hpath
    exact FieldTree.isSome_get?_prune_of_expires hexpires other hpath

/-! ### A query of users -/

/-- The query `{ users { name, email }, user }`. -/
def userSelections : List Selection :=
  [.field (some "users") .missing
      (.listed [.field (some "name") .missing .missing, .field (some "email") .missing .missing]),
    .field (some "user") .missing .missing]

/-- No match is found in no time. -/
def hurriedContext : Context where
  fragments := .table []
  variableValues := .object []
  withDirectives := true
  timeout := ⟨.seconds 0.0, .standard⟩

theorem expires_hurriedContext : hurriedContext.timeout.Expires :=
  Timeout.expires_standard (by decide)

private theorem mem_of_contained_users {node : Selection}
    (h : Contained hurriedContext.fragments userSelections node) :
    node ∈ userSelections ++ userSelections.flatMap Selection.selections := by
  refine h.mem_of_closed ?_ (List.subset_append_left _ _)
  intro selection hmem inner hleads
  simp only [userSelections, Selection.selections, SelectionSet.toList, List.flatMap_cons,
    List.flatMap_nil, List.append_nil, List.cons_append, List.nil_append, List.mem_cons,
    List.not_mem_nil, or_false] at hmem
  rcases hmem with rfl | rfl | rfl | rfl <;> cases hleads <;>
    simp [userSelections, Selection.selections, SelectionSet.toList]

/-- All that the query of users asks for. -/
def userTree : FieldTree :=
  .branch "users" (.leaf "name" (.leaf "email" .nil)) (.leaf "user" .nil)

/-- In time `*mail` leaves out `email`, and `u*` leaves out `user`. Too late they leave out nothing,
and two errors are reported. -/
theorem sample_expired_walk :
    hurriedContext.timeout.Expires ∧
      (collect hurriedContext 3 .keep userSelections).outcome = .ok userTree ∧
      ∃ notices,
        collect hurriedContext 3 (.within (Pattern.scope ["users.*mail", "u*"])) userSelections =
          ⟨notices, .ok userTree⟩ ∧
        (∀ path, ((FieldTree.branch "users" (.leaf "name" .nil) .nil).get? path).isSome →
          (userTree.get? path).isSome) ∧
        notices.filter (fun notice => notice.level = .error) =
          [.matchTimedOut "*mail" "email", .matchTimedOut "u*" "user"] := by
  have hexpires := expires_hurriedContext
  have hwalk : (collect hurriedContext 3 .keep userSelections).outcome = .ok userTree := rfl
  have hnames : ∀ name directives selectionSet,
      Contained hurriedContext.fragments userSelections
        (.field (some name) directives selectionSet) → Wildcard.isPattern name = false := by
    intro name directives selectionSet hcontained
    have hmem := mem_of_contained_users hcontained
    simp only [userSelections, Selection.selections, SelectionSet.toList, List.flatMap_cons,
      List.flatMap_nil, List.append_nil, List.cons_append, List.nil_append, List.mem_cons,
      List.not_mem_nil, or_false, Selection.field.injEq, Option.some.injEq] at hmem
    rcases hmem with ⟨rfl, -⟩ | ⟨rfl, -⟩ | ⟨rfl, -⟩ | ⟨rfl, -⟩ <;> decide
  rcases expired_walk_degrades_safely ["users.*mail", "u*"] hexpires hnames hwalk with
    ⟨notices, kept, hkept, hstarless, hmore, -, herrors⟩
  -- the keys without stars are `users` alone, with nothing below it
  have hplain : (collect (hurriedContext.withTimeout .unset) 3
      (.within (.narrow "users" .nil .nil)) userSelections).outcome = .ok userTree := rfl
  cases hplain.symm.trans (hstarless .unset)
  have htime : (collect (hurriedContext.withTimeout .unset) 3
      (.within (Pattern.scope ["users.*mail", "u*"])) userSelections).outcome =
        .ok (.branch "users" (.leaf "name" .nil) .nil) := rfl
  rcases hmore .unset with ⟨full, hfull, hpaths⟩
  cases htime.symm.trans hfull
  exact ⟨hexpires, hwalk, notices, hkept, hpaths, herrors⟩

end Lookahead
