import Lookahead.Proofs.Exclusion.Growth

/-!
# Exclusion.Relative — patterns written below a path

With the same path in front of each of them, patterns make the scope that they make alone, hanging
at the end of the path. Going down the path comes to that scope by keys that are the names on the
way, which nothing can take over, so the patterns mean below the path what they mean at the root.

* `Scope.nested` — a scope at the end of a path of keys;
* `Scope.excludeAt_nested` — excluding behind the path is excluding in the scope at its end;
* `Pattern.scope_below_path` — the scope of patterns with a path in front;
* `Pattern.below_scope_below_path` — the rule it comes to at the end of the path.
-/

namespace Lookahead

namespace Scope

/-- The scope of one key to a level along a path, which goes on with `scope` at its end. -/
def nested : List String → Scope → Scope
  | [], scope => scope
  | key :: path, scope => narrow key (nested path scope) nil

variable {timeout : Timeout} {key : String} {path keys : List String} {scope inner : Scope}

/-! ## Excluding behind a path -/

theorem excludeAt_of_within (hkeys : keys ≠ []) (hfound : scope.find? key = some (.within inner)) :
    scope.excludeAt (key :: keys) = scope.put key (.within (inner.excludeAt keys)) := by
  cases keys with
  | nil => exact absurd rfl hkeys
  | cons next rest => simp [excludeAt, hfound]

theorem excludeAt_of_none (hkeys : keys ≠ []) (hnone : scope.find? key = none) :
    scope.excludeAt (key :: keys) = scope.put key (.within (nil.excludeAt keys)) := by
  cases keys with
  | nil => exact absurd rfl hkeys
  | cons next rest => simp [excludeAt, hnone]

theorem excludeAt_nested (hkeys : keys ≠ []) (path : List String) (scope : Scope) :
    (nested path scope).excludeAt (path ++ keys) = nested path (scope.excludeAt keys) := by
  induction path with
  | nil =>
      rfl
  | cons key path ih =>
      have hfound : (nested (key :: path) scope).find? key =
          some (.within (nested path scope)) := by
        simp [nested, find?]
      have hrest : path ++ keys ≠ [] := by
        simp [hkeys]
      calc
        (nested (key :: path) scope).excludeAt (key :: (path ++ keys))
            = (nested (key :: path) scope).put key
                (.within ((nested path scope).excludeAt (path ++ keys))) :=
              excludeAt_of_within hrest hfound
        _ = nested (key :: path) (scope.excludeAt keys) := by
              simp [ih, nested, put, cons]

/-- Where there is no scope yet, the path is made on the way. -/
theorem excludeAt_nil (hkeys : keys ≠ []) (path : List String) :
    nil.excludeAt (path ++ keys) = nested path (nil.excludeAt keys) := by
  induction path with
  | nil =>
      rfl
  | cons key path ih =>
      have hrest : path ++ keys ≠ [] := by
        simp [hkeys]
      calc
        nil.excludeAt (key :: (path ++ keys))
            = nil.put key (.within (nil.excludeAt (path ++ keys))) := excludeAt_of_none hrest rfl
        _ = nested (key :: path) (nil.excludeAt keys) := by
              simp [ih, nested, put, cons]

end Scope

/-- Each key on the way is the name that is looked up, so no key with stars is tried. -/
theorem Rule.below_nested {timeout : Timeout} (path : List String) (scope : Scope) :
    (Rule.within (Scope.nested path scope)).below timeout path = .within scope := by
  induction path with
  | nil =>
      rfl
  | cons key path ih =>
      have hverdict : (Rule.within (Scope.nested (key :: path) scope)).verdict timeout key =
          .within (Scope.nested path scope) :=
        Scope.verdict_of_find? (by simp [Scope.nested, Scope.find?])
      simp [Rule.below, hverdict, ih]

namespace Pattern

variable {front pattern : String} {patterns : List String}

/-! ## Patterns with a path in front -/

/-- A star by itself would be taken for the end of the path in front. Any other pattern keeps its
keys, also one that ends in a lone star. -/
theorem path_below_path (hstar : pattern ≠ "*") :
    Pattern.path (front ++ "." ++ pattern) = Dotted.segments front ++ Pattern.path pattern := by
  rcases List.eq_nil_or_concat (Dotted.segments pattern) with hnil | ⟨init, last, hsegments⟩
  · exact absurd hnil (Dotted.segments_ne_nil pattern)
  · have hfront : 0 < (Dotted.segments front).length :=
      List.length_pos_iff.2 (Dotted.segments_ne_nil front)
    -- a pattern of one segment is that segment
    have hinit : last = "*" → 0 < init.length := by
      intro hlast
      apply List.length_pos_iff.2
      rintro rfl
      have hwritten : ".".intercalate (Dotted.segments pattern) = last := by
        simp [hsegments]
      exact hstar ((Dotted.intercalate_segments pattern).symm.trans (hwritten.trans hlast))
    by_cases hlast : last = "*"
    · have hcut : 0 < (Dotted.segments front).length + init.length := by
        omega
      simp [Pattern.path, Dotted.segments_append_point, hsegments, hlast, hinit hlast, hcut,
        ← List.append_assoc]
    · simp [Pattern.path, Dotted.segments_append_point, hsegments, hlast, ← List.append_assoc]

private theorem addTo_of_ne (hne : pattern ≠ "") (scope : Scope) :
    addTo scope pattern = scope.excludeAt (Pattern.path pattern) := by
  simp [addTo, hne]

private theorem addTo_below_path (hstar : pattern ≠ "*") (scope : Scope) :
    addTo scope (front ++ "." ++ pattern) =
      scope.excludeAt (Dotted.segments front ++ Pattern.path pattern) := by
  simp [addTo, path_below_path hstar]

theorem addTo_nested (hne : pattern ≠ "") (hstar : pattern ≠ "*") (scope : Scope) :
    addTo (Scope.nested (Dotted.segments front) scope) (front ++ "." ++ pattern) =
      Scope.nested (Dotted.segments front) (addTo scope pattern) := by
  simp only [addTo_of_ne hne, addTo_below_path hstar]
  exact Scope.excludeAt_nested (path_ne_nil pattern) _ scope

private theorem foldl_addTo_nested (hwritten : ∀ pattern ∈ patterns, pattern ≠ "" ∧ pattern ≠ "*")
    (start : Scope) :
    (patterns.map fun pattern => front ++ "." ++ pattern).foldl addTo
        (Scope.nested (Dotted.segments front) start) =
      Scope.nested (Dotted.segments front) (patterns.foldl addTo start) := by
  induction patterns generalizing start with
  | nil =>
      rfl
  | cons pattern patterns ih =>
      rcases List.forall_mem_cons.1 hwritten with ⟨⟨hne, hstar⟩, hrest⟩
      simp only [List.map_cons, List.foldl_cons, addTo_nested hne hstar, ih hrest]

/-- Patterns with a path in front have their own scope at the end of the path. -/
theorem scope_below_path (hpatterns : patterns ≠ [])
    (hwritten : ∀ pattern ∈ patterns, pattern ≠ "" ∧ pattern ≠ "*") :
    Pattern.scope (patterns.map fun pattern => front ++ "." ++ pattern) =
      Scope.nested (Dotted.segments front) (Pattern.scope patterns) := by
  cases patterns with
  | nil =>
      exact absurd rfl hpatterns
  | cons pattern patterns =>
      rcases List.forall_mem_cons.1 hwritten with ⟨⟨hne, hstar⟩, hrest⟩
      -- the first pattern makes the path, and the others find it made
      have hfirst : addTo .nil (front ++ "." ++ pattern) =
          Scope.nested (Dotted.segments front) (addTo .nil pattern) := by
        simp only [addTo_of_ne hne, addTo_below_path hstar]
        exact Scope.excludeAt_nil (path_ne_nil pattern) _
      calc
        Pattern.scope ((pattern :: patterns).map fun pattern => front ++ "." ++ pattern)
            = (patterns.map fun pattern => front ++ "." ++ pattern).foldl addTo
                (addTo .nil (front ++ "." ++ pattern)) := rfl
        _ = (patterns.map fun pattern => front ++ "." ++ pattern).foldl addTo
                (Scope.nested (Dotted.segments front) (addTo .nil pattern)) := by
              simp only [hfirst]
        _ = Scope.nested (Dotted.segments front) (patterns.foldl addTo (addTo .nil pattern)) :=
              foldl_addTo_nested hrest _

/-- At the end of the path the patterns are in force as they stand. -/
theorem below_scope_below_path {timeout : Timeout} (hpatterns : patterns ≠ [])
    (hwritten : ∀ pattern ∈ patterns, pattern ≠ "" ∧ pattern ≠ "*") :
    (Rule.within (Pattern.scope (patterns.map fun pattern => front ++ "." ++ pattern))).below
        timeout (Dotted.segments front) = .within (Pattern.scope patterns) := by
  simp only [scope_below_path hpatterns hwritten]
  exact Rule.below_nested _ _

end Pattern

end Lookahead
