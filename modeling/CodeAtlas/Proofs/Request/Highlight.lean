import CodeAtlas.Proofs.Related
import CodeAtlas.Proofs.Syntax.Sites
import CodeAtlas.Proofs.Walk
import CodeAtlas.Proofs.Workspace
import CodeAtlas.Request

/-!
# Highlights follow the scopes of local variables

A search for a symbol counts the definitions that are open around each node it is told of. Where the
count allows, it finds the nodes that the recursion over the tree names: all that stand for the symbol,
and if that is a local variable, all in the scope of the variable that no further definition hides.
-/

namespace CodeAtlas

/-! ## Kinds -/

namespace SyntaxKind

/-- Whether the local variables around a node of the kind are unknown inside it. -/
def hidesLocals : SyntaxKind → Bool
  | .methodDef | .classDef | .moduleDef | .singletonClass => true
  | _ => false

/-- Whether a node of the kind has local variables of its own. -/
def ownsLocals : SyntaxKind → Bool
  | .program | .methodDef | .classDef | .moduleDef | .singletonClass => true
  | _ => false

theorem ownsLocals_iff {kind : SyntaxKind} :
    kind.ownsLocals ↔ kind = .program ∨ kind.hidesLocals := by
  cases kind <;> simp [ownsLocals, hidesLocals]

theorem ownsLocals_of_hidesLocals {kind : SyntaxKind} (hides : kind.hidesLocals) : kind.ownsLocals := by
  cases kind <;> first | rfl | cases hides

theorem isScope_of_hidesLocals {kind : SyntaxKind} (hides : kind.hidesLocals) : kind.isScope := by
  cases kind <;> first | rfl | cases hides

theorem mem_all (kind : SyntaxKind) : kind ∈ all := by
  cases kind <;> decide

theorem mem_matchable {kind : SyntaxKind} : kind ∈ matchable ↔ kind.nameSpace?.isSome := by
  simp [matchable, mem_all]

theorem occurrence?_isSome {kind : SyntaxKind} (named : kind.nameSpace?.isSome) :
    kind.occurrence?.isSome := by
  cases kind <;> first | rfl | cases named

end SyntaxKind

theorem SyntaxNode.nameSpace?_of_identity? {n : SyntaxNode} {symbol : Identity}
    (named : n.identity? = some symbol) : n.kind.nameSpace? = some symbol.space := by
  obtain ⟨space, space_eq, rest⟩ := Option.bind_eq_some_iff.mp named
  obtain ⟨name, -, rest⟩ := Option.bind_eq_some_iff.mp rest
  dsimp only at rest
  split at rest
  · cases rest
  · cases rest
    exact space_eq

/-- The event that a site is entered. -/
def SyntaxNode.Site.entry (t : Site) : Visit :=
  ⟨t.place, .enter t.node.kind, t.node⟩

theorem SyntaxNode.head?_pathAt {n : SyntaxNode} {offset : Nat} (reached : n.pathAt offset ≠ []) :
    (n.pathAt offset).head? = some n := by
  rw [pathAt] at reached ⊢
  split
  · rfl
  · rename_i outside
    rw [if_neg outside] at reached
    cases reached rfl

namespace Highlight

open SyntaxNode (Visit Site visitsInSlots sitesInSlots)

theorem opensLocals_eq (kind : SyntaxKind) : opensLocals kind = kind.ownsLocals := by
  cases kind <;> rfl

theorem contains_localScopeKinds (kind : SyntaxKind) :
    localScopeKinds.contains kind = kind.hidesLocals := by
  cases kind <;> rfl

section Subscriptions

variable {symbol : Identity} {writes : Bool} {kind : SyntaxKind}

theorem enter_mem_subscriptions : .enter kind ∈ (listener symbol writes).subscriptions ↔
    kind.nameSpace?.isSome ∨ symbol.isLocal ∧ kind.hidesLocals := by
  rw [← contains_localScopeKinds, ← SyntaxKind.mem_matchable]
  cases known : symbol.isLocal <;> simp [listener, known]

theorem exit_mem_subscriptions : .exit kind ∈ (listener symbol writes).subscriptions ↔
    symbol.isLocal ∧ kind.hidesLocals := by
  rw [← contains_localScopeKinds]
  cases known : symbol.isLocal <;> simp [listener, known]

theorem anyNode_not_mem_subscriptions (symbol : Identity) (writes : Bool) :
    .anyNode ∉ (listener symbol writes).subscriptions := by
  cases known : symbol.isLocal <;> simp [listener, known]

end Subscriptions

/-! ## Counting -/

/-- How many nodes on a path a search counts. -/
def counted (symbol : Identity) (path : List SyntaxNode) : Nat :=
  if symbol.isLocal then path.countP (·.kind.hidesLocals) else 0

theorem counted_append (symbol : Identity) (path path' : List SyntaxNode) :
    counted symbol (path ++ path') = counted symbol path + counted symbol path' := by
  cases known : symbol.isLocal <;> simp [counted, known]

theorem counted_singleton (symbol : Identity) (n : SyntaxNode) :
    counted symbol [n] = if symbol.isLocal && n.kind.hidesLocals then 1 else 0 := by
  cases known : symbol.isLocal <;> simp [counted, known]

/-- The nodes that a search has been told of when they were entered, each with the nesting around it. -/
def entries (told : List (Search × Visit)) : List (Nat × Visit) :=
  told.filterMap fun (s, v) =>
    match v.event with
    | .enter _ => some (s.nesting, v)
    | _ => none

/-- Some visits take a search from one nesting to another, and these are the nodes that it is told of. -/
def Passes (symbol : Identity) (writes : Bool) (depth : Nat) (vs : List Visit) (depth' : Nat)
    (entered : List (Nat × Visit)) : Prop :=
  ∀ s : Search, s.nesting = depth → ((listener symbol writes).after s vs).nesting = depth' ∧
    entries ((listener symbol writes).trace s vs) = entered

section Passes

variable {symbol : Identity} {writes : Bool} {depth depth' depth'' : Nat} {vs vs' : List Visit}
  {entered entered' : List (Nat × Visit)}

theorem Passes.nil (symbol : Identity) (writes : Bool) (depth : Nat) :
    Passes symbol writes depth [] depth [] :=
  fun _ at_depth => ⟨at_depth, rfl⟩

theorem Passes.append (first : Passes symbol writes depth vs depth' entered)
    (second : Passes symbol writes depth' vs' depth'' entered') :
    Passes symbol writes depth (vs ++ vs') depth'' (entered ++ entered') := by
  intro s at_depth
  obtain ⟨between, told⟩ := first s at_depth
  obtain ⟨after, told'⟩ := second _ between
  rw [Listener.after_append, Listener.trace_append, entries, List.filterMap_append]
  exact ⟨after, congrArg₂ (· ++ ·) told told'⟩

theorem passes_unwanted (depth : Nat) {v : Visit}
    (unwanted : v.event ∉ (listener symbol writes).subscriptions) :
    Passes symbol writes depth [v] depth [] := by
  intro s at_depth
  rw [Listener.after_unwanted _ _ unwanted, Listener.trace, if_neg unwanted]
  exact ⟨at_depth, rfl⟩

theorem nesting_record (s : Search) (n : SyntaxNode) :
    (s.record symbol writes n).nesting = s.nesting := by
  unfold Search.record
  split
  · rfl
  · split <;> rfl
  · rfl

theorem nesting_enter (s : Search) (n : SyntaxNode)
    (wanted : .enter n.kind ∈ (listener symbol writes).subscriptions) :
    (handle symbol writes s (.enter n.kind) n).nesting = s.nesting + counted symbol [n] := by
  -- The root of a file would count as well, but a search is not told of it.
  have counts : (symbol.isLocal && opensLocals n.kind) = (symbol.isLocal && n.kind.hidesLocals) := by
    rw [opensLocals_eq]
    rw [enter_mem_subscriptions] at wanted
    cases kind : n.kind <;>
      simp_all [SyntaxKind.ownsLocals, SyntaxKind.hidesLocals, SyntaxKind.nameSpace?]
  rw [handle, counts, counted_singleton]
  split <;> split
  · rfl
  · exact nesting_record _ n
  · rfl
  · exact nesting_record _ n

theorem nesting_exit (s : Search) (n : SyntaxNode)
    (wanted : .exit n.kind ∈ (listener symbol writes).subscriptions) :
    (handle symbol writes s (.exit n.kind) n).nesting = s.nesting - counted symbol [n] := by
  obtain ⟨known, hides⟩ := exit_mem_subscriptions.mp wanted
  rw [handle, counted_singleton, opensLocals_eq, SyntaxKind.ownsLocals_of_hidesLocals hides, known, hides]
  rfl

theorem counted_of_unwanted {n : SyntaxNode}
    (unwanted : .exit n.kind ∉ (listener symbol writes).subscriptions) : counted symbol [n] = 0 := by
  rw [counted_singleton]
  simp_all [exit_mem_subscriptions]

/-- The nodes at some sites that a search is told of, each with the nesting around it. -/
def entriesOf (symbol : Identity) (writes : Bool) (depth : Nat) (ts : List Site) : List (Nat × Visit) :=
  (ts.filter fun t => .enter t.node.kind ∈ (listener symbol writes).subscriptions).map fun t =>
    (depth + counted symbol t.around, t.entry)

theorem entriesOf_append (depth : Nat) (ts ts' : List Site) : entriesOf symbol writes depth (ts ++ ts') =
    entriesOf symbol writes depth ts ++ entriesOf symbol writes depth ts' := by
  simp [entriesOf]

variable (symbol writes) (depth : Nat) (place : List Nat) (around : List SyntaxNode)

theorem passes_enter (n : SyntaxNode) :
    Passes symbol writes (depth + counted symbol around) [⟨place, .enter n.kind, n⟩]
      (depth + counted symbol (around ++ [n])) (entriesOf symbol writes depth [⟨place, around, n⟩]) := by
  rw [counted_append, ← Nat.add_assoc]
  by_cases wanted : .enter n.kind ∈ (listener symbol writes).subscriptions
  · intro s at_depth
    refine ⟨?_, ?_⟩
    · rw [Listener.after_wanted _ _ wanted, ← at_depth]
      exact nesting_enter s n wanted
    · simp [Listener.trace, wanted, entries, entriesOf, Site.entry, at_depth]
  · -- A search that is told when a node is left is told when it is entered, too.
    have left : .exit n.kind ∉ (listener symbol writes).subscriptions := fun left =>
      wanted (enter_mem_subscriptions.mpr (.inr (exit_mem_subscriptions.mp left)))
    rw [counted_of_unwanted left]
    have none' : entriesOf symbol writes depth [⟨place, around, n⟩] = [] := by
      simp [entriesOf, wanted]
    rw [none']
    exact passes_unwanted _ wanted

theorem passes_exit (n : SyntaxNode) :
    Passes symbol writes (depth + counted symbol (around ++ [n]))
      (if n.kind.isScope then [⟨place, .exit n.kind, n⟩] else []) (depth + counted symbol around) [] := by
  rw [counted_append, ← Nat.add_assoc]
  by_cases wanted : .exit n.kind ∈ (listener symbol writes).subscriptions
  · have hides := (exit_mem_subscriptions.mp wanted).2
    rw [if_pos (SyntaxKind.isScope_of_hidesLocals hides)]
    intro s at_depth
    refine ⟨?_, ?_⟩
    · rw [Listener.after_wanted _ _ wanted]
      exact (nesting_exit s n wanted).trans (by rw [at_depth, Nat.add_sub_cancel])
    · simp [Listener.trace, wanted, entries]
  · rw [counted_of_unwanted wanted]
    split
    · exact passes_unwanted _ wanted
    · exact .nil symbol writes _

-- By induction on the tree, for any nodes that are counted around it.
mutual

theorem passes_visitsAt (place : List Nat) (around : List SyntaxNode) : (n : SyntaxNode) →
    Passes symbol writes (depth + counted symbol around) (n.visitsAt place)
      (depth + counted symbol around) (entriesOf symbol writes depth (n.sitesAt place around))
  | ⟨kind, name, range, ownNameRange, slots⟩ => by
      let n : SyntaxNode := ⟨kind, name, range, ownNameRange, slots⟩
      have any := passes_unwanted (depth + counted symbol around) (v := ⟨place, .anyNode, n⟩)
        (anyNode_not_mem_subscriptions symbol writes)
      have enter := passes_enter symbol writes depth place around n
      have inside := passes_visitsInSlots place (around ++ [n]) 0 slots
      have exit := passes_exit symbol writes depth place around n
      have all := any.append (enter.append (inside.append exit))
      rw [List.append_nil, List.nil_append, ← entriesOf_append] at all
      rw [SyntaxNode.visitsAt, SyntaxNode.sitesAt]
      exact all

theorem passes_visitsInSlots (place : List Nat) (around : List SyntaxNode) (i : Nat) :
    (slots : List (Option SyntaxNode)) →
    Passes symbol writes (depth + counted symbol around) (visitsInSlots place i slots)
      (depth + counted symbol around) (entriesOf symbol writes depth (sitesInSlots place around i slots))
  | [] => .nil symbol writes _
  | none :: rest => by
      rw [visitsInSlots, sitesInSlots]
      exact passes_visitsInSlots place around (i + 1) rest
  | some child :: rest => by
      rw [visitsInSlots, sitesInSlots, entriesOf_append]
      exact (passes_visitsAt (place ++ [i]) around child).append
        (passes_visitsInSlots place around (i + 1) rest)

end

end Passes

/-! ## What is found -/

/-- What is reported of a node, unless it binds the symbol and such nodes are left out. -/
def reported? (symbol : Identity) (writes : Bool) (n : SyntaxNode) : Option (ByteRange × Occurrence) :=
  (n.occurrenceOf? symbol).bind fun use =>
    if use = .write ∧ writes = false then none else some (n.nameRange, use)

theorem reported?_eq_some {symbol : Identity} {writes : Bool} {n : SyntaxNode}
    {found : ByteRange × Occurrence} : reported? symbol writes n = some found ↔
      n.identity? = some symbol ∧ n.kind.occurrence? = some found.2 ∧
        (found.2 = .write → writes = true) ∧ found.1 = n.nameRange := by
  obtain ⟨range, use⟩ := found
  rw [reported?, SyntaxNode.occurrenceOf?]
  by_cases named : n.identity? = some symbol
  · cases n.kind.occurrence? with
    | none => simp [named]
    | some use' => cases use' <;> cases use <;> cases writes <;> simp [named, eq_comm]
  · simp [named]

/-- What an event adds at some nesting. -/
def added? (symbol : Identity) (writes : Bool) (depth : Nat) (event : Event) (n : SyntaxNode) :
    Option (ByteRange × Occurrence) :=
  match event with
  | .enter kind =>
      if 1 < depth + (if symbol.isLocal && opensLocals kind then 1 else 0) then none
      else reported? symbol writes n
  | _ => none

/-- A search reaches a site: no node hides it between the scope and the site. -/
def Reaches (symbol : Identity) (t : Site) : Prop :=
  symbol.isLocal → ∀ n ∈ t.around.tail, ¬n.kind.hidesLocals

instance (symbol : Identity) (t : Site) : Decidable (Reaches symbol t) :=
  inferInstanceAs (Decidable (_ → _))

/-- What a search reports of the node at a site. -/
def atSite? (symbol : Identity) (writes : Bool) (t : Site) : Option (ByteRange × Occurrence) :=
  if Reaches symbol t then reported? symbol writes t.node else none

section Found

variable (symbol : Identity) (writes : Bool)

theorem found_record (s : Search) (n : SyntaxNode) :
    (s.record symbol writes n).found = (reported? symbol writes n).toList ++ s.found := by
  rw [Search.record, reported?]
  cases n.occurrenceOf? symbol with
  | none => rfl
  | some use => cases use <;> cases writes <;> rfl

theorem found_handle (s : Search) (event : Event) (n : SyntaxNode) :
    (handle symbol writes s event n).found =
      (added? symbol writes s.nesting event n).toList ++ s.found := by
  cases event with
  | anyNode => rfl
  | enter kind =>
      rw [handle, added?]
      cases symbol.isLocal && opensLocals kind with
      | true =>
          rw [if_pos rfl, if_pos rfl]
          split
          · rfl
          · exact found_record symbol writes _ n
      | false =>
          rw [if_neg Bool.false_ne_true, if_neg Bool.false_ne_true, Nat.add_zero]
          split
          · rfl
          · exact found_record symbol writes _ n
  | exit kind =>
      rw [handle]
      split <;> rfl

theorem added?_entries (told : List (Search × Visit)) :
    (told.filterMap fun (s, v) => added? symbol writes s.nesting v.event v.node) =
      (entries told).filterMap fun (depth, v) => added? symbol writes depth v.event v.node := by
  rw [entries, List.filterMap_filterMap]
  congr 1
  funext (s, v)
  cases event : v.event <;> simp [added?, event]

theorem ownsLocals_of_local {symbol : Identity} (known : symbol.isLocal) {n : SyntaxNode}
    (named : n.identity? = some symbol) : n.kind.ownsLocals = false := by
  have space := SyntaxNode.nameSpace?_of_identity? named
  rw [of_decide_eq_true known] at space
  cases kind : n.kind <;> rw [kind] at space <;> first | rfl | cases space

theorem nesting_start (scope : SyntaxNode) :
    (Search.start scope).nesting = if scope.kind.hidesLocals then 0 else 1 := by
  rw [Search.start, contains_localScopeKinds]

/-- Only where a search reaches is the scope alone counted, if it is counted. -/
theorem reaches_iff {scope : SyntaxNode} {t : Site} (mem : t ∈ scope.sites) :
    Reaches symbol t ↔ (Search.start scope).nesting + counted symbol t.around ≤ 1 := by
  rw [nesting_start, Reaches, counted]
  cases symbol.isLocal with
  | false => split <;> simp
  | true =>
      obtain ⟨place, around, node⟩ := t
      cases SyntaxNode.mem_sites.mp mem with
      | here => split <;> simp
      | @step _ child _ i place around slot way =>
          -- The scope is counted once, beforehand or when it is entered.
          have once : (if scope.kind.hidesLocals then 0 else 1) +
              (scope :: around).countP (·.kind.hidesLocals) = around.countP (·.kind.hidesLocals) + 1 := by
            rw [List.countP_cons]
            split <;> omega
          rw [if_pos rfl, once, Nat.add_one_le_iff, Nat.lt_one_iff, List.countP_eq_zero]
          exact ⟨fun h => h rfl, fun h _ => h⟩

theorem added?_site {scope : SyntaxNode} {t : Site} (mem : t ∈ scope.sites) :
    added? symbol writes ((Search.start scope).nesting + counted symbol t.around) (.enter t.node.kind)
      t.node = atSite? symbol writes t := by
  rw [added?, atSite?]
  cases reported : reported? symbol writes t.node with
  | none => simp
  | some found =>
      obtain ⟨named, -⟩ := reported?_eq_some.mp reported
      have uncounted : (symbol.isLocal && opensLocals t.node.kind) = false := by
        rw [opensLocals_eq, Bool.and_eq_false_imp]
        exact fun known => ownsLocals_of_local known named
      rw [uncounted, if_neg Bool.false_ne_true, Nat.add_zero]
      simp only [reaches_iff symbol mem, ← Nat.not_lt, ite_not]

/-- A search finds the nodes that stand for the symbol where it reaches, in the order of the walk. -/
theorem found_run (scope : SyntaxNode) :
    ((listener symbol writes).run (.start scope) scope).found.reverse =
      scope.sites.filterMap (atSite? symbol writes) := by
  obtain ⟨-, told⟩ := passes_visitsAt symbol writes (Search.start scope).nesting [] [] scope
    (.start scope) (by simp [counted])
  have added := (listener symbol writes).output_after (.start scope) scope.visits Search.found
    (fun s => added? symbol writes s.nesting) (found_handle symbol writes)
  rw [Listener.run_eq, added, Search.start, List.append_nil, List.reverse_reverse, ← Search.start,
    added?_entries, SyntaxNode.visits, told, entriesOf, List.filterMap_map, List.filterMap_filter]
  refine List.filterMap_congr fun t mem => ?_
  split
  · exact added?_site symbol writes mem
  · rename_i unwanted
    have none' : reported? symbol writes t.node = none := by
      rw [Option.eq_none_iff_forall_ne_some]
      intro found reported
      obtain ⟨named, -⟩ := reported?_eq_some.mp reported
      simp [enter_mem_subscriptions, SyntaxNode.nameSpace?_of_identity? named] at unwanted
    rw [atSite?, none', ite_self]

end Found

/-! ## Answers -/

/-- A path comes to the node that knows the local variables at its end: the last one that has local
variables of its own, or the first one. -/
structure Divides (path outside : List SyntaxNode) (scope : SyntaxNode) (inside : List SyntaxNode) :
    Prop where
  path_eq : path = outside ++ scope :: inside
  inside : ∀ n ∈ inside, ¬n.kind.ownsLocals
  scope : scope.kind.ownsLocals ∨ outside = []

section Divides

variable {root : SyntaxNode} {path : List SyntaxNode}

theorem Divides.localScope_eq {scope : SyntaxNode} {outside inside : List SyntaxNode}
    (divides : Divides path outside scope inside) (starts : path.head? = some root) :
    localScope root path = scope := by
  obtain ⟨rfl, inside_none, owns⟩ := divides
  have below : (inside.reverse.find? fun n => opensLocals n.kind) = none := by
    simpa [opensLocals_eq] using inside_none
  rw [localScope, List.reverse_append, List.reverse_cons, List.append_assoc, List.find?_append, below]
  rcases owns with owns | rfl
  · simp [opensLocals_eq, owns]
  · obtain rfl := Option.some.inj starts
    cases own : opensLocals scope.kind <;> simp [own]

theorem exists_divides (starts : path.head? = some root) :
    ∃ outside inside, Divides path outside (localScope root path) inside := by
  obtain ⟨rest, path_eq⟩ := List.head?_eq_some_iff.mp starts
  cases found : path.reverse.find? fun n => opensLocals n.kind with
  | none =>
      rw [localScope, found]
      simp only [opensLocals_eq, List.find?_eq_none, List.mem_reverse] at found
      refine ⟨[], rest, path_eq, fun n mem => found n ?_, .inr rfl⟩
      rw [path_eq]
      exact List.mem_cons_of_mem _ mem
  | some scope =>
      rw [localScope, found]
      simp only [opensLocals_eq, List.find?_eq_some_iff_append] at found
      obtain ⟨owns, below, above, reversed, first⟩ := found
      refine ⟨above.reverse, below.reverse, ?_, fun n mem => ?_, .inl owns⟩
      · rw [← List.reverse_reverse path, reversed]
        simp
      · simpa using first n (List.mem_reverse.mp mem)

end Divides

/-- How a node at a site of a source is reported. -/
structure Reports (w : Workspace) (s : Source) (t : Site) (h : Highlight) : Prop where
  range : h.range = w.toPositionRange s t.node.nameRange
  use : t.node.kind.occurrence? = some h.use

theorem highlightsWrites_iff (settings : Settings) :
    settings.highlightsWrites = true ↔ settings.highlightDefinitions ≠ some false := by
  rw [Settings.highlightsWrites]
  cases settings.highlightDefinitions with
  | none => simp
  | some shows => simp

theorem atSite?_isSome {settings : Settings} {symbol : Identity} {t : Site} :
    (atSite? symbol settings.highlightsWrites t).isSome ↔
      (settings.highlightDefinitions = some false → t.node.kind.occurrence? ≠ some .write) ∧
        t.node.identity? = some symbol ∧ Reaches symbol t := by
  rw [Option.isSome_iff_exists]
  simp only [atSite?, Option.ite_none_right_eq_some, reported?_eq_some]
  constructor
  · rintro ⟨⟨range, use⟩, reaches, named, classified, shows, -⟩
    refine ⟨fun off binds => ?_, named, reaches⟩
    rw [classified, Option.some.injEq] at binds
    exact (highlightsWrites_iff settings).mp (shows binds) off
  · rintro ⟨shows, named, reaches⟩
    have space : t.node.kind.nameSpace?.isSome := by
      rw [SyntaxNode.nameSpace?_of_identity? named, Option.isSome_some]
    obtain ⟨use, classified⟩ := Option.isSome_iff_exists.mp (SyntaxKind.occurrence?_isSome space)
    exact ⟨(t.node.nameRange, use), reaches, named, classified, fun binds =>
      (highlightsWrites_iff settings).mpr fun off => shows off (binds ▸ classified), rfl⟩

/-- What an answer about a symbol that is named at the end of a path lists, unless that is nothing. -/
def shown (w : Workspace) (s : Source) (path : List SyntaxNode) (symbol : Identity) : List Highlight :=
  let scope := scope symbol s.root path
  ((listener symbol w.settings.highlightsWrites).run (.start scope) scope).found.reverse.map
    fun (range, use) => ⟨w.toPositionRange s range, use⟩

theorem reports_shown (w : Workspace) (s : Source) (path : List SyntaxNode) (symbol : Identity) :
    let known := (scope symbol s.root path).sites.filter fun t =>
      t.node.identity? = some symbol ∧ Reaches symbol t
    List.Forall₂ (Reports w s)
      (known.filter fun t => w.settings.highlightDefinitions = some false →
        t.node.kind.occurrence? ≠ some .write) (shown w s path symbol) := by
  intro known
  rw [shown, found_run, List.map_filterMap, List.filter_filter, ← List.filterMap_eq_filter]
  refine forall₂_filterMap fun t _ => ?_
  -- The filter keeps the sites of which something is reported.
  simp only [Option.guard, Bool.and_eq_true, decide_eq_true_eq, ← atSite?_isSome]
  cases found : atSite? symbol w.settings.highlightsWrites t with
  | none => exact .none
  | some found =>
      obtain ⟨-, reported⟩ := Option.ite_none_right_eq_some.mp found
      obtain ⟨-, classified, -, range_eq⟩ := reported?_eq_some.mp reported
      exact .some ⟨range_eq ▸ rfl, classified⟩

theorem answer_eq {w : Workspace} {path : String} {s : Source} (loaded : w.source? path = some s)
    (p : Position) :
    let way := s.root.pathAt (w.toOffset s p)
    answer w path p = (way.getLast?.bind SyntaxNode.identity?).bind fun symbol =>
      if shown w s way symbol = [] then none else some (shown w s way symbol) := by
  intro way
  rw [answer, loaded]
  simp only [Option.bind_eq_bind, Option.bind_some, occurrences, occurrencesAlong, Option.bind_assoc]
  cases way.getLast? with
  | none => rfl
  | some target => simp [shown, way]

/-- An answer about highlights reports the nodes that stand for the symbol at a position, in the order of
the walk: all of them, or for a local variable those in its scope that are in no further definition.
Nodes that bind the symbol are left out if the settings tell so. Where no symbol is named, or nothing is
left to report, there is no answer. -/
theorem highlights_of_symbol {w : Workspace} {path : String} {s : Source}
    (loaded : w.source? path = some s) (p : Position) :
    let way := s.root.pathAt (w.toOffset s p)
    (way.getLast?.bind SyntaxNode.identity? = none →
      w.query (.highlight path p) = .highlights none) ∧
    ∀ symbol, way.getLast?.bind SyntaxNode.identity? = some symbol → ∃ known : List Site,
      (symbol.space ≠ .localVar → known = s.root.sites.filter (·.node.identity? = some symbol)) ∧
      (symbol.space = .localVar → ∃ outside scope inside, Divides way outside scope inside ∧
        known = scope.sites.filter fun t =>
          t.node.identity? = some symbol ∧ ∀ n ∈ t.around.tail, ¬n.kind.hidesLocals) ∧
      ∃ shown : List Highlight, w.query (.highlight path p) =
          .highlights (if shown = [] then none else some shown) ∧
        List.Forall₂ (Reports w s)
          (known.filter fun t => w.settings.highlightDefinitions = some false →
            t.node.kind.occurrence? ≠ some .write) shown := by
  intro way
  rw [show w.query (.highlight path p) = .highlights (answer w path p) from rfl, answer_eq loaded]
  refine ⟨fun none' => by rw [none']; rfl, fun symbol named => ?_⟩
  refine ⟨(scope symbol s.root way).sites.filter fun t =>
    t.node.identity? = some symbol ∧ Reaches symbol t,
    fun other => ?_, fun own => ?_, shown w s way symbol, ?_, ?_⟩
  · simp [scope, Reaches, Identity.isLocal, other]
  · have starts : way.head? = some s.root := by
      refine SyntaxNode.head?_pathAt fun none' => ?_
      rw [show way = [] from none'] at named
      cases named
    obtain ⟨outside, inside, divides⟩ := exists_divides starts
    refine ⟨outside, _, inside, divides, ?_⟩
    simp [scope, Reaches, Identity.isLocal, own]
  · rw [named]
    rfl
  · exact reports_shown w s way symbol

/-- A parameter is highlighted in its method, but not in a method nested in that. -/
theorem highlights_of_parameter :
    let param : SyntaxNode := ⟨.requiredParam, some "x", ⟨0, 0⟩, none, []⟩
    let read : SyntaxNode := ⟨.localVarRead, some "x", ⟨0, 0⟩, none, []⟩
    let nested : SyntaxNode := ⟨.methodDef, some "inner", ⟨0, 0⟩, none, [some read]⟩
    let method : SyntaxNode :=
      ⟨.methodDef, some "outer", ⟨0, 0⟩, none, [some param, none, some nested, some read]⟩
    let s := Source.new "app.rb" "" ⟨.program, none, ⟨0, 0⟩, none, [some method]⟩
    let w := (Workspace.empty .default).changes [.index s]
    ∃ shown, w.query (.highlight "app.rb" ⟨0, 0⟩) = .highlights (some shown) ∧
      List.Forall₂ (Reports w s) [⟨[0], [method], param⟩, ⟨[3], [method], read⟩] shown := by
  intro param read nested method s w
  have loaded : w.source? "app.rb" = some s :=
    ((Workspace.reflects_changes .default [.index s]).source? _ _).mpr
      ⟨by simp [WorkspaceIndex.live], rfl⟩
  obtain ⟨known, -, own, shown, answered, reports⟩ :=
    (highlights_of_symbol loaded ⟨0, 0⟩).2 ⟨.localVar, "x"⟩ rfl
  obtain ⟨outside, scope, inside, divides, known_eq⟩ := own rfl
  obtain rfl : method = scope := divides.localScope_eq rfl
  rw [show known = [⟨[0], [method], param⟩, ⟨[3], [method], read⟩] from known_eq] at reports
  have some_shown : shown ≠ [] := by
    rintro rfl
    cases reports
  rw [if_neg some_shown] at answered
  exact ⟨shown, answered, reports⟩

end Highlight

end CodeAtlas
