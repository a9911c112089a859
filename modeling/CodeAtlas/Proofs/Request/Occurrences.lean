import CodeAtlas.Proofs.Request.Highlight

/-!
# Highlights are the same from each place

A place that a search for a symbol finds has the symbol searched for in the same scope: the nodes between
the scope and the place hide no local variables, so the scope is the innermost one around the place, too.
Whichever of its places a symbol is named at, the highlights are the same.
-/

namespace CodeAtlas

/-! ## Paths of sites -/

namespace SyntaxNode

variable {root : SyntaxNode} {t : Site}

theorem head?_path (mem : t ∈ root.sites) : t.path.head? = some root := by
  obtain ⟨place, around, node⟩ := t
  cases mem_sites.mp mem with
  | here => rfl
  | step slot way => rfl

theorem Site.mem_around_of_path {above n : SyntaxNode} {below : List SyntaxNode}
    (path_eq : t.path = above :: below) (mem : n ∈ below) : n ∈ t.around.tail ∨ n = t.node := by
  obtain ⟨place, around, node⟩ := t
  cases around with
  | nil =>
      cases path_eq
      cases mem
  | cons m around =>
      obtain ⟨-, rfl⟩ := List.cons.inj path_eq
      simpa using mem

theorem path_eq_append {start b : Site} (start_mem : start ∈ root.sites)
    (t_mem : t ∈ start.node.sites) (b_mem : b ∈ root.sites)
    (place_eq : b.place = start.place ++ t.place) : b.path = start.around ++ t.path := by
  have way := mem_sites.mp b_mem
  rw [place_eq] at way
  obtain ⟨around_eq, node_eq⟩ := way.unique ((mem_sites.mp start_mem).trans (mem_sites.mp t_mem))
  rw [Site.path, Site.path, around_eq, node_eq, List.append_assoc]

/-- A tree has no root of a file but at its own root. -/
def ProgramOnTop (root : SyntaxNode) : Prop :=
  ∀ t ∈ root.sites, t.node.kind = .program → t.place = []

theorem ProgramOnTop.not_below (top : root.ProgramOnTop) (mem : t ∈ root.sites)
    {above inside : List SyntaxNode} {n m : SyntaxNode} (path_eq : t.path = above ++ n :: inside)
    (below : m ∈ inside) : m.kind ≠ .program := by
  intro program
  obtain ⟨before, after, rfl⟩ := List.append_of_mem below
  have divided : t.around ++ [t.node] = (above ++ n :: before) ++ m :: after := by
    rw [List.append_assoc]
    exact path_eq
  obtain ⟨way, -⟩ := (mem_sites.mp mem).divide divided
  -- The node stands at the end of a way that is not empty.
  have place_eq : t.place.take (above ++ n :: before).length = [] :=
    top ⟨_, _, m⟩ (mem_sites.mpr way) program
  have length_eq := way.length_eq
  rw [place_eq, List.length_append] at length_eq
  cases length_eq

end SyntaxNode

namespace Highlight

open SyntaxNode (Visit Site)

/-! ## Where searches start -/

/-- A search for the symbol named at a site starts at another site: at the root, or for a local variable
at the innermost node around that has local variables of its own. -/
inductive StartsAt (root : SyntaxNode) (symbol : Identity) (a : Site) : Site → Prop
  | top (other : ¬symbol.isLocal) : StartsAt root symbol a ⟨[], [], root⟩
  | inner (known : symbol.isLocal) {outside inside : List SyntaxNode} {scope : SyntaxNode}
      (divides : Divides a.path outside scope inside) :
      StartsAt root symbol a ⟨a.place.take outside.length, outside, scope⟩

section StartsAt

variable {root : SyntaxNode} {symbol : Identity} {a start : Site}

theorem StartsAt.mem (starts : StartsAt root symbol a start) (mem : a ∈ root.sites) :
    start ∈ root.sites := by
  cases starts with
  | top other => exact SyntaxNode.mem_sites.mpr (.here root)
  | inner known divides =>
      exact SyntaxNode.mem_sites.mpr ((SyntaxNode.mem_sites.mp mem).divide divides.path_eq).1

theorem StartsAt.scope_eq (starts : StartsAt root symbol a start) (mem : a ∈ root.sites) :
    scope symbol root a.path = start.node := by
  cases starts with
  | top other => rw [Highlight.scope, if_neg other]
  | inner known divides =>
      rw [Highlight.scope, if_pos known, divides.localScope_eq (SyntaxNode.head?_path mem)]

end StartsAt

/-! ## What is found from another place -/

/-- The search for the symbol named at the site `a` is told of the node at the site `b`, and finds it. -/
structure Finds (root : SyntaxNode) (symbol : Identity) (a b : Site) (use : Occurrence) : Prop where
  named : a.node.identity? = some symbol
  told : ∃ start way s, StartsAt root symbol a start ∧ b.place = start.place ++ way ∧
    let scope := scope symbol root a.path
    let l := listener symbol true
    (s, ⟨way, .enter b.node.kind, b.node⟩) ∈ l.trace (.start scope) scope.visits ∧
      (l.handle s (.enter b.node.kind) b.node).found = (b.node.nameRange, use) :: s.found

theorem added?_of_found {symbol : Identity} {writes : Bool} {s : Search} {event : Event}
    {n : SyntaxNode} {found : ByteRange × Occurrence}
    (finds : (handle symbol writes s event n).found = found :: s.found) :
    added? symbol writes s.nesting event n = some found := by
  rw [found_handle] at finds
  cases added : added? symbol writes s.nesting event n with
  | none =>
      rw [added] at finds
      exact absurd finds (List.cons_ne_self _ _).symm
  | some found' =>
      rw [added] at finds
      exact congrArg some (List.cons.inj finds).1

/-- A node that a search finds when it is told of it stands at a site that the search reaches. -/
theorem exists_site_of_found {symbol : Identity} {writes : Bool} {scope n : SyntaxNode} {s : Search}
    {way : List Nat} {found : ByteRange × Occurrence}
    (told : (s, ⟨way, .enter n.kind, n⟩) ∈ (listener symbol writes).trace (.start scope) scope.visits)
    (finds : (handle symbol writes s (.enter n.kind) n).found = found :: s.found) :
    ∃ t ∈ scope.sites, t.place = way ∧ t.node = n ∧ Reaches symbol t ∧ n.identity? = some symbol := by
  obtain ⟨-, entered⟩ := passes_visitsAt symbol writes (Search.start scope).nesting [] [] scope
    (.start scope) (by simp [counted])
  have mem : (s.nesting, ⟨way, .enter n.kind, n⟩) ∈
      entriesOf symbol writes (Search.start scope).nesting scope.sites := by
    rw [SyntaxNode.sites, ← entered]
    exact List.mem_filterMap.mpr ⟨_, told, rfl⟩
  obtain ⟨t, t_mem, entry_eq⟩ := List.mem_map.mp mem
  obtain ⟨nesting_eq, visit_eq⟩ := Prod.mk.inj entry_eq
  obtain rfl : t.node = n := congrArg Visit.node visit_eq
  have added := added?_of_found finds
  rw [← nesting_eq, added?_site symbol writes (List.mem_of_mem_filter t_mem)] at added
  obtain ⟨reaches, reported⟩ := Option.ite_none_right_eq_some.mp added
  exact ⟨t, List.mem_of_mem_filter t_mem, congrArg Visit.place visit_eq, rfl, reaches,
    (reported?_eq_some.mp reported).1⟩

/-- The scope that a search starts from is the innermost one around the places it reaches, too. -/
theorem divides_of_reaches {root : SyntaxNode} (top : root.ProgramOnTop) {symbol : Identity}
    (known : symbol.isLocal) {start t b : Site} (start_mem : start ∈ root.sites)
    (owns : start.node.kind.ownsLocals ∨ start.around = []) (t_mem : t ∈ start.node.sites)
    (reaches : Reaches symbol t) (named : t.node.identity? = some symbol) (b_mem : b ∈ root.sites)
    (place_eq : b.place = start.place ++ t.place) :
    ∃ below, Divides b.path start.around start.node below := by
  obtain ⟨below, below_eq⟩ := List.head?_eq_some_iff.mp (SyntaxNode.head?_path t_mem)
  have path_eq : b.path = start.around ++ start.node :: below := by
    rw [SyntaxNode.path_eq_append start_mem t_mem b_mem place_eq, below_eq]
  refine ⟨below, path_eq, fun n mem => ?_, owns⟩
  -- A node below the scope with local variables of its own is on top of a file, or hides the place.
  rw [SyntaxKind.ownsLocals_iff, not_or]
  refine ⟨top.not_below b_mem path_eq mem, fun hides => ?_⟩
  rcases SyntaxNode.Site.mem_around_of_path below_eq mem with between | rfl
  · exact reaches known n between hides
  · exact Bool.false_ne_true
      (ownsLocals_of_local known named ▸ SyntaxKind.ownsLocals_of_hidesLocals hides)

theorem Finds.startsAt {root : SyntaxNode} (top : root.ProgramOnTop) {symbol : Identity} {a b : Site}
    {use : Occurrence} (finds : Finds root symbol a b use) (a_mem : a ∈ root.sites)
    (b_mem : b ∈ root.sites) : b.node.identity? = some symbol ∧
      ∃ start, StartsAt root symbol a start ∧ StartsAt root symbol b start := by
  obtain ⟨named, start, way, s, starts, place_eq, told, found⟩ := finds
  obtain ⟨t, t_mem, rfl, node_eq, reaches, named'⟩ := exists_site_of_found told found
  refine ⟨named', start, starts, ?_⟩
  rw [starts.scope_eq a_mem] at t_mem
  have start_mem := starts.mem a_mem
  cases starts with
  | top other => exact .top other
  | @inner known outside inside scope divides =>
      obtain ⟨below, divides'⟩ := divides_of_reaches top known start_mem divides.scope t_mem reaches
        (node_eq ▸ named') b_mem place_eq
      have start_eq : b.place.take outside.length = a.place.take outside.length := by
        rw [place_eq]
        exact List.take_left' (SyntaxNode.mem_sites.mp start_mem).length_eq
      rw [← start_eq]
      exact .inner known divides'

theorem occurrencesAlong_path {root : SyntaxNode} {writes : Bool} {symbol : Identity} {t : Site}
    (named : t.node.identity? = some symbol) :
    let scope := scope symbol root t.path
    occurrencesAlong root writes t.path =
      some ((listener symbol writes).run (.start scope) scope).found.reverse := by
  simp [occurrencesAlong, Site.path, named]

/-- The highlights of a symbol are the same from each place that is found: the search from there starts in
the same scope, and finds the same places. -/
theorem occurrences_from_found {root : SyntaxNode} (top : root.ProgramOnTop) {symbol : Identity}
    {a b : Site} {use : Occurrence} (a_mem : a ∈ root.sites) (b_mem : b ∈ root.sites)
    (finds : Finds root symbol a b use) :
    (∃ start, StartsAt root symbol a start ∧ StartsAt root symbol b start) ∧
      b.node.identity? = some symbol ∧
      scope symbol root b.path = scope symbol root a.path ∧
      (∀ writes, occurrencesAlong root writes b.path = occurrencesAlong root writes a.path) ∧
      ∀ (w : Workspace) path (s : Source), w.source? path = some s → s.root = root → ∀ p q,
        root.pathAt (w.toOffset s p) = a.path → root.pathAt (w.toOffset s q) = b.path →
          w.query (.highlight path q) = w.query (.highlight path p) := by
  obtain ⟨named, start, starts, starts'⟩ := finds.startsAt top a_mem b_mem
  have same : scope symbol root b.path = scope symbol root a.path := by
    rw [starts.scope_eq a_mem, starts'.scope_eq b_mem]
  have along (writes : Bool) :
      occurrencesAlong root writes b.path = occurrencesAlong root writes a.path := by
    rw [occurrencesAlong_path named, occurrencesAlong_path finds.named, same]
  refine ⟨⟨start, starts, starts'⟩, named, same, along, ?_⟩
  intro w path s loaded root_eq p q p_path q_path
  subst root_eq
  simp only [Workspace.query, answer, loaded, occurrences, Option.bind_eq_bind, Option.bind_some, p_path,
    q_path, along]

/-- From where a parameter is read, the places are found that are found from the parameter itself. -/
theorem occurrences_from_read_of_parameter :
    let param : SyntaxNode := ⟨.requiredParam, some "x", ⟨6, 7⟩, none, []⟩
    let read : SyntaxNode := ⟨.localVarRead, some "x", ⟨9, 10⟩, none, []⟩
    let nested : SyntaxNode := ⟨.classDef, some "C", ⟨12, 20⟩, none, [some read]⟩
    let method : SyntaxNode := ⟨.methodDef, some "f", ⟨0, 24⟩, none, [some param, some nested, some read]⟩
    let root : SyntaxNode := ⟨.program, none, ⟨0, 24⟩, none, [some method]⟩
    occurrencesAlong root true [root, method, read] = occurrencesAlong root true [root, method, param] ∧
      occurrencesAlong root true [root, method, read] = some [(⟨6, 7⟩, .write), (⟨9, 10⟩, .read)] := by
  intro param read nested method root
  let a : Site := ⟨[0, 0], [root, method], param⟩
  let b : Site := ⟨[0, 2], [root, method], read⟩
  have top : root.ProgramOnTop := by
    unfold SyntaxNode.ProgramOnTop
    decide
  have a_mem : a ∈ root.sites := List.mem_of_getElem? (i := 2) rfl
  have b_mem : b ∈ root.sites := List.mem_of_getElem? (i := 5) rfl
  have divides : Divides a.path [root] method [param] := ⟨rfl, by decide, .inl rfl⟩
  have finds : Finds root ⟨.localVar, "x"⟩ a b .read := by
    refine ⟨rfl, _, [2], ⟨1, [(⟨6, 7⟩, .write)]⟩, .inner rfl divides, rfl, ?_, rfl⟩
    exact List.mem_of_getElem? (i := 5) rfl
  have same := (occurrences_from_found top a_mem b_mem finds).2.2.2.1 true
  refine ⟨same, same.trans ?_⟩
  rw [occurrencesAlong_path finds.named, found_run]
  rfl

end Highlight

end CodeAtlas
