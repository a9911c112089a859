import CodeAtlas.PrefixIndex.Replacement

/-!
# The way down

On a graph in which a valid tree lives, each descent ends, and at the node to which the text leads.
-/

namespace CodeAtlas.PrefixIndex

open Text (commonPrefix byteLength)
open PrefixIndex.Tree (handle label)

variable {α : Type}

/-! ## Ways in a valid tree -/

namespace Tree

variable {h : Handle} {l rest : List Char} {w : Option α} {ts : List (Tree α)} {t u : Tree α}

theorem Valid.leads_nil (valid : t.Valid) : t.Leads [] u ↔ u = t := by
  constructor
  · generalize e : ([] : List Char) = rest
    intro leads
    cases leads with
    | here => rfl
    | child mem leads =>
        obtain ⟨ne, -⟩ := valid.child mem
        exact absurd (List.append_eq_nil_iff.mp e.symm).1 ne
  · rintro rfl
    exact .here

/-- Behind the edge that begins a text, the text leads on below that edge only. -/
theorem Valid.leads_append (valid : (node h l w ts).Valid) (mem : t ∈ ts) :
    (node h l w ts).Leads (t.label ++ rest) u ↔ t.Leads rest u := by
  refine ⟨?_, .child mem⟩
  obtain ⟨ne, -⟩ := valid.child mem
  generalize e : t.label ++ rest = way
  intro leads
  cases leads with
  | here => exact absurd (List.append_eq_nil_iff.mp e).1 ne
  | @child _ _ _ _ t' rest' _ mem' leads =>
      obtain ⟨ne', -⟩ := valid.child mem'
      have common : commonPrefix t.label (t.label ++ rest) ≠ [] := by
        rwa [Text.commonPrefix_append_self]
      have common' : commonPrefix t'.label (t.label ++ rest) ≠ [] := by
        rwa [e, Text.commonPrefix_append_self]
      have same : t' = t := valid.eq_of_common mem mem' common common'
      subst same
      rwa [List.append_cancel_left e]

theorem Valid.reaches_nil {way : List Char} (valid : t.Valid) :
    t.Reaches [] u way ↔ u = t ∧ way = [] := by
  constructor
  · generalize e : ([] : List Char) = rest
    intro reaches
    cases reaches with
    | here => exact ⟨rfl, rfl⟩
    | within _ _ ne => exact absurd e.symm ne
    | child mem _ =>
        obtain ⟨ne, -⟩ := valid.child mem
        exact absurd (List.append_eq_nil_iff.mp e.symm).1 ne
  · rintro ⟨rfl, rfl⟩
    exact .here

/-- Behind the edge that begins a text, the text ends below that edge only. -/
theorem Valid.reaches_append {way : List Char} (valid : (node h l w ts).Valid) (mem : t ∈ ts) :
    (node h l w ts).Reaches (t.label ++ rest) u way ↔
      ∃ way', way = t.label ++ way' ∧ t.Reaches rest u way' := by
  obtain ⟨ne, -⟩ := valid.child mem
  have common : commonPrefix t.label (t.label ++ rest) ≠ [] := by
    rwa [Text.commonPrefix_append_self]
  constructor
  · generalize e : t.label ++ rest = text at common
    intro reaches
    cases reaches with
    | here => exact absurd (List.append_eq_nil_iff.mp e).1 ne
    | @within _ _ _ _ _ _ back mem' label ne' ne'' =>
        have common' : commonPrefix u.label text ≠ [] := by
          rwa [label, Text.commonPrefix_comm, Text.commonPrefix_append_self]
        obtain rfl : u = t := valid.eq_of_common mem mem' common common'
        rw [← e, List.append_assoc, List.self_eq_append_right, List.append_eq_nil_iff] at label
        exact absurd label.2 ne''
    | @child _ _ _ _ t' rest' _ way' mem' reaches =>
        have common' : commonPrefix t'.label (t'.label ++ rest') ≠ [] := by
          rw [Text.commonPrefix_append_self]
          exact (valid.child mem').1
        obtain rfl : t' = t := valid.eq_of_common mem mem' common common'
        exact ⟨way', rfl, List.append_cancel_left e ▸ reaches⟩
  · rintro ⟨way', rfl, reaches⟩
    exact .child mem reaches

/-- A text that ends within an edge reaches the node to which the edge leads, and no other. -/
theorem Valid.reaches_within {way back : List Char} (valid : (node h l w ts).Valid) (mem : t ∈ ts)
    (label : t.label = rest ++ back) (ne : rest ≠ []) (ne' : back ≠ []) :
    (node h l w ts).Reaches rest u way ↔ u = t ∧ way = t.label := by
  have common : commonPrefix t.label rest ≠ [] := by
    rwa [label, Text.commonPrefix_comm, Text.commonPrefix_append_self]
  constructor
  · intro reaches
    cases reaches with
    | here => exact absurd rfl ne
    | @within _ _ _ _ _ _ back' mem' label' =>
        have common' : commonPrefix u.label rest ≠ [] := by
          rwa [label', Text.commonPrefix_comm, Text.commonPrefix_append_self]
        obtain rfl : u = t := valid.eq_of_common mem mem' common common'
        exact ⟨rfl, rfl⟩
    | @child _ _ _ _ t' rest' _ way' mem' reaches =>
        have common' : commonPrefix t'.label (t'.label ++ rest') ≠ [] := by
          rw [Text.commonPrefix_append_self]
          exact (valid.child mem').1
        obtain rfl : t' = t := valid.eq_of_common mem mem' common common'
        rw [List.append_assoc, List.self_eq_append_right, List.append_eq_nil_iff] at label
        exact absurd label.2 ne'
  · rintro ⟨rfl, rfl⟩
    exact .within mem label ne ne'

theorem not_reaches {way : List Char} (ne : rest ≠ [])
    (apart : ∀ t ∈ ts, ¬t.label <+: rest ∧ ¬rest <+: t.label) :
    ¬(node h l w ts).Reaches rest u way := by
  intro reaches
  cases reaches with
  | here => exact ne rfl
  | @within _ _ _ _ _ _ back mem label => exact (apart u mem).2 ⟨back, label.symm⟩
  | @child _ _ _ _ t' rest' _ _ mem => exact (apart t' mem).1 ⟨rest', rfl⟩

theorem LivesIn.reaches {nodes : Arena (Node α)} {parent : Option Handle} {way : List Char}
    (lives : t.LivesIn nodes parent) (reaches : t.Reaches rest u way) :
    ∃ p, u.LivesIn nodes p := by
  induction reaches generalizing parent with
  | here => exact ⟨parent, lives⟩
  | within mem => exact ⟨_, lives.child mem⟩
  | child mem reaches ih => exact ih (lives.child mem)

theorem LivesIn.leads {nodes : Arena (Node α)} {parent : Option Handle}
    (lives : t.LivesIn nodes parent) (leads : t.Leads rest u) : ∃ p, u.LivesIn nodes p := by
  induction leads generalizing parent with
  | here => exact ⟨parent, lives⟩
  | child mem leads ih => exact ih (lives.child mem)

end Tree

namespace Graph

variable {g : Graph α} {parent : Option Handle}

/-- The edge that a descent takes below a node of a tree. -/
theorem edge_eq {h : Handle} {l : List Char} {w : Option α} {ts : List (Tree α)}
    (lives : (Tree.node h l w ts).LivesIn g.nodes parent) (taken : List Char → Option Nat) :
    g.edge h taken =
      pure (ts.findSome? fun t => (taken t.label).map fun n => (t.handle, t.label, n)) := by
  have below : ∀ us : List (Tree α), (∀ u ∈ us, u.LivesIn g.nodes (some h)) →
      ((us.map handle).findSomeM? fun child => do
        let label := (← g.node child).label
        return (taken label).map fun n => (child, label, n)) =
      (pure (us.findSome? fun t => (taken t.label).map fun n => (t.handle, t.label, n)) :
        Run (Option (Handle × List Char × Nat))) := by
    intro us
    induction us with
    | nil => exact fun _ => rfl
    | cons u us ih =>
        intro hus
        have here := (hus u (by simp)).get?_handle
        simp only [List.map_cons, List.findSomeM?, node_eq here, pure_bind, List.findSome?_cons]
        cases taken u.label with
        | none => exact ih fun t ht => hus t (by simp [ht])
        | some n => rfl
  simp only [edge, node_eq lives.get?, pure_bind]
  exact below ts fun t ht => lives.child ht

/-- A descent ends at the node to which the text leads. -/
theorem findBelow_eq {t : Tree α} (lives : t.LivesIn g.nodes parent) (valid : t.Valid)
    (rest : List Char) :
    ∃ o : Option (Tree α), g.findBelow t.handle rest = pure (o.map handle) ∧
      ∀ u, o = some u ↔ t.Leads rest u := by
  induction valid generalizing parent rest with
  | @intro h l w ts labelled alive apart below ih =>
      have valid : (Tree.node h l w ts).Valid := .intro labelled alive apart below
      by_cases e : rest = []
      · subst e
        refine ⟨some (.node h l w ts), by rw [findBelow]; simp, fun u => ?_⟩
        rw [valid.leads_nil, Option.some.injEq, eq_comm]
      · rw [findBelow, if_neg e]
        simp only [Tree.handle_node, edge_eq lives, pure_bind]
        cases found : ts.findSome? fun t => Option.map (fun n => (t.handle, t.label, n))
            (if t.label.isPrefixOf rest = true then some (byteLength t.label) else none) with
        | none =>
            refine ⟨none, rfl, fun u => ⟨fun h => by simp at h, fun leads => ?_⟩⟩
            cases leads with
            | here => exact absurd rfl e
            | @child _ _ _ _ t rest' _ mem leads =>
                have := List.findSome?_eq_none_iff.mp found t mem
                simp at this
        | some edge =>
            obtain ⟨t, mem, taken⟩ := List.exists_of_findSome?_eq_some found
            by_cases front : t.label.isPrefixOf rest = true
            · obtain ⟨back, rfl⟩ := List.isPrefixOf_iff_prefix.mp front
              simp only [front, if_true, Option.map_some, Option.some.injEq] at taken
              subst taken
              obtain ⟨o, run, reached⟩ := ih t mem (lives.child mem) back
              refine ⟨o, ?_, fun u => (reached u).trans (valid.leads_append mem).symm⟩
              simpa only [cut_append, pure_bind] using run
            · simp [front] at taken

@[simp]
theorem reachBelow_nil (g : Graph α) (h : Handle) (key : List Char) :
    g.reachBelow h key [] = pure (some (h, key)) := by
  rw [reachBelow, if_pos rfl]

/-- A descent for a listing ends at the node to which the text leads, or to whose edge it does. -/
theorem reachBelow_eq {t : Tree α} (lives : t.LivesIn g.nodes parent) (valid : t.Valid)
    (key rest : List Char) :
    ∃ o : Option (Tree α × List Char),
      g.reachBelow t.handle key rest = pure (o.map fun top => (top.1.handle, key ++ top.2)) ∧
        ∀ u way, o = some (u, way) ↔ t.Reaches rest u way := by
  induction valid generalizing parent key rest with
  | @intro h l w ts labelled alive apart below ih =>
      have valid : (Tree.node h l w ts).Valid := .intro labelled alive apart below
      by_cases e : rest = []
      · subst e
        refine ⟨some (.node h l w ts, []), by simp, fun u way => ?_⟩
        rw [valid.reaches_nil, Option.some.injEq, Prod.mk.injEq, eq_comm, eq_comm (a := way)]
      · rw [reachBelow, if_neg e]
        simp only [Tree.handle_node, edge_eq lives, pure_bind]
        cases found : ts.findSome? fun t => Option.map (fun n => (t.handle, t.label, n))
            (if t.label.isPrefixOf rest = true then some (byteLength t.label)
              else if rest.isPrefixOf t.label = true then some (byteLength rest) else none) with
        | none =>
            have apart : ∀ t ∈ ts, ¬t.label <+: rest ∧ ¬rest <+: t.label := fun t mem => by
              have none' := List.findSome?_eq_none_iff.mp found t mem
              rw [← List.isPrefixOf_iff_prefix, ← List.isPrefixOf_iff_prefix]
              split at none'
              · cases none'
              · split at none'
                · cases none'
                · exact ⟨‹_›, ‹_›⟩
            exact ⟨none, rfl, fun u way =>
              iff_of_false (Option.some_ne_none _).symm (Tree.not_reaches e apart)⟩
        | some edge =>
            -- The first edge that fits is the only one that does: no two edges of a node begin alike.
            obtain ⟨t, mem, taken⟩ := List.exists_of_findSome?_eq_some found
            by_cases front : t.label.isPrefixOf rest = true
            · obtain ⟨back, rfl⟩ := List.isPrefixOf_iff_prefix.mp front
              simp only [front, if_true, Option.map_some, Option.some.injEq] at taken
              subst taken
              obtain ⟨o, run, reached⟩ := ih t mem (lives.child mem) (key ++ t.label) back
              refine ⟨o.map fun top => (top.1, t.label ++ top.2), ?_, fun u way => ?_⟩
              · simp only [cut_append, pure_bind, run]
                cases o <;> simp
              · rw [valid.reaches_append mem]
                simp only [Option.map_eq_some_iff, Prod.exists, Prod.mk.injEq, reached]
                constructor
                · rintro ⟨u', way', reaches, rfl, rfl⟩
                  exact ⟨way', rfl, reaches⟩
                · rintro ⟨way', rfl, reaches⟩
                  exact ⟨u, way', reaches, rfl, rfl⟩
            · by_cases within : rest.isPrefixOf t.label = true
              · obtain ⟨back, label⟩ := List.isPrefixOf_iff_prefix.mp within
                have ne : back ≠ [] := by
                  rintro rfl
                  exact front (by rw [← label]; simp)
                simp only [front, if_false, within, if_true, Option.map_some, Option.some.injEq,
                  Bool.false_eq_true] at taken
                subst taken
                have whole : cut (byteLength rest) rest = pure (rest, []) := by
                  simpa using cut_append rest []
                refine ⟨some (t, t.label), by simp [whole], fun u way => ?_⟩
                rw [valid.reaches_within mem label.symm e ne, Option.some.injEq, Prod.mk.injEq,
                  eq_comm, eq_comm (a := way)]
              · simp [front, within] at taken

end Graph

end CodeAtlas.PrefixIndex
