import CodeAtlas.Proofs.PrefixIndex.Soundness
import CodeAtlas.Proofs.Text.CommonPrefix

/-!
# The cuts of an insertion

An insertion cuts what is left of the key where it follows or leaves an edge, and it divides the label of the
edge that it leaves. Here its notes of the cuts are a log. On the graphs of prefix indexes each text of the log
is cut between two characters, and of a label something is left on both sides.
-/

namespace CodeAtlas.PrefixIndex

variable {α : Type} {g : Graph α} {t : Tree α}

namespace Graph

/-- An insertion that keeps a log of its cuts. -/
def insertLogged (g : Graph α) (key : String) (v : α) : Noting (List Cut) (Option α × Graph α) :=
  g.insertNoting (fun c log => log ++ [c]) key v

/-- With a log or without one an insertion does the same, and the log holds clean cuts. -/
theorem Bears.insertLogged_eq (bears : g.Bears t) (key : String) (v : α) :
    ∃ old g' cuts, g.insert key v = pure (old, g') ∧
      (g.insertLogged key v).run [] = pure ((old, g'), cuts) ∧ ∀ c ∈ cuts, c.IsClean := by
  obtain ⟨cuts, old, g', t', run, clean, -⟩ := bears.insertNoting_eq key v
  have log : cuts.foldl (fun log c => log ++ [c]) [] = cuts := by
    rw [List.foldl_append_eq_append, ← List.flatMap_def, List.flatMap_singleton', List.nil_append]
  refine ⟨old, g', cuts, insert_of_noteAll (run _), ?_, clean⟩
  rw [insertLogged, run, run_noteAll, log]

end Graph

/-- Two texts begin alike up to the offset that a walk through both of them finds. Whatever edits an index has
undergone, an insertion cuts texts between characters only, and divides no label so that a part of it is
empty. -/
theorem cuts_clean :
    (∀ s t : String, Text.AlikeUpTo s t (Text.commonPrefixLength s.toList t.toList) ∧
      Text.commonPrefixLength s.toList t.toList = Text.partingOffset s.toList t.toList) ∧
    ∀ (es : List (Edit α)) (key : String) (v : α), ∃ answers g old g' cuts,
      Graph.empty.edits es = pure (answers, g) ∧ g.insert key v = pure (old, g') ∧
      (g.insertLogged key v).run [] = pure ((old, g'), cuts) ∧ ∀ c ∈ cuts, c.IsClean := by
  refine ⟨fun s t => ⟨Text.alikeUpTo_commonPrefixLength s t, (Text.partingOffset_eq _ _).symm⟩,
    fun es key v => ?_⟩
  let ix := (empty.edits es).2
  obtain ⟨t, bears⟩ := ix.shaped
  obtain ⟨old, g', cuts, run, logged, clean⟩ := bears.insertLogged_eq key v
  exact ⟨_, ix.graph, old, g', cuts, graph_edits empty es, run, logged, clean⟩

/-- The keys have three characters in common, of which the first takes two bytes. -/
theorem cuts_of_umlauts :
    let g : Graph Nat :=
      ⟨⟨#[some ⟨[], none, [⟨1⟩], none⟩, some ⟨"über".toList, some 1, [], some ⟨0⟩⟩], []⟩, ⟨0⟩, 1⟩
    let g' : Graph Nat :=
      ⟨⟨#[some ⟨[], none, [⟨2⟩], none⟩, some ⟨"r".toList, some 1, [], some ⟨2⟩⟩,
        some ⟨"übe".toList, none, [⟨1⟩, ⟨3⟩], some ⟨0⟩⟩, some ⟨"n".toList, some 2, [], some ⟨2⟩⟩], []⟩, ⟨0⟩, 2⟩
    let cuts : List Cut := [.key "üben".toList 4, .label "über".toList 4]
    Graph.empty.edits [.insert "über" 1] = pure ([none], g) ∧
      (g.insertLogged "üben" 2).run [] = pure ((none, g'), cuts) ∧ ∀ c ∈ cuts, c.IsClean := by
  intro g g' cuts
  have edited : Graph.empty.edits [.insert "über" 1] = pure ([none], g) := by
    rw [Graph.edits, Graph.edit, Graph.insert, Graph.insertNoting, Graph.insertBelow]
    rfl
  have logged : (g.insertLogged "üben" 2).run [] = pure ((none, g'), cuts) := by
    rw [Graph.insertLogged, Graph.insertNoting, Graph.insertBelow]
    rfl
  obtain ⟨answers, g₁, old, g₂, cuts₁, edited₁, -, logged₁, clean⟩ := cuts_clean.2 [.insert "über" 1] "üben" 2
  rw [edited, Run.pure_inj] at edited₁
  cases edited₁
  rw [logged, Run.pure_inj] at logged₁
  cases logged₁
  exact ⟨edited, logged, clean⟩

end CodeAtlas.PrefixIndex
