import Shading.Extract.Stage

/-!
# What an extractor remembers

Requests of any kind and order are put to one extractor. Two extractors answer alike if they
are the same, or if neither knows a declaration: that is what a load that failed leaves, whose
items and span are there all the same. Hence an answer depends on the last load alone.
-/

namespace Shading

namespace Extractor

/-- What an extractor is asked. -/
inductive Request where
  | load (tree : Stmt)
  | clear
  | stages
  | extract (stage : Stage)

/-- What it answers. -/
inductive Answer where
  | loaded (result : Except ExtractError Unit)
  | cleared
  | stages (stages : List Stage)
  | extracted (result : Except ExtractError ExtractedStage)

/-- The answer to a request and the extractor after it. -/
def serve (x : Extractor) : Request → Answer × Extractor
  | .load tree => (.loaded (x.load tree).1, (x.load tree).2)
  | .clear => (.cleared, x.clear)
  | .stages => (.stages x.stages, x)
  | .extract stage => (.extracted (x.extract stage), x)

/-- The answers to some requests in their order. -/
def answers (x : Extractor) : List Request → List Answer
  | [] => []
  | r :: rest => (x.serve r).1 :: (x.serve r).2.answers rest

/-- The extractor after some requests, given the last one first. -/
def after : List Request → Extractor
  | [] => empty
  | r :: earlier => ((after earlier).serve r).2

/-- Whether a new extractor takes the tree. -/
def accepts (tree : Stmt) : Bool :=
  match (empty.load tree).1 with
  | .ok () => true
  | .error _ => false

/-- The tree that the last load took, if it took one and nothing was cleared after it. The
requests are given the last one first. -/
def lastLoad? : List Request → Option Stmt
  | [] => none
  | .load tree :: _ => if accepts tree then some tree else none
  | .clear :: _ => none
  | .stages :: earlier | .extract _ :: earlier => lastLoad? earlier

/-- A new extractor on which one load was performed, or none at all. -/
def fresh : Option Stmt → Extractor
  | none => empty
  | some tree => (empty.load tree).2

/-- Nothing that was loaded is left. -/
theorem clear_eq_empty (x : Extractor) : x.clear = empty := rfl

/-- A load has the same result and leaves the same behind, whatever was loaded before. -/
theorem load_eq (x : Extractor) (tree : Stmt) : x.load tree = empty.load tree := by
  rw [load, load, clear_eq_empty, clear_eq_empty]

/-- The extractor of a tree is what a load of it leaves, where it succeeds. -/
theorem ofTree_eq_load (x : Extractor) (tree : Stmt) :
    ofTree tree = (x.load tree).1.map fun _ => (x.load tree).2 := by
  rw [load_eq]
  cases hbuild : DeclarationIndex.build (flatten tree) with
  | ok index => simp [ofTree, load, clear, hbuild, bind, Except.bind, pure, Except.pure, Except.map]
  | error e => simp [ofTree, load, clear, hbuild, bind, Except.bind, Except.map]

/-- The extractors are the same, or neither knows a declaration. -/
def Alike (x y : Extractor) : Prop :=
  x = y ∨ (x.index = DeclarationIndex.empty ∧ y.index = DeclarationIndex.empty)

section Unknown

variable {x : Extractor} (h : x.index = DeclarationIndex.empty)
include h

/-- An empty index has no stages. -/
theorem stages_of_index_empty : x.stages = [] := by
  rw [stages, h]
  rfl

theorem extract_of_index_empty (stage : Stage) :
    x.extract stage = .error (.stageNotFound stage) := by
  have hentry : x.entryFunction stage = .error (.stageNotFound stage) := by
    rw [entryFunction, h]
    rfl
  rw [extract, hentry]
  rfl

end Unknown

namespace Alike

variable {x y : Extractor}

/-- Extractors that are alike list the same stages. -/
theorem stages_eq (h : Alike x y) : x.stages = y.stages := by
  rcases h with rfl | ⟨hx, hy⟩
  · rfl
  · rw [stages_of_index_empty hx, stages_of_index_empty hy]

/-- Extractors that are alike extract the same. -/
theorem extract_eq (h : Alike x y) (stage : Stage) : x.extract stage = y.extract stage := by
  rcases h with rfl | ⟨hx, hy⟩
  · rfl
  · rw [extract_of_index_empty hx, extract_of_index_empty hy]

end Alike

/-- A load forgets what was loaded before; one that fails leaves no declaration. -/
theorem alike_load (x : Extractor) (tree : Stmt) :
    Alike (x.load tree).2 (fresh (if accepts tree then some tree else none)) := by
  rw [load_eq]
  cases hbuild : DeclarationIndex.build (flatten tree) with
  | ok index =>
      have haccepts : accepts tree = true := by simp [accepts, load, clear, hbuild]
      rw [if_pos haccepts]
      exact .inl rfl
  | error e =>
      have haccepts : accepts tree = false := by simp [accepts, load, clear, hbuild]
      have hload : (empty.load tree).2.index = DeclarationIndex.empty := by
        simp [load, clear, hbuild]
      rw [if_neg (by simp [haccepts])]
      exact .inr ⟨hload, rfl⟩

/-- After any requests an extractor is like a new one on which only the last load was
performed. -/
theorem alike_after (earlier : List Request) :
    Alike (after earlier) (fresh (lastLoad? earlier)) := by
  induction earlier with
  | nil => exact .inl rfl
  | cons r earlier ih =>
      cases r with
      | load tree => exact alike_load (after earlier) tree
      | clear => exact .inl (clear_eq_empty (after earlier))
      | stages => exact ih
      | extract stage => exact ih

/-- The request after some others is put to the extractor that they leave. -/
theorem getElem?_answers (x : Extractor) (before rest : List Request) (r : Request) :
    (x.answers (before ++ r :: rest))[before.length]? =
      some ((before.foldl (fun x r => (x.serve r).2) x).serve r).1 := by
  induction before generalizing x with
  | nil => rfl
  | cons b before ih => exact ih (x.serve b).2

/-- The state after some requests is a fold over them, the last one of the list first. -/
theorem after_eq_foldr (earlier : List Request) :
    after earlier = earlier.foldr (fun r x => (x.serve r).2) empty := by
  induction earlier with
  | nil => rfl
  | cons r earlier ih => rw [after, ih, List.foldr_cons]

theorem foldl_serve (before : List Request) :
    before.foldl (fun x r => (x.serve r).2) empty = after before.reverse := by
  rw [after_eq_foldr, List.foldr_reverse]

/-- Whatever was asked of a new extractor before and is asked of it afterwards, it gives the
stages, and extracts a stage, as a new one does on which only the last load was performed, if
that load succeeded and nothing was cleared after it. Otherwise it answers as a new one, which
has no stages and finds none. -/
theorem answers_lastLoad (before rest : List Request) :
    (empty.answers (before ++ .stages :: rest))[before.length]? =
        some (.stages (fresh (lastLoad? before.reverse)).stages) ∧
      (∀ stage, (empty.answers (before ++ .extract stage :: rest))[before.length]? =
        some (.extracted ((fresh (lastLoad? before.reverse)).extract stage))) ∧
      empty.stages = [] ∧ ∀ stage, empty.extract stage = .error (.stageNotFound stage) := by
  have halike := alike_after before.reverse
  refine ⟨?_, ?_, stages_of_index_empty rfl, extract_of_index_empty rfl⟩
  · rw [getElem?_answers, foldl_serve, serve, halike.stages_eq]
  · intro stage
    rw [getElem?_answers, foldl_serve, serve, halike.extract_eq]

end Extractor

end Shading
