import Shading.Proofs.Extract.Interface
import Shading.Session

/-!
# The reflections that an instance keeps

Requests of any kind and order are put to one instance, with any settings and assemblers. A step
keeps the tree and the extractor and remembers nothing but reflections that a new extraction
gives, whether it succeeds in the end or not. Hence the reflections of a run are always those of
new extractions, and no answer of the run depends on them.
-/

namespace Shading

namespace Instance

/-- What an instance is asked. -/
inductive Request where
  | extract (stage : Stage)
  | reflection (stage : Stage)
  | glsl (stage : Stage) (settings : Glsl.Settings)
  | spirv (stage : Stage) (assembler : Spirv.Assembler)
  | clear

/-- What it answers. -/
inductive Answer where
  | tree (result : Except CompileError Stmt)
  | reflection (result : Except CompileError Reflection)
  | text (result : Except CompileError String)
  | words (result : Except CompileError (List UInt32))
  | cleared

/-- The answer to a request and the instance after it. -/
def serve (i : Instance) : Request → Answer × Instance
  | .extract stage => (.tree (extract stage i).1, (extract stage i).2)
  | .reflection stage => (.reflection (reflection stage i).1, (reflection stage i).2)
  | .glsl stage settings => (.text (glsl stage settings i).1, (glsl stage settings i).2)
  | .spirv stage assembler => (.words (spirv stage assembler i).1, (spirv stage assembler i).2)
  | .clear => (.cleared, i.clear)

/-- The answers to some requests in their order. -/
def answers (i : Instance) : List Request → List Answer
  | [] => []
  | r :: rest => (i.serve r).1 :: (i.serve r).2.answers rest

/-- The instance after some requests. -/
def after (i : Instance) (requests : List Request) : Instance :=
  requests.foldl (fun i r => (i.serve r).2) i

/-- The instance has the tree and the extractor of a new one, and every reflection in it is
that of an extraction. No stage has two. -/
structure Coherent (new i : Instance) : Prop where
  tree : i.tree = new.tree
  extractor : i.extractor = new.extractor
  extracted : ∀ stage r, (stage, r) ∈ i.reflections →
    ∃ out, new.extractor.extract stage = .ok out ∧ out.reflection = r
  distinct : (i.reflections.map Prod.fst).Nodup

namespace Coherent

variable {new i : Instance}

theorem refl (h : new.reflections = []) : Coherent new new := by
  refine ⟨rfl, rfl, ?_, ?_⟩ <;> simp [h]

theorem clear (h : Coherent new i) : Coherent new i.clear :=
  ⟨h.tree, h.extractor, by simp [Instance.clear], by simp [Instance.clear]⟩

/-- Remembering the reflection of an extraction keeps the instance coherent. -/
theorem remember (h : Coherent new i) {stage : Stage} {out : ExtractedStage}
    (hout : new.extractor.extract stage = .ok out) :
    Coherent new (i.remember stage out.reflection) := by
  refine ⟨h.tree, h.extractor, ?_, ?_⟩
  · intro s r hmem
    rcases List.mem_cons.mp hmem with heq | hmem
    · obtain ⟨rfl, rfl⟩ := Prod.mk.inj heq
      exact ⟨out, hout, rfl⟩
    · exact h.extracted s r ((List.mem_filter.mp hmem).1)
  · have hothers : stage ∉ (i.reflections.filter (·.1 ≠ stage)).map Prod.fst := by
      simp
    have hsublist := (List.filter_sublist (p := (·.1 ≠ stage)) (l := i.reflections)).map Prod.fst
    exact List.nodup_cons.mpr ⟨hothers, h.distinct.sublist hsublist⟩

/-- A reflection that is kept is the one that a new instance would find. -/
theorem extract_of_lookup (h : Coherent new i) {stage : Stage} {r : Reflection}
    (hr : i.reflections.lookup stage = some r) :
    ∃ out, new.extractor.extract stage = .ok out ∧ out.reflection = r := by
  obtain ⟨before, rest, hlist, -⟩ := List.lookup_eq_some_iff.mp hr
  exact h.extracted stage r (by simp [hlist])

/-- A stage that cannot be extracted has no reflection. -/
theorem lookup_eq_none (h : Coherent new i) {stage : Stage} {e : ExtractError}
    (he : new.extractor.extract stage = .error e) : i.reflections.lookup stage = none := by
  cases hr : i.reflections.lookup stage with
  | none => rfl
  | some r =>
      obtain ⟨out, hout, -⟩ := h.extract_of_lookup hr
      cases he.symm.trans hout

end Coherent

/-- A step on both instances gives the same answer, and what it leaves is coherent. -/
structure Agrees {α : Type} (new i : Instance) (step : Step α) : Prop where
  answer : (step i).1 = (step new).1
  coherent : Coherent new (step i).2

section Steps

variable {new i : Instance} (h : Coherent new i)
include h

/-- An instance extracts as the new one does. -/
theorem agrees_extract (stage : Stage) : Agrees new i (extract stage) := by
  cases hout : new.extractor.extract stage with
  | ok out =>
      refine ⟨?_, ?_⟩
      · simp [extract, h.extractor, hout]
      · simpa [extract, h.extractor, hout] using h.remember hout
  | error e =>
      refine ⟨?_, ?_⟩
      · simp [extract, h.extractor, hout]
      · simpa [extract, h.extractor, hout] using h

/-- What is done with the tree afterwards, and whether it fails, leaves no trace. -/
theorem agrees_onStage {α : Type} (stage : Stage) (work : Stmt → Except CodegenError α) :
    Agrees new i (onStage stage work) := by
  obtain ⟨hanswer, hcoherent⟩ := agrees_extract h stage
  unfold onStage
  generalize hi : extract stage i = p at hanswer hcoherent
  generalize hn : extract stage new = q at hanswer
  obtain ⟨result, next⟩ := p
  obtain ⟨result', next'⟩ := q
  obtain rfl : result = result' := hanswer
  refine ⟨?_, ?_⟩
  · simp only [hi, hn]
    cases result <;> rfl
  · simp only [hi]
    cases result <;> exact hcoherent

/-- A new instance has to extract the stage; one that knows the reflection need not. -/
theorem agrees_reflection (hnew : new.reflections = []) (stage : Stage) :
    Agrees new i (reflection stage) := by
  have hfirst : new.reflections.lookup stage = none := by rw [hnew]; rfl
  cases hknown : i.reflections.lookup stage with
  | some r =>
      obtain ⟨out, hout, rfl⟩ := h.extract_of_lookup hknown
      refine ⟨?_, ?_⟩
      · simp [reflection, hknown, hfirst, hout]
      · simpa [reflection, hknown] using h
  | none =>
      cases hout : new.extractor.extract stage with
      | ok out =>
          refine ⟨?_, ?_⟩
          · simp [reflection, hknown, hfirst, h.extractor, hout]
          · simpa [reflection, hknown, h.extractor, hout] using h.remember hout
      | error e =>
          refine ⟨?_, ?_⟩
          · simp [reflection, hknown, hfirst, h.extractor, hout]
          · simpa [reflection, hknown, h.extractor, hout] using h

/-- The step lemma: whatever is asked, the answer is that of a new instance. -/
theorem serve_coherent (hnew : new.reflections = []) (r : Request) :
    (i.serve r).1 = (new.serve r).1 ∧ Coherent new (i.serve r).2 := by
  cases r with
  | extract stage =>
      have hstep := agrees_extract h stage
      exact ⟨congrArg Answer.tree hstep.answer, hstep.coherent⟩
  | reflection stage =>
      have hstep := agrees_reflection h hnew stage
      exact ⟨congrArg Answer.reflection hstep.answer, hstep.coherent⟩
  | glsl stage settings =>
      have hstep := agrees_onStage h stage (Glsl.render (settings.withStage stage))
      exact ⟨congrArg Answer.text hstep.answer, hstep.coherent⟩
  | spirv stage assembler =>
      have hstep := agrees_onStage h stage fun tree =>
        Spirv.compile (Spirv.pinned Glsl.Settings.forVulkan stage) stage assembler tree []
      exact ⟨congrArg Answer.words hstep.answer, hstep.coherent⟩
  | clear => exact ⟨rfl, h.clear⟩

/-- An instance stays coherent under every request. -/
theorem coherent_after (hnew : new.reflections = []) (requests : List Request) :
    Coherent new (i.after requests) := by
  induction requests generalizing i with
  | nil => exact h
  | cons r rest ih => exact ih (serve_coherent h hnew r).2

/-- An instance answers as the new one does, request by request. -/
theorem answers_eq_map (hnew : new.reflections = []) (requests : List Request) :
    i.answers requests = requests.map fun r => (new.serve r).1 := by
  induction requests generalizing i with
  | nil => rfl
  | cons r rest ih =>
      obtain ⟨hanswer, hnext⟩ := serve_coherent h hnew r
      rw [answers, hanswer, ih hnext, List.map_cons]

end Steps

/-- The instance of a tree has no reflection yet and extracts from that tree. -/
theorem ofTree_eq_ok {tree : Stmt} {new : Instance} (h : ofTree tree = .ok new) :
    new.reflections = [] ∧ ∀ stage, extractStage tree stage = new.extractor.extract stage := by
  unfold ofTree at h
  cases hx : Extractor.ofTree tree.copy with
  | error e =>
      rw [hx] at h
      cases h
  | ok x =>
      rw [hx] at h
      cases h
      refine ⟨rfl, fun stage => ?_⟩
      rw [extractStage, hx]
      rfl

/-- After any requests to an instance of a tree, each reflection that it keeps is the one of a new
extraction of its stage, no stage has two, and none is kept of a stage whose extraction fails.
Every request is answered as by a new instance of the tree, with a value or an error. -/
theorem requests_coherent {tree : Stmt} {new : Instance} (h : ofTree tree = .ok new)
    (requests : List Request) :
    (∀ stage r, (stage, r) ∈ (new.after requests).reflections →
      ∃ out, extractStage tree stage = .ok out ∧ out.reflection = r) ∧
    ((new.after requests).reflections.map Prod.fst).Nodup ∧
    (∀ stage e, extractStage tree stage = .error e →
      (new.after requests).reflections.lookup stage = none) ∧
    new.answers requests = requests.map fun r => (new.serve r).1 := by
  obtain ⟨hnew, hextract⟩ := ofTree_eq_ok h
  have hcoherent := coherent_after (Coherent.refl hnew) hnew requests
  refine ⟨?_, hcoherent.distinct, ?_, answers_eq_map (Coherent.refl hnew) hnew requests⟩
  · intro stage r hmem
    rw [hextract]
    exact hcoherent.extracted stage r hmem
  · intro stage e he
    rw [hextract] at he
    exact hcoherent.lookup_eq_none he

/-- A stage that is not there, text in between, and an assembler that fails. -/
def mixedRequests : List Request :=
  [.reflection .vertex, .glsl .fragment Glsl.Settings.desktop,
    .spirv .fragment fun text _ => .error (.assembler text), .reflection .fragment]

/-- A stage that is not there, a text in between and an assembler that fails leave the instance
coherent. -/
theorem mixedRequests_coherent :
    ∃ new out, ofTree Extractor.splitTree = .ok new ∧
      extractStage Extractor.splitTree .fragment = .ok out ∧
      (new.after mixedRequests).reflections = [(.fragment, out.reflection)] ∧
      new.answers mixedRequests = mixedRequests.map fun r => (new.serve r).1 := by
  obtain ⟨new, hnew, hkept⟩ : ∃ new, ofTree Extractor.splitTree = .ok new ∧
      (new.after mixedRequests).reflections.map Prod.fst = [.fragment] :=
    ⟨_, rfl, by with_unfolding_all rfl⟩
  obtain ⟨hextracted, -, -, hanswers⟩ := requests_coherent hnew mixedRequests
  obtain ⟨⟨stage, r⟩, hlist, hstage⟩ := List.map_eq_singleton_iff.mp hkept
  obtain rfl : stage = .fragment := hstage
  obtain ⟨out, hout, rfl⟩ := hextracted .fragment r (by simp [hlist])
  exact ⟨new, out, hnew, hout, hlist, hanswers⟩

end Instance

end Shading
