/-!
# Runs that may fail

How a sequence of steps succeeds: the first step gives a value and the rest succeeds
from it. And what its errors can be: those of its steps. A run that is demanded less of
succeeds where the other run does, but for errors that the other run never checks for.
-/

namespace Shading

variable {ε σ α β : Type}

theorem Except.bind_eq_ok_iff {x : Except ε α} {f : α → Except ε β} {b : β} :
    (x >>= f) = .ok b ↔ ∃ a, x = .ok a ∧ f a = .ok b := by
  cases x with
  | error e => simp [bind, Except.bind]
  | ok a => simp [bind, Except.bind]

@[simp] theorem Except.ok_bind (a : α) (f : α → Except ε β) :
    (Except.ok a >>= f) = f a := rfl

@[simp] theorem Except.error_bind (e : ε) (f : α → Except ε β) :
    (Except.error e >>= f) = .error e := rfl

/-- What a list of runs gives comes from one of them. -/
theorem Except.exists_of_mem_mapM {f : α → Except ε β} {xs : List α} {ys : List β}
    (h : xs.mapM f = .ok ys) {y : β} (hy : y ∈ ys) : ∃ x ∈ xs, f x = .ok y := by
  induction xs generalizing ys with
  | nil =>
      cases h
      cases hy
  | cons x xs ih =>
      rw [List.mapM_cons] at h
      obtain ⟨z, hz, h⟩ := Except.bind_eq_ok_iff.mp h
      obtain ⟨zs, hzs, h⟩ := Except.bind_eq_ok_iff.mp h
      cases h
      rcases List.mem_cons.mp hy with rfl | hy
      · exact ⟨x, by simp, hz⟩
      · obtain ⟨w, hw, hwy⟩ := ih hzs hy
        exact ⟨w, List.mem_cons_of_mem _ hw, hwy⟩

/-- A list of runs succeeds only if each of them does. -/
theorem Except.exists_of_mapM_ok {f : α → Except ε β} {xs : List α} {ys : List β}
    (h : xs.mapM f = .ok ys) {x : α} (hx : x ∈ xs) : ∃ y, f x = .ok y := by
  induction xs generalizing ys with
  | nil => cases hx
  | cons z xs ih =>
      rw [List.mapM_cons] at h
      obtain ⟨y, hy, h⟩ := Except.bind_eq_ok_iff.mp h
      obtain ⟨ys', hys, -⟩ := Except.bind_eq_ok_iff.mp h
      rcases List.mem_cons.mp hx with rfl | hx
      · exact ⟨y, hy⟩
      · exact ih hys hx

/-- A list of runs fails as one of them does. -/
theorem Except.exists_of_mapM_error {f : α → Except ε β} {xs : List α} {e : ε}
    (h : xs.mapM f = .error e) : ∃ x ∈ xs, f x = .error e := by
  induction xs with
  | nil => cases h
  | cons x xs ih =>
      rw [List.mapM_cons] at h
      cases hx : f x with
      | error e' =>
          rw [hx] at h
          cases h
          exact ⟨x, List.mem_cons_self, hx⟩
      | ok y =>
          rw [hx, Except.ok_bind] at h
          cases hxs : xs.mapM f with
          | error e' =>
              rw [hxs] at h
              cases h
              obtain ⟨z, hz, he⟩ := ih hxs
              exact ⟨z, List.mem_cons_of_mem _ hz, he⟩
          | ok ys =>
              rw [hxs] at h
              cases h

/-- The run ends with a value for which `P` holds or with an error for which `E` does. -/
inductive Except.Ends (E : ε → Prop) (P : α → Prop) : Except ε α → Prop where
  | ok {a : α} (h : P a) : Ends E P (.ok a)
  | error {e : ε} (h : E e) : Ends E P (.error e)

/-- The run fails with no other errors. -/
abbrev Except.FailsWithin (E : ε → Prop) (x : Except ε α) : Prop := Ends E (fun _ => True) x

/-- The run gives no other values. -/
abbrev Except.Gives (P : α → Prop) (x : Except ε α) : Prop := Ends (fun _ => True) P x

/-- Nothing is asked of a result. -/
theorem Except.gives_any (x : Except ε α) : Gives (fun _ => True) x := by
  cases x with
  | error _ => exact .error trivial
  | ok _ => exact .ok trivial

namespace Except.Ends

variable {E : ε → Prop} {P : α → Prop} {Q : β → Prop} {x : Except ε α}

theorem of_error (h : Ends E P x) {e : ε} (hx : x = .error e) : E e := by
  cases h with
  | ok _ => cases hx
  | error h =>
      cases hx
      exact h

theorem imp {E' : ε → Prop} {P' : α → Prop} (h : Ends E P x) (he : ∀ e, E e → E' e)
    (hp : ∀ a, P a → P' a) : Ends E' P' x := by
  cases h with
  | ok h => exact .ok (hp _ h)
  | error h => exact .error (he _ h)

/-- The second step is run with what the first one gave. -/
theorem bind {f : α → Except ε β} (h : Ends E P x) (hf : ∀ a, P a → Ends E Q (f a)) :
    Ends E Q (x >>= f) := by
  cases h with
  | ok h => exact hf _ h
  | error h => exact .error h

/-- After a run of which any value will do. -/
theorem andThen {f : α → Except ε β} (h : FailsWithin E x) (hf : ∀ a, Ends E Q (f a)) :
    Ends E Q (x >>= f) :=
  h.bind fun a _ => hf a

theorem ite {p : Prop} [Decidable p] {y : Except ε α} (h : p → Ends E P x)
    (h' : ¬p → Ends E P y) : Ends E P (if p then x else y) := by
  split
  · exact h ‹_›
  · exact h' ‹_›

/-- A walk over a list fails with the errors of its steps. -/
theorem mapM {f : α → Except ε β} (h : ∀ a, FailsWithin E (f a)) (l : List α) :
    FailsWithin E (l.mapM f) := by
  induction l with
  | nil => exact .ok trivial
  | cons a l ih =>
      rw [List.mapM_cons]
      exact (h a).andThen fun _ => ih.andThen fun _ => .ok trivial

/-- A fold whose steps keep an invariant of the state and of what is left of the list. -/
theorem foldlM {f : σ → α → Except ε σ} {I : List α → σ → Prop}
    (hstep : ∀ a l s, I (a :: l) s → Ends E (I l) (f s a)) (l : List α) {s : σ} (hs : I l s) :
    Ends E (I []) (l.foldlM f s) := by
  induction l generalizing s with
  | nil => exact .ok hs
  | cons a l ih =>
      rw [List.foldlM_cons]
      exact (hstep a l s hs).bind fun _ ht => ih ht

end Except.Ends

namespace Except

variable {α' β' γ σ' : Type}

/-- The first run fails with errors in `E` only, and where it succeeds the second one succeeds
as well or fails with an error in `C`. Nothing is said about the values. -/
inductive Relaxed (E C : ε → Prop) : Except ε α → Except ε α' → Prop where
  | ok {a : α} {a' : α'} : Relaxed E C (.ok a) (.ok a')
  | refused {a : α} {e : ε} (h : C e) : Relaxed E C (.ok a) (.error e)
  | error {e : ε} {x' : Except ε α'} (h : E e) : Relaxed E C (.error e) x'

namespace Relaxed

variable {E C : ε → Prop} {x : Except ε α} {x' : Except ε α'}

theorem failsWithin (h : Relaxed E C x x') : FailsWithin E x := by
  cases h with
  | ok | refused => exact .ok trivial
  | error h => exact .error h

theorem failsWithin_of_ok (h : Relaxed E C x x') {a : α} (hx : x = .ok a) :
    FailsWithin C x' := by
  cases h with
  | ok => exact .ok trivial
  | refused h => exact .error h
  | error => cases hx

/-- Runs that fail within their errors are related, whatever they give. -/
theorem of_failsWithin (h : FailsWithin E x) (h' : FailsWithin C x') : Relaxed E C x x' := by
  cases h with
  | ok =>
      cases h' with
      | ok => exact .ok
      | error h' => exact .refused h'
  | error h => exact .error h

/-- The second step is related for all results of the first one, as nothing is said about them. -/
theorem bind [Nonempty α'] {f : α → Except ε β} {f' : α' → Except ε β'} (h : Relaxed E C x x')
    (hf : ∀ a a', Relaxed E C (f a) (f' a')) : Relaxed E C (x >>= f) (x' >>= f') := by
  cases h with
  | ok => exact hf _ _
  | @refused a e h =>
      obtain ⟨a'⟩ := ‹Nonempty α'›
      exact of_failsWithin (hf a a').failsWithin (.error h)
  | error h => exact .error h

theorem ite {p : Prop} [Decidable p] {y : Except ε α} {y' : Except ε α'}
    (h : p → Relaxed E C x x') (h' : ¬p → Relaxed E C y y') :
    Relaxed E C (if p then x else y) (if p then x' else y') := by
  split
  · exact h ‹_›
  · exact h' ‹_›

/-- Folds over one list. -/
theorem foldlM [Nonempty σ'] {f : σ → γ → Except ε σ} {f' : σ' → γ → Except ε σ'}
    (h : ∀ c s s', Relaxed E C (f s c) (f' s' c)) (l : List γ) (s : σ) (s' : σ') :
    Relaxed E C (l.foldlM f s) (l.foldlM f' s') := by
  induction l generalizing s s' with
  | nil => exact .ok
  | cons c rest ih =>
      rw [List.foldlM_cons, List.foldlM_cons]
      exact (h c s s').bind fun t t' => ih t t'

end Relaxed

end Except

/-- A step that succeeds hands its result and its state to the next one. -/
theorem StateT.bind_eq_ok_iff {m : StateT σ (Except ε) α} {f : α → StateT σ (Except ε) β}
    {s : σ} {out : β × σ} :
    (m >>= f) s = .ok out ↔ ∃ a s', m s = .ok (a, s') ∧ f a s' = .ok out := by
  change (m s >>= fun p => f p.1 p.2) = .ok out ↔ _
  rw [Except.bind_eq_ok_iff]
  constructor
  · rintro ⟨⟨a, s'⟩, hm, hf⟩
    exact ⟨a, s', hm, hf⟩
  · rintro ⟨a, s', hm, hf⟩
    exact ⟨(a, s'), hm, hf⟩

theorem StateT.bind_of_ok {m : StateT σ (Except ε) α} {f : α → StateT σ (Except ε) β} {s s' : σ}
    {a : α} (h : m s = .ok (a, s')) : (m >>= f) s = f a s' := by
  change (m s >>= fun p => f p.1 p.2) = _
  rw [h, Except.ok_bind]

theorem StateT.bind_apply (m : StateT σ (Except ε) α) (f : α → StateT σ (Except ε) β) (s : σ) :
    (m >>= f) s = m s >>= fun out => f out.1 out.2 := rfl

theorem StateT.pure_apply (a : α) (s : σ) :
    (pure a : StateT σ (Except ε) α) s = .ok (a, s) := rfl

end Shading
