import Shading.Proofs.Parse.Local

/-!
# Where declarations end

A declaration ends with a semicolon or a closing brace, and what stands behind that token is
looked at for two things only: a semicolon that may follow a block, and the alternative of an
optional block. Before tokens that start with neither the declaration is the same.
-/

namespace Shading

namespace Parse

variable {α β : Type} {m m' n n' : Parse α} {c mid : Cursor}

/-- Tokens that continue no declaration before them. -/
def Calm (ts : List Token) : Prop :=
  (ts.headD Token.eof).kind ≠ .symbol .semicolon ∧ (ts.headD Token.eof).kind ≠ .keyword .else

theorem Calm.eat {rest : List Token} {previous : Span} (h : Calm rest) :
    Parse.eat .semicolon ⟨rest, previous⟩ = .ok (false, ⟨rest, previous⟩) := if_neg h.1

theorem Calm.eatKeyword {rest : List Token} {previous : Span} (h : Calm rest) :
    Parse.eatKeyword .else ⟨rest, previous⟩ = .ok (false, ⟨rest, previous⟩) := if_neg h.2

/-- A run that takes some tokens and then a closing one, and the other production takes the
same ones before any calm tokens. -/
structure ClosedRun (m' : Parse α) (c : Cursor) (a : α) (c' : Cursor) (taken : List Token)
    (t : Token) : Prop where
  rest : c.rest = taken ++ t :: c'.rest
  noEof : ∀ u ∈ taken, u.kind ≠ .eof
  closer : isCloser t.kind = true
  same : ∀ {rest}, Calm rest → m' ⟨taken ++ t :: rest, c.previous⟩ = .ok (a, ⟨rest, c'.previous⟩)

/-- From the cursor every run of the first production is one of the second: whatever stands
behind a closing token, and also before any calm tokens. -/
def ClosesFrom (c : Cursor) (m m' : Parse α) : Prop :=
  ∀ a c', m c = .ok (a, c') →
    (∃ taken, LocalRun m' c a c' taken) ∧ ∃ taken t, ClosedRun m' c a c' taken t

/-- Wherever it starts, the first production closes as the second one does. -/
def Closes (m m' : Parse α) : Prop := ∀ c, ClosesFrom c m m'

/-- The same from cursors at a token of the kind. -/
def ClosesAt (k : Kind) (m m' : Parse α) : Prop := ∀ c, c.current.kind = k → ClosesFrom c m m'

/-- Takes no token and looks at none. -/
def Still (m m' : Parse α) : Prop :=
  ∀ c a c', m c = .ok (a, c') →
    c' = c ∧ ∀ rest, m' ⟨rest, c.previous⟩ = .ok (a, ⟨rest, c.previous⟩)

namespace Still

theorem pure (a : α) : Still (Pure.pure a) (Pure.pure a) := by
  intro c b c' hrun
  cases hrun
  constructor
  · rfl
  · intro rest
    rfl

theorem spanFrom (start : Span) : Still (Parse.spanFrom start) (Parse.spanFrom start) := by
  intro c s c' hrun
  cases hrun
  constructor
  · rfl
  · intro rest
    rfl

/-- Two steps that look no further than their tokens do so together. -/
theorem bind {f f' : α → Parse β} (h : Still m m') (hf : ∀ a, Still (f a) (f' a)) :
    Still (m >>= f) (m' >>= f') := by
  intro c b c' hrun
  obtain ⟨a, mid, ha, hb⟩ := StateT.bind_eq_ok_iff.mp hrun
  obtain ⟨rfl, hsame⟩ := h c a mid ha
  obtain ⟨rfl, hsame'⟩ := hf a mid b c' hb
  constructor
  · rfl
  · intro rest
    rw [StateT.bind_of_ok (hsame rest)]
    exact hsame' rest

theorem isLocal (h : Still m m') : Local m m' := by
  intro c a c' hrun
  obtain ⟨rfl, hsame⟩ := h c a c' hrun
  refine ⟨[], rfl, by simp, ?_⟩
  intro left t after after' _ _
  exact hsame _

end Still

namespace ClosedRun

variable {f f' : α → Parse β} {a : α} {b : β} {c' : Cursor} {ks taken : List Token} {t : Token}

/-- A run that takes the current token, which closes. -/
theorem of_take (hk : isCloser c.current.kind = true)
    (h : ∀ c₁ : Cursor, c₁.current = c.current → m' c₁ = .ok (a, c₁.advance)) :
    ClosedRun m' c a c.advance [] c.current := by
  have hne : c.current.kind ≠ .eof := ne_of_isCloser hk rfl
  obtain ⟨rest, hrest, hadvance⟩ := exists_of_kind_ne_eof hne
  constructor
  · rw [hadvance]
    exact hrest
  · simp
  · exact hk
  · intro rest' _
    rw [h ⟨[] ++ c.current :: rest', c.previous⟩ rfl, hadvance]
    exact congrArg (fun c => Except.ok (a, c)) (Cursor.advance_of_kind_ne rfl hne)

/-- What is taken before the closing run stands before a closing token. -/
theorem bind (h : LocalRun m' c a mid ks) (hf : ClosedRun (f' a) mid b c' taken t) :
    ClosedRun (m' >>= f') c b c' (ks ++ taken) t := by
  constructor
  · rw [h.rest, hf.rest, List.append_assoc]
  · intro u hu
    rcases List.mem_append.mp hu with hu | hu
    · exact h.noEof u hu
    · exact hf.noEof u hu
  · exact hf.closer
  · intro rest hrest
    have hfirst := h.same rest hf.rest hf.closer
    rw [List.append_assoc, StateT.bind_of_ok hfirst]
    exact hf.same hrest

/-- What follows the closing run takes nothing before calm tokens. -/
theorem bindStay (h : ClosedRun m' c a mid taken t)
    (hf : ∀ {rest}, Calm rest →
      f' a ⟨rest, mid.previous⟩ = .ok (b, ⟨rest, mid.previous⟩)) :
    ClosedRun (m' >>= f') c b mid taken t := by
  constructor
  · exact h.rest
  · exact h.noEof
  · exact h.closer
  · intro rest hrest
    rw [StateT.bind_of_ok (h.same hrest)]
    exact hf hrest

end ClosedRun

namespace Closes

variable {f f' : α → Parse β}

theorem isLocal (h : Closes m m') : Local m m' := by
  intro c a c' hrun
  exact (h c a c' hrun).1

theorem at_ (h : Closes m m') (k : Kind) : ClosesAt k m m' := by
  intro c _
  exact h c

theorem of_fails (h : ∀ c a c', m c ≠ .ok (a, c')) : Closes m m' := by
  intro c a c' hrun
  exact absurd hrun (h c a c')

theorem spent : Closes Parse.spent m' := by
  apply of_fails
  intro c a c' h
  cases h

theorem unexpected (expected : Expected) : Closes (Parse.unexpected expected) m' := by
  apply of_fails
  intro c a c' h
  cases h

/-- The second step closes, wherever the first one stopped. -/
theorem bindFrom
    (h : ∀ a mid, m c = .ok (a, mid) →
      (∃ taken, LocalRun m' c a mid taken) ∧ ClosesFrom mid (f a) (f' a)) :
    ClosesFrom c (m >>= f) (m' >>= f') := by
  intro b c' hrun
  obtain ⟨a, mid, ha, hb⟩ := StateT.bind_eq_ok_iff.mp hrun
  obtain ⟨⟨ks, hks⟩, hf⟩ := h a mid ha
  obtain ⟨⟨ls, hls⟩, taken, t, ht⟩ := hf b c' hb
  exact ⟨⟨ks ++ ls, Local.runBind hks hls⟩, ks ++ taken, t, ClosedRun.bind hks ht⟩

/-- A local step before one that closes leaves the whole closed. -/
theorem bind (h : Local m m') (hf : ∀ a, Closes (f a) (f' a)) :
    Closes (m >>= f) (m' >>= f') := by
  intro c
  apply bindFrom
  intro a mid ha
  exact ⟨h c a mid ha, hf a mid⟩

/-- A look at the current token tells the kind at the cursor. -/
theorem lookAt {f f' : Token → Parse β} (h : ∀ t, ClosesAt t.kind (f t) (f' t)) :
    Closes (Parse.look >>= f) (Parse.look >>= f') := by
  intro c
  apply bindFrom
  intro t mid ht
  cases ht
  exact ⟨Local.look c c.current c rfl, h c.current c rfl⟩

theorem ite {p : Prop} [Decidable p] (h : p → Closes m m') (h' : ¬p → Closes n n') :
    Closes (if p then m else n) (if p then m' else n') := by
  split
  · exact h ‹_›
  · exact h' ‹_›

/-- What follows a closing production takes nothing. -/
theorem bindStill (h : Closes m m') (hf : ∀ a, Still (f a) (f' a)) :
    Closes (m >>= f) (m' >>= f') := by
  intro c b c' hrun
  constructor
  · exact h.isLocal.bind (fun a => (hf a).isLocal) c b c' hrun
  · obtain ⟨a, mid, ha, hb⟩ := StateT.bind_eq_ok_iff.mp hrun
    obtain ⟨-, taken, t, ht⟩ := h c a mid ha
    obtain ⟨rfl, hsame⟩ := hf a mid b c' hb
    exact ⟨taken, t, ht.bindStay fun _ => hsame _⟩

theorem expect {s : Symbol} (hs : isCloser (.symbol s) = true) :
    Closes (Parse.expect s) (Parse.expect s) := by
  have hrun {c : Cursor} (hk : c.current.kind = .symbol s) :
      Parse.expect s c = .ok ((), c.advance) := by
    rw [Parse.expect, StateT.bind_of_ok (eat_of_kind hk)]
    rfl
  intro c a c' h
  constructor
  · exact Local.expect s c a c' h
  · by_cases hk : c.current.kind = .symbol s
    · cases (hrun hk).symm.trans h
      refine ⟨[], c.current, .of_take (hk ▸ hs) ?_⟩
      intro c₁ hcurrent
      exact hrun (hcurrent ▸ hk)
    · rw [Parse.expect, StateT.bind_of_ok (eat_of_kind_ne hk)] at h
      cases h

/-- A semicolon that may follow. -/
theorem bindEat {f f' : α → Bool → Parse β} (h : Closes m m')
    (hf : ∀ a b, Still (f a b) (f' a b)) :
    Closes (m >>= fun a => Parse.eat .semicolon >>= f a)
      (m' >>= fun a => Parse.eat .semicolon >>= f' a) := by
  intro c b c' hrun
  constructor
  · exact (h.isLocal.bind fun a => (Local.eat _).bind fun b => (hf a b).isLocal) c b c' hrun
  · obtain ⟨a, mid, ha, hrest⟩ := StateT.bind_eq_ok_iff.mp hrun
    obtain ⟨e, mid', he, hb⟩ := StateT.bind_eq_ok_iff.mp hrest
    obtain ⟨rfl, hsame⟩ := hf a e mid' b c' hb
    by_cases hk : mid.current.kind = .symbol .semicolon
    · obtain ⟨⟨ks, hks⟩, -⟩ := h c a mid ha
      cases (eat_of_kind hk).symm.trans he
      have htake : ClosedRun (Parse.eat .semicolon) mid true mid.advance [] mid.current :=
        .of_take (hk ▸ rfl) fun c₁ hcurrent => eat_of_kind (hcurrent ▸ hk)
      exact ⟨_, _, .bind hks (htake.bindStay fun _ => hsame _)⟩
    · obtain ⟨-, taken, t, ht⟩ := h c a mid ha
      cases (eat_of_kind_ne hk).symm.trans he
      refine ⟨taken, t, ht.bindStay ?_⟩
      intro rest hrest
      rw [StateT.bind_of_ok hrest.eat]
      exact hsame rest

/-- An alternative that may follow. -/
theorem bindElse {f f' : α → Bool → Parse β} (h : Closes m m')
    (hf : ∀ a, Closes (f a true) (f' a true)) (hf' : ∀ a, Still (f a false) (f' a false)) :
    Closes (m >>= fun a => Parse.eatKeyword .else >>= f a)
      (m' >>= fun a => Parse.eatKeyword .else >>= f' a) := by
  have hlocal (a : α) (b : Bool) : Local (f a b) (f' a b) := by
    cases b with
    | true => exact (hf a).isLocal
    | false => exact (hf' a).isLocal
  intro c b c' hrun
  constructor
  · exact (h.isLocal.bind fun a => (Local.eatKeyword _).bind (hlocal a)) c b c' hrun
  · obtain ⟨a, mid, ha, hrest⟩ := StateT.bind_eq_ok_iff.mp hrun
    obtain ⟨e, mid', he, hb⟩ := StateT.bind_eq_ok_iff.mp hrest
    obtain ⟨⟨ks, hks⟩, taken, t, ht⟩ := h c a mid ha
    by_cases hk : mid.current.kind = .keyword .else
    · obtain ⟨ls, hls⟩ := Local.eatKeyword .else mid e mid' he
      cases (eatKeyword_of_kind hk).symm.trans he
      obtain ⟨-, taken', t', ht'⟩ := hf a mid.advance b c' hb
      exact ⟨_, _, .bind hks (.bind hls ht')⟩
    · cases (eatKeyword_of_kind_ne hk).symm.trans he
      obtain ⟨rfl, hsame⟩ := hf' a mid b c' hb
      refine ⟨taken, t, ht.bindStay ?_⟩
      intro rest hrest
      rw [StateT.bind_of_ok hrest.eatKeyword]
      exact hsame rest

end Closes

namespace ClosesAt

/-- The token after one that does not close is no further away than the closing one. -/
theorem nextKind_append {left after : List Token} {t : Token} (hc : isCloser c.current.kind = false)
    (ht : isCloser t.kind = true) (h : c.rest = left ++ t :: after) (after' : List Token)
    (previous : Span) : Cursor.nextKind ⟨left ++ t :: after', previous⟩ = c.nextKind := by
  rw [Cursor.nextKind, Cursor.nextKind, h]
  cases left with
  | nil =>
      -- the current token would be the closing one
      rw [Cursor.current, h] at hc
      exact absurd ht (by simpa using hc)
  | cons u left =>
      cases left with
      | nil => rfl
      | cons v left => rfl

/-- A choice by the token after one that does not close. -/
theorem nextKind {k l : Kind} (hk : isCloser k = false) (h : Closes m m') (h' : Closes n n') :
    ClosesAt k (do if (← get).nextKind = l then m else n)
      (do if (← get).nextKind = l then m' else n') := by
  intro c hcurrent a c' hrun
  have hcurrent' : isCloser c.current.kind = false := hcurrent ▸ hk
  obtain ⟨⟨taken, hlocal⟩, taken', t, hclosed⟩ := Closes.ite (fun _ => h) (fun _ => h') c a c' hrun
  constructor
  · refine ⟨taken, hlocal.rest, hlocal.noEof, ?_⟩
    intro left t after after' hrest ht
    have hall : c.rest = (taken ++ left) ++ t :: after := by
      rw [hlocal.rest, hrest, List.append_assoc]
    have hnext := nextKind_append hcurrent' ht hall after' c.previous
    rw [List.append_assoc] at hnext
    change (if Cursor.nextKind ⟨taken ++ (left ++ t :: after'), c.previous⟩ = l
      then m' else n') _ = _
    rw [hnext]
    exact hlocal.same after' hrest ht
  · refine ⟨taken', t, hclosed.rest, hclosed.noEof, hclosed.closer, ?_⟩
    intro rest hrest
    have hnext := nextKind_append hcurrent' hclosed.closer hclosed.rest rest c.previous
    change (if Cursor.nextKind ⟨taken' ++ t :: rest, c.previous⟩ = l then m' else n') _ = _
    rw [hnext]
    exact hclosed.same hrest

end ClosesAt

end Parse

end Shading
