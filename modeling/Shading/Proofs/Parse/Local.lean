import Shading.Parse.File
import Shading.Proofs.Except

/-!
# Where productions look

A production looks no further than the next semicolon or closing brace after what it takes.
Whatever stands behind that token, the production takes the same tokens and gives the same
value. The rules follow the ways of building productions; names may differ as long as they
tell the same types.
-/

namespace Shading

/-- Names that know the same types and functions. -/
structure Names.Alike (names names' : Names) : Prop where
  registry : names'.registry = names.registry
  type? : ∀ name, names'.type? name = names.type? name

namespace Parse

variable {α β : Type} {m m' n n' : Parse α}

/-- The token ends a statement, a declaration or a block. -/
def isCloser (k : Kind) : Bool := k = .symbol .semicolon || k = .symbol .rbrace

/-- A token that closes nothing is no closing token. -/
theorem ne_of_isCloser {k l : Kind} (hk : isCloser k = true) (hl : isCloser l = false) : k ≠ l := by
  rintro rfl
  rw [hk] at hl
  cases hl

/-- A run that takes some tokens, and the other production takes the same ones before any
tokens that go the same way up to a closing one. -/
structure LocalRun (m' : Parse α) (c : Cursor) (a : α) (c' : Cursor) (taken : List Token) :
    Prop where
  rest : c.rest = taken ++ c'.rest
  noEof : ∀ t ∈ taken, t.kind ≠ .eof
  same : ∀ {left t after} (after' : List Token), c'.rest = left ++ t :: after →
    isCloser t.kind = true →
    m' ⟨taken ++ (left ++ t :: after'), c.previous⟩ = .ok (a, ⟨left ++ t :: after', c'.previous⟩)

/-- Every run of the first production is one of the second, whatever stands behind a closing
token. -/
def Local (m m' : Parse α) : Prop :=
  ∀ c a c', m c = .ok (a, c') → ∃ taken, LocalRun m' c a c' taken

/-- The current token stands before the closing one, or is it. -/
theorem current_eq_of_append {c : Cursor} {left : List Token} {t : Token} {after : List Token}
    (h : c.rest = left ++ t :: after) (after' : List Token) (previous : Span) :
    Cursor.current ⟨left ++ t :: after', previous⟩ = c.current := by
  rw [Cursor.current, Cursor.current, h]
  cases left with
  | nil => rfl
  | cons u left => rfl

section Tests

variable {c : Cursor} {s : Symbol} {k : Keyword}

theorem eat_of_kind (h : c.current.kind = .symbol s) : eat s c = .ok (true, c.advance) := if_pos h

theorem eat_of_kind_ne (h : c.current.kind ≠ .symbol s) : eat s c = .ok (false, c) := if_neg h

theorem eatKeyword_of_kind (h : c.current.kind = .keyword k) :
    eatKeyword k c = .ok (true, c.advance) := if_pos h

theorem eatKeyword_of_kind_ne (h : c.current.kind ≠ .keyword k) :
    eatKeyword k c = .ok (false, c) := if_neg h

end Tests

/-- A current token that is no end of file is the first of the rest, and taking it leaves the
others. -/
theorem exists_of_kind_ne_eof {c : Cursor} (h : c.current.kind ≠ .eof) :
    ∃ rest, c.rest = c.current :: rest ∧ c.advance = ⟨rest, c.current.span⟩ := by
  obtain ⟨rest, previous⟩ := c
  cases rest with
  | nil => exact absurd rfl h
  | cons t rest => exact ⟨rest, rfl, Cursor.advance_of_kind_ne rfl h⟩

namespace LocalRun

/-- A run that takes nothing and looks at the current token only. -/
theorem of_stay {c : Cursor} {a : α}
    (h : ∀ c₁ : Cursor, c₁.current = c.current → c₁.previous = c.previous → m' c₁ = .ok (a, c₁)) :
    LocalRun m' c a c [] := by
  constructor
  · rfl
  · simp
  · intro left t after after' hrest _
    apply h
    · exact current_eq_of_append hrest _ _
    · rfl

/-- A run that takes the current token. -/
theorem of_take {c : Cursor} {a : α} (hk : c.current.kind ≠ .eof)
    (h : ∀ c₁ : Cursor, c₁.current = c.current → m' c₁ = .ok (a, c₁.advance)) :
    LocalRun m' c a c.advance [c.current] := by
  obtain ⟨rest, hrest, hadvance⟩ := exists_of_kind_ne_eof hk
  constructor
  · rw [hadvance]
    exact hrest
  · intro t ht
    rw [List.mem_singleton.mp ht]
    exact hk
  · intro left t after after' _ _
    rw [h ⟨[c.current] ++ (left ++ t :: after'), c.previous⟩ rfl, hadvance]
    exact congrArg (fun c => Except.ok (a, c)) (Cursor.advance_of_kind_ne rfl hk)

end LocalRun

namespace Local

theorem of_fails (h : ∀ c a c', m c ≠ .ok (a, c')) : Local m m' := by
  intro c a c' hrun
  exact absurd hrun (h c a c')

theorem failAt (t : Token) (fault : ParseFault) : Local (Parse.failAt t fault) m' := by
  apply of_fails
  intro c a c' h
  cases h

theorem unexpected (expected : Expected) : Local (Parse.unexpected expected) m' := by
  apply of_fails
  intro c a c' h
  cases h

theorem spent : Local Parse.spent m' := by
  apply of_fails
  intro c a c' h
  cases h

theorem pure (a : α) : Local (Pure.pure a) (Pure.pure a) := by
  intro c b c' h
  cases h
  exact ⟨[], .of_stay fun _ _ _ => rfl⟩

/-- What the first production leaves, the second one takes from. -/
theorem runBind {f' : α → Parse β} {c mid c' : Cursor} {a : α} {b : β} {ks ls : List Token}
    (h : LocalRun m' c a mid ks) (hf : LocalRun (f' a) mid b c' ls) :
    LocalRun (m' >>= f') c b c' (ks ++ ls) := by
  constructor
  · rw [h.rest, hf.rest, List.append_assoc]
  · intro t ht
    rcases List.mem_append.mp ht with ht | ht
    · exact h.noEof t ht
    · exact hf.noEof t ht
  · intro left t after after' hrest ht
    have hmid : mid.rest = (ls ++ left) ++ t :: after := by
      rw [hf.rest, hrest, List.append_assoc]
    have hfirst := h.same after' hmid ht
    have hsecond := hf.same after' hrest ht
    rw [List.append_assoc] at hfirst
    rw [List.append_assoc, StateT.bind_of_ok hfirst]
    exact hsecond

/-- The second production starts where the first one stopped, still before the closing token. -/
theorem bind {f f' : α → Parse β} (h : Local m m') (hf : ∀ a, Local (f a) (f' a)) :
    Local (m >>= f) (m' >>= f') := by
  intro c b c' hrun
  obtain ⟨a, mid, ha, hb⟩ := StateT.bind_eq_ok_iff.mp hrun
  obtain ⟨ks, hks⟩ := h c a mid ha
  obtain ⟨ls, hls⟩ := hf a mid b c' hb
  exact ⟨ks ++ ls, runBind hks hls⟩

theorem ite {p : Prop} [Decidable p] (h : p → Local m m') (h' : ¬p → Local n n') :
    Local (if p then m else n) (if p then m' else n') := by
  split
  · exact h ‹_›
  · exact h' ‹_›

theorem look : Local Parse.look Parse.look := by
  intro c t c' hrun
  cases hrun
  refine ⟨[], .of_stay ?_⟩
  intro c₁ hcurrent _
  rw [Parse.look, hcurrent]

theorem kind : Local Parse.kind Parse.kind := by
  intro c t c' hrun
  cases hrun
  refine ⟨[], .of_stay ?_⟩
  intro c₁ hcurrent _
  rw [Parse.kind, hcurrent]

theorem take : Local Parse.take Parse.take := by
  intro c t c' hrun
  cases hrun
  by_cases heof : c.current.kind = .eof
  · rw [Cursor.advance_of_eof heof]
    refine ⟨[], .of_stay ?_⟩
    intro c₁ hcurrent _
    rw [Parse.take, Cursor.advance_of_eof (hcurrent ▸ heof)]
  · exact ⟨_, .of_take heof fun _ _ => rfl⟩

/-- A test for a kind of token, which takes the token. -/
theorem test {test : Parse Bool} {k : Kind} (hk : k ≠ .eof)
    (htaken : ∀ {c : Cursor}, c.current.kind = k → test c = .ok (true, c.advance))
    (hleft : ∀ {c : Cursor}, c.current.kind ≠ k → test c = .ok (false, c)) : Local test test := by
  intro c b c' hrun
  by_cases hc : c.current.kind = k
  · cases (htaken hc).symm.trans hrun
    refine ⟨_, .of_take (hc ▸ hk) ?_⟩
    intro c₁ hcurrent
    exact htaken (hcurrent ▸ hc)
  · cases (hleft hc).symm.trans hrun
    refine ⟨[], .of_stay ?_⟩
    intro c₁ hcurrent _
    exact hleft (hcurrent ▸ hc)

/-- The symbol stands before the closing token, or is it. -/
theorem eat (s : Symbol) : Local (Parse.eat s) (Parse.eat s) := by
  have hs : Kind.symbol s ≠ .eof := by simp
  exact test hs eat_of_kind eat_of_kind_ne

theorem eatKeyword (k : Keyword) : Local (Parse.eatKeyword k) (Parse.eatKeyword k) := by
  have hk : Kind.keyword k ≠ .eof := by simp
  exact test hk eatKeyword_of_kind eatKeyword_of_kind_ne

theorem spanFrom (start : Span) : Local (Parse.spanFrom start) (Parse.spanFrom start) := by
  intro c b c' hrun
  cases hrun
  refine ⟨[], .of_stay ?_⟩
  intro c₁ _ hprevious
  rw [Parse.spanFrom, hprevious]

theorem checked (result : Checked α) : Local (Parse.checked result) (Parse.checked result) := by
  intro c a c' hrun
  obtain ⟨b, hb, hrun⟩ := Except.bind_eq_ok_iff.mp hrun
  cases hrun
  refine ⟨[], .of_stay ?_⟩
  intro c₁ _ _
  rw [Parse.checked, hb]
  rfl

theorem expect (s : Symbol) : Local (Parse.expect s) (Parse.expect s) := by
  apply (eat s).bind
  intro b
  exact .ite (fun _ => .pure ()) fun _ => .unexpected _

theorem expectKeyword (k : Keyword) : Local (Parse.expectKeyword k) (Parse.expectKeyword k) := by
  apply (eatKeyword k).bind
  intro b
  exact .ite (fun _ => .pure ()) fun _ => .unexpected _

theorem identifier : Local Parse.identifier Parse.identifier := by
  apply look.bind
  intro t
  split
  · apply take.bind
    intro _
    exact .pure _
  · exact .unexpected _

/-- The list ends before a token that is no comma. -/
theorem separated (h : Local m m') (fuel : Nat) :
    Local (Parse.separated m fuel) (Parse.separated m' fuel) := by
  induction fuel with
  | zero => exact .spent
  | succ fuel ih =>
      apply h.bind
      intro a
      apply (eat .comma).bind
      intro comma
      apply Local.ite
      · intro _
        apply ih.bind
        intro as
        exact .pure _
      · intro _
        exact .pure _

/-- The list ends before its closing token, which is left. -/
theorem upTo (stop : Kind) (h : Local m m') (fuel : Nat) :
    Local (Parse.upTo stop m fuel) (Parse.upTo stop m' fuel) := by
  induction fuel with
  | zero => exact .spent
  | succ fuel ih =>
      apply kind.bind
      intro k
      apply Local.ite
      · intro _
        exact .pure _
      · intro _
        apply h.bind
        intro a
        apply ih.bind
        intro as
        exact .pure _

end Local

section Types

variable {t : Token} {left after after' : List Token}

/-- A token that does not close stands before the closing one. -/
theorem eq_cons_of_append {u : Token} {rest : List Token} (ht : isCloser t.kind = true)
    (hu : isCloser u.kind = false) (h : u :: rest = left ++ t :: after) :
    ∃ left', left = u :: left' ∧ rest = left' ++ t :: after := by
  cases left with
  | nil =>
      obtain rfl := (List.cons.inj h).1
      rw [ht] at hu
      cases hu
  | cons v left =>
      obtain ⟨rfl, rfl⟩ := List.cons.inj h
      exact ⟨left, rfl, rfl⟩

/-- The brackets and the name stand before the closing token. -/
theorem nameFollows_of_append (ht : isCloser t.kind = true)
    (h : Names.nameFollows (left ++ t :: after) = true) :
    Names.nameFollows (left ++ t :: after') = true := by
  generalize hts : left ++ t :: after = ts at h
  induction ts using Names.nameFollows.induct generalizing left with
  | case1 s p s' p' rest ih =>
      obtain ⟨_, rfl, hts₁⟩ := eq_cons_of_append ht rfl hts.symm
      obtain ⟨_, rfl, hts₂⟩ := eq_cons_of_append ht rfl hts₁
      have hrest := ih hts₂.symm h
      exact hrest
  | case2 s p n s' p' s'' p'' rest ih =>
      obtain ⟨_, rfl, hts₁⟩ := eq_cons_of_append ht rfl hts.symm
      obtain ⟨_, rfl, hts₂⟩ := eq_cons_of_append ht rfl hts₁
      obtain ⟨_, rfl, hts₃⟩ := eq_cons_of_append ht rfl hts₂
      have hrest := ih hts₃.symm h
      exact hrest
  | case3 s p n s' p' s'' p'' rest ih =>
      obtain ⟨_, rfl, hts₁⟩ := eq_cons_of_append ht rfl hts.symm
      obtain ⟨_, rfl, hts₂⟩ := eq_cons_of_append ht rfl hts₁
      obtain ⟨_, rfl, hts₃⟩ := eq_cons_of_append ht rfl hts₂
      have hrest := ih hts₃.symm h
      exact hrest
  | case4 =>
      obtain ⟨_, rfl, -⟩ := eq_cons_of_append ht rfl hts.symm
      rfl
  | case5 ts hempty hint huint hname =>
      rw [Names.nameFollows] at h
      · cases h
      all_goals assumption

/-- Whether a name follows is told before the closing token. -/
theorem nameFollows_append (ht : isCloser t.kind = true) (left after after' : List Token) :
    Names.nameFollows (left ++ t :: after') = Names.nameFollows (left ++ t :: after) := by
  apply Bool.eq_iff_iff.mpr
  constructor
  · exact nameFollows_of_append ht
  · exact nameFollows_of_append ht

/-- Whether a declaration stands there is told before the closing token. -/
theorem startsDeclaration_append {names names' : Names} (h : names.Alike names')
    (ht : isCloser t.kind = true) (left after after' : List Token) :
    names'.startsDeclaration (left ++ t :: after') =
      names.startsDeclaration (left ++ t :: after) := by
  cases left with
  | nil =>
      obtain ⟨k, s, p⟩ := t
      cases k with
      | ident name => cases ht
      | _ => rfl
  | cons u left =>
      obtain ⟨k, s, p⟩ := u
      cases k with
      | ident name =>
          change ((names'.type? name).isSome && Names.nameFollows (left ++ t :: after')) =
            ((names.type? name).isSome && Names.nameFollows (left ++ t :: after))
          rw [h.type?, nameFollows_append ht left after after']
      | _ => rfl

theorem Local.atDeclaration {names names' : Names} (h : names.Alike names') :
    Local (Parse.atDeclaration names) (Parse.atDeclaration names') := by
  intro c b c' hrun
  cases hrun
  refine ⟨[], rfl, by simp, ?_⟩
  intro left t after after' hrest ht
  rw [Parse.atDeclaration, hrest, List.nil_append, startsDeclaration_append h ht left after after']

/-- Brackets are told from the tokens up to the first other one. -/
theorem local_dimensions (previous : Span) (ts : List Token) {dims : List ArraySize} {c' : Cursor}
    (h : dimensions previous ts = .ok (dims, c')) :
    ∃ taken, LocalRun (fun c => dimensions c.previous c.rest) ⟨ts, previous⟩ dims c' taken := by
  induction previous, ts using dimensions.induct generalizing dims c' with
  | case1 previous bracket position close position' rest ih =>
      simp only [dimensions] at h
      obtain ⟨⟨ds, d⟩, hrun, hout⟩ := Except.bind_eq_ok_iff.mp h
      cases hout
      obtain ⟨taken, htaken⟩ := ih hrun
      refine ⟨_ :: _ :: taken, congrArg (_ :: _ :: ·) htaken.rest, ?_, ?_⟩
      · simpa using htaken.noEof
      · intro left t after after' hrest ht
        have hsame := htaken.same after' hrest ht
        simp only [List.cons_append, dimensions] at hsame ⊢
        rw [hsame]
        rfl
  | case2 previous bracket position size rest hsize hnone =>
      simp [dimensions, hnone] at h
  | case3 previous bracket position size hsize n hn close position' rest ih =>
      simp only [dimensions, hn] at h
      obtain ⟨⟨ds, d⟩, hrun, hout⟩ := Except.bind_eq_ok_iff.mp h
      cases hout
      obtain ⟨taken, htaken⟩ := ih hrun
      have heof : size.kind ≠ .eof := by
        intro heof
        rw [heof] at hn
        cases hn
      refine ⟨_ :: _ :: _ :: taken, congrArg (_ :: _ :: _ :: ·) htaken.rest, ?_, ?_⟩
      · simpa using ⟨heof, htaken.noEof⟩
      · intro left t after after' hrest ht
        have hsame := htaken.same after' hrest ht
        simp only [List.cons_append, dimensions, hn] at hsame ⊢
        rw [hsame]
        rfl
  | case4 previous bracket position size hsize n hn rest hrest =>
      simp [dimensions, hn, unexpected] at h
  | case5 previous bracket position => simp [dimensions, unexpected] at h
  | case6 previous rest hrest =>
      rw [dimensions] at h
      · cases h
        refine ⟨[], rfl, by simp, ?_⟩
        intro left t after after' hleft ht
        change rest = left ++ t :: after at hleft
        subst hleft
        change dimensions previous (left ++ t :: after') = _
        rw [dimensions]
        rintro bracket position rest' h
        obtain ⟨_, rfl, -⟩ := eq_cons_of_append ht rfl h.symm
        exact hrest _ _ _ rfl
      · exact hrest

/-- The brackets of a type stand before the closing token. -/
theorem Local.arraySuffix (base : Ty) :
    Local (Parse.arraySuffix base) (Parse.arraySuffix base) := by
  intro c type c' hrun
  obtain ⟨⟨dims, d⟩, hdims, hout⟩ := Except.bind_eq_ok_iff.mp hrun
  cases hout
  obtain ⟨taken, htaken⟩ := local_dimensions c.previous c.rest hdims
  refine ⟨taken, htaken.rest, htaken.noEof, ?_⟩
  intro left t after after' hrest ht
  have hsame := htaken.same after' hrest ht
  simp only [Parse.arraySuffix, hsame]
  rfl

/-- What a name stands for is told by the names, which are alike. -/
theorem Local.type {names names' : Names} (h : names.Alike names') :
    Local (Parse.type names) (Parse.type names') := by
  apply Local.look.bind
  intro t
  split
  · rename_i name _
    rw [h.type?]
    split
    · apply Local.take.bind
      intro _
      exact .arraySuffix _
    · exact .failAt _ _
  · exact .unexpected _

end Types

end Parse

end Shading
