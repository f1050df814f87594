import Shading.Parse.File
import Shading.Proofs.Except

/-!
# What productions take

A production that succeeds takes some tokens off the front of the input. The rules say
which ones, what value goes with them and what is left, for each way of building a
production.
-/

namespace Shading

namespace Cursor

/-- The kinds of the tokens that are left. -/
def kinds (c : Cursor) : List Kind := c.rest.map Token.kind

theorem current_kind (c : Cursor) : c.current.kind = c.kinds.headD .eof := by
  unfold current kinds
  cases c.rest with
  | nil => rfl
  | cons t rest => rfl

/-- Taking a token that is no end of file. -/
theorem kinds_eq_cons {c : Cursor} {k : Kind} (h : c.current.kind = k) (hk : k ≠ .eof) :
    c.kinds = k :: c.advance.kinds := by
  cases hr : c.rest with
  | nil =>
      have heof : c.current.kind = .eof := by simp [current, hr, Token.eof]
      exact absurd (h.symm.trans heof) hk
  | cons t rest =>
      have ht : t.kind = k := by simpa [current, hr] using h
      rw [advance_of_kind_ne hr (ht ▸ hk)]
      simp [kinds, hr, ht]

theorem advance_kinds {c : Cursor} {k : Kind} {ks : List Kind} (h : c.kinds = k :: ks)
    (hk : k ≠ .eof) : c.advance.kinds = ks := by
  have hcurrent : c.current.kind = k := by simp [current_kind, h]
  exact (List.cons.inj ((kinds_eq_cons hcurrent hk).symm.trans h)).2

end Cursor

namespace Parse

variable {α β : Type} {m : Parse α}

/-- Whatever tokens the production takes, they, its value and the tokens left are related. No
end of file is taken. -/
def Takes (m : Parse α) (R : List Kind → α → List Kind → Prop) : Prop :=
  ∀ c a c', m c = .ok (a, c') →
    ∃ ks, c.kinds = ks ++ c'.kinds ∧ .eof ∉ ks ∧ R ks a c'.kinds

/-- The same from cursors at a token of the kind. -/
def TakesAt (k : Kind) (m : Parse α) (R : List Kind → α → List Kind → Prop) : Prop :=
  ∀ c a c', c.current.kind = k → m c = .ok (a, c') →
    ∃ ks, c.kinds = ks ++ c'.kinds ∧ .eof ∉ ks ∧ R ks a c'.kinds

namespace Takes

variable {R : List Kind → α → List Kind → Prop} {S : List Kind → β → List Kind → Prop}
  {f : α → Parse β}

theorem of_fails (h : ∀ c a c', m c ≠ .ok (a, c')) : Takes m R := fun c a c' hm =>
  absurd hm (h c a c')

theorem mono {R' : List Kind → α → List Kind → Prop} (hm : Takes m R)
    (h : ∀ ks a rest, R ks a rest → R' ks a rest) : Takes m R' := by
  intro c a c' hrun
  obtain ⟨ks, hks, heof, hR⟩ := hm c a c' hrun
  exact ⟨ks, hks, heof, h _ _ _ hR⟩

theorem pure {a : α} (h : ∀ rest, R [] a rest) : Takes (Pure.pure a) R := by
  intro c b c' hm
  cases hm
  exact ⟨[], rfl, by simp, h _⟩

/-- The general rule: what the first step leaves is known once the second has run. -/
theorem bindRest (hm : Takes m R)
    (hf : ∀ a, Takes (f a) fun ls b rest => ∀ ks, R ks a (ls ++ rest) → S (ks ++ ls) b rest) :
    Takes (m >>= f) S := by
  intro c b c' hrun
  obtain ⟨a, mid, ha, hb⟩ := StateT.bind_eq_ok_iff.mp hrun
  obtain ⟨ks, hks, heof, hR⟩ := hm c a mid ha
  obtain ⟨ls, hls, heof', hS⟩ := hf a mid b c' hb
  exact ⟨ks ++ ls, by rw [hks, hls, List.append_assoc], by simp [heof, heof'], hS ks (hls ▸ hR)⟩

/-- The rule for a step of which only the tokens and the value matter. -/
theorem bind {Q : List Kind → α → Prop} (hm : Takes m fun ks a _ => Q ks a)
    (hf : ∀ ks a, Q ks a → Takes (f a) fun ls b rest => S (ks ++ ls) b rest) :
    Takes (m >>= f) S := by
  intro c b c' hrun
  obtain ⟨a, mid, ha, hb⟩ := StateT.bind_eq_ok_iff.mp hrun
  obtain ⟨ks, hks, heof, hQ⟩ := hm c a mid ha
  obtain ⟨ls, hls, heof', hS⟩ := hf ks a hQ mid b c' hb
  exact ⟨ks ++ ls, by rw [hks, hls, List.append_assoc], by simp [heof, heof'], hS⟩

theorem ite {p : Prop} [Decidable p] {m' : Parse α} (hm : p → Takes m R)
    (hm' : ¬p → Takes m' R) : Takes (if p then m else m') R := by
  split
  · exact hm ‹_›
  · exact hm' ‹_›

theorem failAt (t : Token) (fault : ParseFault) : Takes (Parse.failAt t fault) R :=
  of_fails fun _ _ _ h => by cases h

theorem unexpected (expected : Expected) : Takes (Parse.unexpected expected) R :=
  of_fails fun _ _ _ h => by cases h

theorem spent : Takes Parse.spent R := of_fails fun _ _ _ h => by cases h

theorem at_ (hm : Takes m R) (k : Kind) : TakesAt k m R := fun c a c' _ hrun => hm c a c' hrun

theorem look {f : Token → Parse α} (h : ∀ t, TakesAt t.kind (f t) R) :
    Takes (Parse.look >>= f) R := by
  intro c b c' hrun
  exact h c.current c b c' rfl hrun

theorem kind {f : Kind → Parse α} (h : ∀ k, TakesAt k (f k) R) : Takes (Parse.kind >>= f) R := by
  intro c b c' hrun
  exact h c.current.kind c b c' rfl hrun

theorem spanFrom {start : Span} {f : Span → Parse α} (h : ∀ s, Takes (f s) R) :
    Takes (Parse.spanFrom start >>= f) R := by
  intro c b c' hrun
  exact h _ c b c' hrun

theorem eat {s : Symbol} {f : Bool → Parse α}
    (hyes : Takes (f true) fun ks a rest => R (.symbol s :: ks) a rest)
    (hno : Takes (f false) R) : Takes (Parse.eat s >>= f) R := by
  intro c b c' hrun
  obtain ⟨a, mid, ha, hb⟩ := StateT.bind_eq_ok_iff.mp hrun
  unfold Parse.eat at ha
  split at ha
  · rename_i hk
    cases ha
    obtain ⟨ks, hks, heof, hR⟩ := hyes _ b c' hb
    refine ⟨.symbol s :: ks, ?_, by simp [heof], hR⟩
    rw [Cursor.kinds_eq_cons hk (by simp), hks, List.cons_append]
  · cases ha
    exact hno _ b c' hb

theorem eatKeyword {k : Keyword} {f : Bool → Parse α}
    (hyes : Takes (f true) fun ks a rest => R (.keyword k :: ks) a rest)
    (hno : Takes (f false) R) : Takes (Parse.eatKeyword k >>= f) R := by
  intro c b c' hrun
  obtain ⟨a, mid, ha, hb⟩ := StateT.bind_eq_ok_iff.mp hrun
  unfold Parse.eatKeyword at ha
  split at ha
  · rename_i hk
    cases ha
    obtain ⟨ks, hks, heof, hR⟩ := hyes _ b c' hb
    refine ⟨.keyword k :: ks, ?_, by simp [heof], hR⟩
    rw [Cursor.kinds_eq_cons hk (by simp), hks, List.cons_append]
  · cases ha
    exact hno _ b c' hb

/-- The same where it matters that another token stands there. -/
theorem eatKeywordOr {k : Keyword} {f : Bool → Parse α}
    (hyes : Takes (f true) fun ks a rest => R (.keyword k :: ks) a rest)
    (hno : Takes (f false) fun ks a rest =>
      (ks ++ rest).headD .eof ≠ .keyword k → R ks a rest) :
    Takes (Parse.eatKeyword k >>= f) R := by
  intro c b c' hrun
  by_cases hk : c.current.kind = .keyword k
  · have heat : Parse.eatKeyword k c = .ok (true, c.advance) := by
      simp [Parse.eatKeyword, hk]
    rw [StateT.bind_of_ok heat] at hrun
    obtain ⟨ks, hks, heof, hR⟩ := hyes _ b c' hrun
    refine ⟨.keyword k :: ks, ?_, by simp [heof], hR⟩
    rw [Cursor.kinds_eq_cons hk (by simp), hks, List.cons_append]
  · have heat : Parse.eatKeyword k c = .ok (false, c) := by
      simp [Parse.eatKeyword, hk]
    rw [StateT.bind_of_ok heat] at hrun
    obtain ⟨ks, hks, heof, hR⟩ := hno _ b c' hrun
    rw [c.current_kind, hks] at hk
    exact ⟨ks, hks, heof, hR hk⟩

theorem atDeclaration {names : Names} {f : Bool → Parse α} (h : ∀ b, Takes (f b) R) :
    Takes (Parse.atDeclaration names >>= f) R := by
  intro c b c' hrun
  exact h _ c b c' hrun

theorem expect {s : Symbol} {f : Unit → Parse α}
    (h : Takes (f ()) fun ks a rest => R (.symbol s :: ks) a rest) :
    Takes (Parse.expect s >>= f) R := by
  refine bind (Q := fun ks _ => ks = [.symbol s]) ?_ fun ks _ hks => hks ▸ h
  exact eat (pure fun _ => rfl) (unexpected _)

theorem expectKeyword {k : Keyword} {f : Unit → Parse α}
    (h : Takes (f ()) fun ks a rest => R (.keyword k :: ks) a rest) :
    Takes (Parse.expectKeyword k >>= f) R := by
  refine bind (Q := fun ks _ => ks = [.keyword k]) ?_ fun ks _ hks => hks ▸ h
  exact eatKeyword (pure fun _ => rfl) (unexpected _)

end Takes

namespace TakesAt

variable {k : Kind} {R : List Kind → α → List Kind → Prop}

/-- Taking the token at the cursor. -/
theorem take {f : Unit → Parse α} (hk : k ≠ .eof)
    (h : Takes (f ()) fun ks a rest => R (k :: ks) a rest) : TakesAt k (Parse.take >>= f) R := by
  intro c b c' hcurrent hrun
  obtain ⟨ks, hks, heof, hR⟩ := h _ b c' hrun
  refine ⟨k :: ks, ?_, by simp [heof, hk.symm], hR⟩
  rw [Cursor.kinds_eq_cons hcurrent hk, hks, List.cons_append]

theorem look {f : Token → Parse α} (h : ∀ t, t.kind = k → TakesAt k (f t) R) :
    TakesAt k (Parse.look >>= f) R := by
  intro c b c' hcurrent hrun
  exact h c.current hcurrent c b c' hcurrent hrun

theorem pure {a : α} (h : ∀ rest : List Kind, rest.headD .eof = k → R [] a rest) :
    TakesAt k (Pure.pure a) R := by
  intro c b c' hcurrent hm
  cases hm
  exact ⟨[], rfl, by simp, h _ (c.current_kind ▸ hcurrent)⟩

theorem spanFrom {start : Span} {f : Span → Parse α} (h : ∀ s, TakesAt k (f s) R) :
    TakesAt k (Parse.spanFrom start >>= f) R := by
  intro c b c' hcurrent hrun
  exact h _ c b c' hcurrent hrun

theorem cursor {f : Cursor → Parse α} (h : ∀ c, TakesAt k (f c) R) :
    TakesAt k (get >>= f) R := by
  intro c b c' hcurrent hrun
  exact h c c b c' hcurrent hrun

theorem ite {p : Prop} [Decidable p] {m m' : Parse α} (hm : p → TakesAt k m R)
    (hm' : ¬p → TakesAt k m' R) : TakesAt k (if p then m else m') R := by
  split
  · exact hm ‹_›
  · exact hm' ‹_›

theorem mono {R' : List Kind → α → List Kind → Prop} (hm : TakesAt k m R)
    (h : ∀ ks a rest, R ks a rest → R' ks a rest) : TakesAt k m R' := by
  intro c a c' hcurrent hrun
  obtain ⟨ks, hks, heof, hR⟩ := hm c a c' hcurrent hrun
  exact ⟨ks, hks, heof, h _ _ _ hR⟩

theorem bindRest {S : List Kind → β → List Kind → Prop} {f : α → Parse β} (hm : TakesAt k m R)
    (hf : ∀ a, Takes (f a) fun ls b rest => ∀ ks, R ks a (ls ++ rest) → S (ks ++ ls) b rest) :
    TakesAt k (m >>= f) S := by
  intro c b c' hcurrent hrun
  obtain ⟨a, mid, ha, hb⟩ := StateT.bind_eq_ok_iff.mp hrun
  obtain ⟨ks, hks, heof, hR⟩ := hm c a mid hcurrent ha
  obtain ⟨ls, hls, heof', hS⟩ := hf a mid b c' hb
  exact ⟨ks ++ ls, by rw [hks, hls, List.append_assoc], by simp [heof, heof'], hS ks (hls ▸ hR)⟩

end TakesAt

/-- An identifier is one token. -/
theorem takes_identifier : Takes identifier fun ks p _ => ks = [.ident p.1] := by
  refine .look fun t => ?_
  split
  · rename_i heq
    rw [heq]
    exact .take (by simp) (.pure fun _ => rfl)
  · exact (Takes.unexpected _).at_ _

theorem Takes.identifier {R : List Kind → β → List Kind → Prop} {f : String × Span → Parse β}
    (h : ∀ name span, Takes (f (name, span)) fun ks b rest => R (.ident name :: ks) b rest) :
    Takes (Parse.identifier >>= f) R :=
  .bind takes_identifier fun _ p hks => hks ▸ h p.1 p.2

end Parse

end Shading
