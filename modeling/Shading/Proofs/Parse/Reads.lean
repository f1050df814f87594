import Shading.Proofs.Parse.Grammar
import Shading.Proofs.Parse.Takes

/-!
# What productions read

A production reads its way from some tokens to others if it succeeds on every cursor at the
first ones and stops at the second ones. The rules follow the ways of building productions.
-/

namespace Shading

namespace Parse

variable {α β : Type} {m : Parse α} {before middle after : List Kind} {P : α → Prop}
  {Q : β → Prop}

/-- From every cursor at the first tokens the production gives a value with the property and
stops at the second ones. -/
def Reads (m : Parse α) (before after : List Kind) (P : α → Prop) : Prop :=
  ∀ c, c.kinds = before → ∃ a c', m c = .ok (a, c') ∧ c'.kinds = after ∧ P a

namespace Reads

theorem mono {P' : α → Prop} (h : Reads m before after P) (hP : ∀ a, P a → P' a) :
    Reads m before after P' := by
  intro c hc
  obtain ⟨a, c', hrun, hc', ha⟩ := h c hc
  exact ⟨a, c', hrun, hc', hP a ha⟩

theorem pure {a : α} (h : P a) : Reads (Pure.pure a) before before P := fun c hc =>
  ⟨a, c, rfl, hc, h⟩

/-- What the first step leaves is what the second one starts from. -/
theorem bind {f : α → Parse β} (hm : Reads m before middle P)
    (hf : ∀ a, P a → Reads (f a) middle after Q) : Reads (m >>= f) before after Q := by
  intro c hc
  obtain ⟨a, mid, hrun, hmid, ha⟩ := hm c hc
  obtain ⟨b, c', hrun', hc', hb⟩ := hf a ha mid hmid
  exact ⟨b, c', StateT.bind_eq_ok_iff.mpr ⟨a, mid, hrun, hrun'⟩, hc', hb⟩

theorem look {f : Token → Parse β} (h : ∀ t, t.kind = before.headD .eof →
    Reads (f t) before after Q) : Reads (Parse.look >>= f) before after Q := by
  intro c hc
  exact h c.current (by rw [c.current_kind, hc]) c hc

theorem kind {f : Kind → Parse β} (h : Reads (f (before.headD .eof)) before after Q) :
    Reads (Parse.kind >>= f) before after Q := by
  intro c hc
  have hk : c.current.kind = before.headD .eof := by rw [c.current_kind, hc]
  obtain ⟨b, c', hrun, hc', hb⟩ := h c hc
  refine ⟨b, c', ?_, hc', hb⟩
  change f c.current.kind c = _
  rw [hk]
  exact hrun

theorem take {k : Kind} {f : Unit → Parse β} (hk : k ≠ .eof) (h : Reads (f ()) before after Q) :
    Reads (Parse.take >>= f) (k :: before) after Q := by
  intro c hc
  obtain ⟨b, c', hrun, hc', hb⟩ := h c.advance (Cursor.advance_kinds hc hk)
  exact ⟨b, c', hrun, hc', hb⟩

theorem spanFrom {start : Span} {f : Span → Parse β} (h : ∀ s, Reads (f s) before after Q) :
    Reads (Parse.spanFrom start >>= f) before after Q := by
  intro c hc
  exact h _ c hc

theorem eat {s : Symbol} {f : Bool → Parse β} (h : Reads (f true) before after Q) :
    Reads (Parse.eat s >>= f) (.symbol s :: before) after Q := by
  intro c hc
  have hk : c.current.kind = .symbol s := by simp [c.current_kind, hc]
  obtain ⟨b, c', hrun, hc', hb⟩ := h c.advance (Cursor.advance_kinds hc (by simp))
  refine ⟨b, c', StateT.bind_eq_ok_iff.mpr ⟨true, c.advance, ?_, hrun⟩, hc', hb⟩
  simp [Parse.eat, hk]

theorem eat_other {s : Symbol} {f : Bool → Parse β} (hk : before.headD .eof ≠ .symbol s)
    (h : Reads (f false) before after Q) : Reads (Parse.eat s >>= f) before after Q := by
  intro c hc
  have hk' : c.current.kind ≠ .symbol s := by rwa [c.current_kind, hc]
  obtain ⟨b, c', hrun, hc', hb⟩ := h c hc
  refine ⟨b, c', StateT.bind_eq_ok_iff.mpr ⟨false, c, ?_, hrun⟩, hc', hb⟩
  simp [Parse.eat, hk']

theorem eatKeyword {k : Keyword} {f : Bool → Parse β} (h : Reads (f true) before after Q) :
    Reads (Parse.eatKeyword k >>= f) (.keyword k :: before) after Q := by
  intro c hc
  have hk : c.current.kind = .keyword k := by simp [c.current_kind, hc]
  obtain ⟨b, c', hrun, hc', hb⟩ := h c.advance (Cursor.advance_kinds hc (by simp))
  refine ⟨b, c', StateT.bind_eq_ok_iff.mpr ⟨true, c.advance, ?_, hrun⟩, hc', hb⟩
  simp [Parse.eatKeyword, hk]

theorem eatKeyword_other {k : Keyword} {f : Bool → Parse β}
    (hk : before.headD .eof ≠ .keyword k) (h : Reads (f false) before after Q) :
    Reads (Parse.eatKeyword k >>= f) before after Q := by
  intro c hc
  have hk' : c.current.kind ≠ .keyword k := by rwa [c.current_kind, hc]
  obtain ⟨b, c', hrun, hc', hb⟩ := h c hc
  refine ⟨b, c', StateT.bind_eq_ok_iff.mpr ⟨false, c, ?_, hrun⟩, hc', hb⟩
  simp [Parse.eatKeyword, hk']

theorem expect {s : Symbol} {f : Unit → Parse β} (h : Reads (f ()) before after Q) :
    Reads (Parse.expect s >>= f) (.symbol s :: before) after Q := by
  have hexpect : Reads (Parse.expect s) (.symbol s :: before) before fun _ => True :=
    eat (pure trivial)
  exact bind hexpect fun _ _ => h

theorem expectKeyword {k : Keyword} {f : Unit → Parse β} (h : Reads (f ()) before after Q) :
    Reads (Parse.expectKeyword k >>= f) (.keyword k :: before) after Q := by
  have hexpect : Reads (Parse.expectKeyword k) (.keyword k :: before) before fun _ => True :=
    eatKeyword (pure trivial)
  exact bind hexpect fun _ _ => h

end Reads

/-- A name is read from its token. -/
theorem reads_identifier (name : String) (rest : List Kind) :
    Reads identifier (.ident name :: rest) rest fun p => p.1 = name := by
  refine .look fun t ht => ?_
  simp only [List.headD_cons] at ht
  rw [ht]
  exact .take (by simp) (.pure rfl)

theorem Reads.identifier {name : String} {f : String × Span → Parse β}
    (h : ∀ span, Reads (f (name, span)) before after Q) :
    Reads (Parse.identifier >>= f) (.ident name :: before) after Q := by
  refine .bind (reads_identifier name before) ?_
  rintro ⟨n, span⟩ hn
  cases hn
  exact h span

section Lists

variable {γ δ : Type} {item : Parse α} {kinds : γ → List Kind} {view : α → δ} {want : γ → δ}
  {parts : List γ} {rest : List Kind} {fuel : Nat}

/-- Items between commas, each of which is read before whatever may follow an item. -/
theorem reads_separated (hrest : rest.headD .eof ≠ .symbol .comma) (hne : parts ≠ [])
    (hfuel : parts.length ≤ fuel)
    (hcomma : ∀ p ∈ parts, ∀ tail, Reads item (kinds p ++ .symbol .comma :: tail)
      (.symbol .comma :: tail) fun a => view a = want p)
    (hlast : ∀ p ∈ parts, Reads item (kinds p ++ rest) rest fun a => view a = want p) :
    Reads (separated item fuel) (commas (parts.map kinds) ++ rest) rest
      fun as => as.map view = parts.map want := by
  induction parts generalizing fuel with
  | nil => exact absurd rfl hne
  | cons p ps ih =>
      obtain ⟨fuel, rfl⟩ : ∃ n, fuel = n + 1 :=
        ⟨fuel - 1, by simp only [List.length_cons] at hfuel; omega⟩
      cases ps with
      | nil =>
          have hone : Reads (separated item (fuel + 1)) (kinds p ++ rest) rest
              fun as => as.map view = [want p] := by
            refine .bind (hlast p (by simp)) fun a ha => .eat_other hrest ?_
            exact .pure (by simpa using ha)
          simpa [commas] using hone
      | cons q qs =>
          have hlength : (q :: qs).length ≤ fuel := by simpa using hfuel
          have htail := ih (by simp) hlength
            (fun r hr => hcomma r (List.mem_cons_of_mem _ hr))
            (fun r hr => hlast r (List.mem_cons_of_mem _ hr))
          simp only [List.map_cons, commas, List.append_assoc, List.cons_append] at htail ⊢
          refine .bind (hcomma p (by simp) _) fun a ha => .eat ?_
          exact .bind htail fun as has => .pure (by simp [ha, has])

/-- Items up to a closing token, each of which starts with another one. -/
theorem reads_upTo {stop : Kind} (hstop : rest.headD .eof = stop ∨ rest.headD .eof = .eof)
    (hfuel : parts.length ≤ fuel)
    (hhead : ∀ p ∈ parts, ∃ k ks, kinds p = k :: ks ∧ k ≠ stop ∧ k ≠ .eof)
    (hitem : ∀ xs p ys, parts = xs ++ p :: ys →
      Reads item (kinds p ++ (ys.flatMap kinds ++ rest)) (ys.flatMap kinds ++ rest)
        fun a => view a = want p) :
    Reads (upTo stop item (fuel + 1)) (parts.flatMap kinds ++ rest) rest
      fun as => as.map view = parts.map want := by
  induction parts generalizing fuel with
  | nil =>
      refine .kind ?_
      simp only [List.flatMap_nil, List.nil_append]
      rw [if_pos hstop]
      exact .pure rfl
  | cons p ps ih =>
      obtain ⟨fuel, rfl⟩ : ∃ n, fuel = n + 1 :=
        ⟨fuel - 1, by simp only [List.length_cons] at hfuel; omega⟩
      obtain ⟨k, ks, hk, hne, heof⟩ := hhead p (by simp)
      have hfirst := hitem [] p ps rfl
      have hlength : ps.length ≤ fuel := by simpa using hfuel
      have hrest := ih hlength
        (fun q hq => hhead q (List.mem_cons_of_mem _ hq))
        (fun xs q ys hq => hitem (p :: xs) q ys (by rw [hq, List.cons_append]))
      have hk' : (kinds p ++ (ps.flatMap kinds ++ rest)).headD .eof = k := by simp [hk]
      rw [List.flatMap_cons, List.append_assoc]
      refine .kind ?_
      rw [hk', if_neg (by simp [hne, heof])]
      exact .bind hfirst fun a ha => .bind hrest fun as has => .pure (by simp [ha, has])

end Lists

end Parse

end Shading
