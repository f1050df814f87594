import Shading.Parse.File
import Shading.Proofs.Except
import Shading.Proofs.Syntax.Outline
import Shading.Proofs.Token.Partition

/-!
# Productions over a source text

The tokens of a source stand in it one after the other. A production that goes over them gives
a tree that is laid out between the token that it starts at and the last one that it takes, or
it fails at a place in the source. The rules follow the combinators that productions are made
of.
-/

namespace Shading

open Lexer (byteLength)
open Outline (Laid)

/-- A span that lies in a source, and the line and column at which it starts. -/
structure InSource (source : List Char) (span : Span) (position : Position) : Prop where
  start_le_stop : span.start ≤ span.stop
  stop_le : span.stop ≤ byteLength source
  position_eq : position = Lines.position source span.start
  counted : Lexer.CountedAt source span.start position

/-- An error at a place in the source. -/
def ParseError.InSource (source : List Char) (e : ParseError) : Prop :=
  Shading.InSource source e.span e.position

namespace Cursor

/-- The tokens that are left stand in the source, one after the other, and one of them ends the
file. -/
structure Sound (source : List Char) (c : Cursor) : Prop where
  inSource : ∀ t ∈ c.rest, InSource source t.span t.position
  ordered : c.rest.Pairwise (·.span.stop ≤ ·.span.start)
  ends : ∃ t ∈ c.rest, t.kind = .eof

variable {source : List Char} {c : Cursor}

theorem Sound.current_mem (h : c.Sound source) : c.current ∈ c.rest := by
  obtain ⟨t, ht, -⟩ := h.ends
  unfold current
  cases hrest : c.rest with
  | nil =>
      rw [hrest] at ht
      cases ht
  | cons u rest => exact List.mem_cons_self

/-- The current token lies in the source, past the end as well, where it is the end of file. -/
theorem Sound.current (h : c.Sound source) : InSource source c.current.span c.current.position :=
  h.inSource _ h.current_mem

/-- Taking a token leaves the later ones, and the next one stands after it. -/
theorem Sound.advance (h : c.Sound source) (hk : c.current.kind ≠ .eof) :
    c.advance.Sound source ∧ c.advance.previous = c.current.span ∧
      c.current.span.stop ≤ c.advance.current.span.start := by
  obtain ⟨u, rest, hrest⟩ := List.exists_cons_of_ne_nil (List.ne_nil_of_mem h.current_mem)
  have hcurrent : c.current = u := by simp [Cursor.current, hrest]
  rw [hcurrent] at hk ⊢
  rw [advance_of_kind_ne hrest hk]
  obtain ⟨t, ht, heof⟩ := h.ends
  have hordered := h.ordered
  rw [hrest] at ht hordered
  have hlast : t ∈ rest := by
    rcases List.mem_cons.mp ht with rfl | ht
    · exact absurd heof hk
    · exact ht
  obtain ⟨hfirst, hlater⟩ := List.pairwise_cons.mp hordered
  have hsound : Sound source ⟨rest, u.span⟩ :=
    ⟨fun v hv => h.inSource v (hrest ▸ List.mem_cons_of_mem _ hv), hlater, t, hlast, heof⟩
  exact ⟨hsound, rfl, hfirst _ hsound.current_mem⟩

/-- Nothing is taken yet, and the token stands next. -/
structure Start (source : List Char) (t : Token) (c : Cursor) : Prop where
  sound : c.Sound source
  current_eq : c.current = t

/-- From the token on, some tokens are taken, and outlines are laid out over them. -/
structure Taken (source : List Char) (t : Token) (os : List Outline) (c : Cursor) : Prop where
  sound : c.Sound source
  start : InSource source t.span t.position
  start_le : t.span.start ≤ c.previous.start
  stop_le : t.span.stop ≤ c.previous.stop
  next : c.previous.stop ≤ c.current.span.start
  laid : Laid t.span.start c.previous.stop os

variable {t : Token} {os : List Outline}

theorem Start.inSource (h : Start source t c) : InSource source t.span t.position :=
  h.current_eq ▸ h.sound.current

/-- Taking the first token leaves nothing to lay out but that token. -/
theorem Start.advance (h : Start source t c) (hk : t.kind ≠ .eof) :
    Taken source t [] c.advance := by
  have hplace := h.inSource
  obtain ⟨hsound, hprevious, hnext⟩ := h.sound.advance (h.current_eq ▸ hk)
  rw [h.current_eq] at hprevious hnext
  refine ⟨hsound, hplace, ?_, ?_, ?_, ?_⟩
  · rw [hprevious]
  · rw [hprevious]
  · rwa [hprevious]
  · rw [hprevious]
    exact .nil hplace.start_le_stop

namespace Taken

/-- A token taken behind the others extends the span that is laid out. -/
theorem advance (h : Taken source t os c) (hk : c.current.kind ≠ .eof) :
    Taken source t os c.advance := by
  obtain ⟨hsound, hprevious, hnext⟩ := h.sound.advance hk
  have hplace := h.sound.current.start_le_stop
  have hstart := h.start.start_le_stop
  have hstop := h.stop_le
  have hbefore := h.next
  refine ⟨hsound, h.start, ?_, ?_, ?_, h.laid.mono (Nat.le_refl _) ?_⟩
  · rw [hprevious]
    omega
  · rw [hprevious]
    omega
  · rwa [hprevious]
  · rw [hprevious]
    omega

/-- What was taken ends within the source. -/
theorem stop_le_source (h : Taken source t os c) : c.previous.stop ≤ byteLength source := by
  have hcurrent := h.sound.current
  exact Nat.le_trans h.next (Nat.le_trans hcurrent.start_le_stop hcurrent.stop_le)

/-- What is read after the outlines is laid out after them. -/
theorem append {c' : Cursor} {ps : List Outline} (h : Taken source t os c)
    (h' : Taken source c.current ps c') : Taken source t (os ++ ps) c' := by
  have hstart := h.start.start_le_stop
  have hstop := h.stop_le
  have hbefore := h.next
  have hcurrent := h.sound.current.start_le_stop
  have hstart' := h'.start_le
  have hstop' := h'.stop_le
  refine ⟨h'.sound, h.start, ?_, ?_, h'.next, ?_⟩
  · omega
  · omega
  · exact h.laid.append (h'.laid.mono hbefore (Nat.le_refl _))

/-- One span around the outlines. -/
theorem wrap {s : Span} (h : Taken source t os c) (hlo : t.span.start ≤ s.start)
    (hlaid : Laid s.start s.stop os) (hhi : s.stop ≤ c.previous.stop) :
    Taken source t [.node s os] c :=
  { h with laid := hlaid.wrap hlo hhi }

/-- What the tokens cover lies in the source. -/
theorem inSource (h : Taken source t os c) :
    InSource source (t.span.merge c.previous) t.position := by
  have hstart : (t.span.merge c.previous).start = t.span.start := Nat.min_eq_left h.start_le
  have hstop : (t.span.merge c.previous).stop = c.previous.stop := Nat.max_eq_right h.stop_le
  refine ⟨?_, ?_, hstart ▸ h.start.position_eq, hstart ▸ h.start.counted⟩
  · rw [hstart, hstop]
    exact h.laid.le
  · rw [hstop]
    exact h.stop_le_source

/-- The span from the first token to the last one. -/
theorem spanFrom (h : Taken source t os c) :
    Taken source t [.node (t.span.merge c.previous) os] c := by
  have hstart : (t.span.merge c.previous).start = t.span.start := Nat.min_eq_left h.start_le
  have hstop : (t.span.merge c.previous).stop = c.previous.stop := Nat.max_eq_right h.stop_le
  exact h.wrap hstart.ge (hstart ▸ hstop ▸ h.laid) hstop.le

/-- The span from the first outline to the last token. -/
theorem spanFromFirst {o : Outline} (h : Taken source t (o :: os) c) :
    Taken source t [.node (o.span.merge c.previous) (o :: os)] c := by
  obtain ⟨hlo, hlaid⟩ := h.laid.first
  have hhi := (h.laid.bounds o List.mem_cons_self).2
  have hstop : (o.span.merge c.previous).stop = c.previous.stop := Nat.max_eq_right hhi
  refine h.wrap (Nat.le_min.mpr ⟨hlo, h.start_le⟩) ?_ hstop.le
  exact hlaid.mono (Nat.min_le_left _ _) hstop.ge

/-- The span from the first token to the end of an outline. -/
theorem spanTo {o : Outline} (h : Taken source t [o] c) :
    Taken source t [.node (t.span.merge o.span) [o]] c := by
  obtain ⟨hlo, hlaid⟩ := h.laid.first
  obtain ⟨hhi, hlast⟩ := Laid.last [] hlaid
  refine h.wrap (Nat.le_min.mpr ⟨Nat.le_refl _, hlo⟩) ?_ (Nat.max_le.mpr ⟨h.stop_le, hhi⟩)
  exact hlast.mono (Nat.min_le_right _ _) (Nat.le_max_right _ _)

/-- The span from the first outline to the end of the last one. -/
theorem merge (os : List Outline) {o p : Outline} (h : Taken source t (o :: (os ++ [p])) c) :
    Taken source t [.node (o.span.merge p.span) (o :: (os ++ [p]))] c := by
  obtain ⟨hlo, hfirst⟩ := h.laid.first
  obtain ⟨hhi, hlaid⟩ := Laid.last (o :: os) hfirst
  have hp := (hlaid.bounds p (Laid.mem_throughout (by simp))).1
  have ho := (hlaid.bounds o List.mem_cons_self).2
  have hstart : (o.span.merge p.span).start = o.span.start := Nat.min_eq_left hp
  have hstop : (o.span.merge p.span).stop = p.span.stop := Nat.max_eq_right ho
  exact h.wrap (hstart ▸ hlo) (hstart ▸ hstop ▸ hlaid) (hstop ▸ hhi)

end Taken

/-- From the token on nothing is taken, or tokens that nothing is laid out over. -/
def Since (source : List Char) (t : Token) (c : Cursor) : Prop :=
  Start source t c ∨ Taken source t [] c

namespace Since

/-- The tokens that are left lie in the source in either case. -/
theorem sound (h : Since source t c) : c.Sound source := by
  rcases h with h | h
  · exact h.sound
  · exact h.sound

/-- Whether any token was taken before or not, one is taken now. -/
theorem advance (h : Since source t c) (hk : c.current.kind ≠ .eof) :
    Taken source t [] c.advance := by
  rcases h with h | h
  · exact h.advance (h.current_eq ▸ hk)
  · exact h.advance hk

end Since

end Cursor

open Cursor (Start Taken Since)

namespace Parse

variable {source : List Char} {α β : Type} {P : Cursor → Prop} {t : Token} {os : List Outline}

/-- From every cursor with the first property the production goes on to a value and a cursor
with the second one, or it fails at a place in the source. -/
def Holds (source : List Char) (P : Cursor → Prop) (m : Parse α) (Q : α → Cursor → Prop) : Prop :=
  ∀ c, P c → Except.Ends (ParseError.InSource source) (fun out => Q out.1 out.2) (m c)

namespace Holds

variable {m : Parse α} {Q : α → Cursor → Prop} {R : β → Cursor → Prop} {f : α → Parse β}

theorem imp {P' : Cursor → Prop} {Q' : α → Cursor → Prop} (h : Holds source P m Q)
    (hP : ∀ c, P' c → P c) (hQ : ∀ a c, Q a c → Q' a c) : Holds source P' m Q' :=
  fun c hc => (h c (hP c hc)).imp (fun _ he => he) fun out => hQ out.1 out.2

theorem start (h : Holds source (Since source t) m Q) : Holds source (Start source t) m Q :=
  h.imp (fun _ hc => .inl hc) fun _ _ hQ => hQ

/-- What is known beside the property may be forgotten. -/
theorem left {P' : Cursor → Prop} (h : Holds source P m Q) :
    Holds source (fun c => P c ∧ P' c) m Q :=
  h.imp (fun _ hc => hc.1) fun _ _ hQ => hQ

/-- What is known beside the property and not of the cursor may be used. -/
theorem given {p : Prop} (h : p → Holds source P m Q) : Holds source (fun c => P c ∧ p) m Q :=
  fun c hc => h hc.2 c hc.1

theorem pure {a : α} (h : ∀ c, P c → Q a c) : Holds source P (Pure.pure a) Q :=
  fun c hc => .ok (h c hc)

theorem bind {S : α → Cursor → Prop} (hm : Holds source P m S)
    (hf : ∀ a, Holds source (S a) (f a) R) : Holds source P (m >>= f) R :=
  fun c hc => (hm c hc).bind fun out hout => hf out.1 out.2 hout

theorem ite {p : Prop} [Decidable p] {m' : Parse α} (hm : p → Holds source P m Q)
    (hm' : ¬p → Holds source P m' Q) : Holds source P (if p then m else m') Q := by
  split
  · exact hm ‹_›
  · exact hm' ‹_›

theorem unexpected {expected : Expected} (h : ∀ c, P c → c.Sound source) :
    Holds source P (Parse.unexpected expected) Q :=
  fun c hc => .error (h c hc).current

theorem failAt {fault : ParseFault} (h : ∀ c, P c → InSource source t.span t.position) :
    Holds source P (Parse.failAt t fault) Q :=
  fun c hc => .error (h c hc)

theorem spent (h : ∀ c, P c → c.Sound source) : Holds source P Parse.spent Q :=
  fun c hc => .error (h c hc).current

/-- An error of the check was found at an attribute. -/
theorem checked {result : Checked α} (h : Except.FailsWithin (ParseError.InSource source) result)
    (hf : ∀ a, Holds source P (f a) R) : Holds source P (Parse.checked result >>= f) R := by
  intro c hc
  cases h with
  | ok _ => exact hf _ c hc
  | error he => exact .error he

theorem look {f : Token → Parse β}
    (h : ∀ u, Holds source (fun c => P c ∧ c.current = u) (f u) R) :
    Holds source P (Parse.look >>= f) R :=
  fun c hc => h c.current c ⟨hc, rfl⟩

/-- The token looked at is the one that the span starts with. -/
theorem lookStart {f : Token → Parse β} (h : Holds source (Start source t) (f t) R) :
    Holds source (Start source t) (Parse.look >>= f) R :=
  look fun u c hc => by
    obtain rfl : t = u := hc.1.current_eq.symm.trans hc.2
    exact h c hc.1

theorem get {f : Cursor → Parse β} (h : ∀ c, Holds source P (f c) R) :
    Holds source P (MonadState.get >>= f) R :=
  fun c hc => h c c hc

theorem kind {f : Kind → Parse β}
    (h : ∀ k, Holds source (fun c => P c ∧ c.current.kind = k) (f k) R) :
    Holds source P (Parse.kind >>= f) R :=
  fun c hc => h c.current.kind c ⟨hc, rfl⟩

theorem atDeclaration {names : Names} {f : Bool → Parse β} (h : ∀ b, Holds source P (f b) R) :
    Holds source P (Parse.atDeclaration names >>= f) R :=
  fun c hc => h _ c hc

/-- The kind is that of the token that the span starts with. -/
theorem kindStart {f : Kind → Parse β} (h : Holds source (Start source t) (f t.kind) R) :
    Holds source (Start source t) (Parse.kind >>= f) R :=
  kind fun k c hc => by
    obtain rfl : t.kind = k := hc.1.current_eq ▸ hc.2
    exact h c hc.1

theorem takeStart {f : Unit → Parse β} (hk : t.kind ≠ .eof)
    (h : Holds source (Taken source t []) (f ()) R) :
    Holds source (Start source t) (Parse.take >>= f) R :=
  fun c hc => h c.advance (hc.advance hk)

theorem take {k : Kind} {f : Unit → Parse β} (hk : k ≠ .eof)
    (h : Holds source (Taken source t os) (f ()) R) :
    Holds source (fun c => Taken source t os c ∧ c.current.kind = k) (Parse.take >>= f) R :=
  fun c hc => h c.advance (hc.1.advance (hc.2 ▸ hk))

/-- The token that was looked at is the last one taken. -/
theorem takeLooked {u : Token} {f : Unit → Parse β} (hk : u.kind ≠ .eof)
    (h : Holds source (fun c => Taken source t os c ∧ c.previous = u.span) (f ()) R) :
    Holds source (fun c => Taken source t os c ∧ c.current = u) (Parse.take >>= f) R := by
  rintro c ⟨hc, rfl⟩
  exact h c.advance ⟨hc.advance hk, (hc.sound.advance hk).2.1⟩

/-- A token is taken, be it the first one or not. -/
theorem takeSince {u : Token} {f : Unit → Parse β} (hk : u.kind ≠ .eof)
    (h : Holds source (Taken source t []) (f ()) R) :
    Holds source (fun c => Since source t c ∧ c.current = u) (Parse.take >>= f) R := by
  rintro c ⟨hc, rfl⟩
  exact h c.advance (hc.advance hk)

theorem eat {s : Symbol} {f : Bool → Parse β} (hyes : Holds source (Taken source t os) (f true) R)
    (hno : Holds source (Taken source t os) (f false) R) :
    Holds source (Taken source t os) (Parse.eat s >>= f) R := by
  refine bind (S := fun _ => Taken source t os) (fun c hc => ?_) fun b => ?_
  · unfold Parse.eat
    split
    · rename_i hk
      exact .ok (hc.advance (by simp [hk]))
    · exact .ok hc
  · cases b
    · exact hno
    · exact hyes

theorem eatKeyword {k : Keyword} {f : Bool → Parse β}
    (hyes : Holds source (Taken source t os) (f true) R)
    (hno : Holds source (Taken source t os) (f false) R) :
    Holds source (Taken source t os) (Parse.eatKeyword k >>= f) R := by
  refine bind (S := fun _ => Taken source t os) (fun c hc => ?_) fun b => ?_
  · unfold Parse.eatKeyword
    split
    · rename_i hk
      exact .ok (hc.advance (by simp [hk]))
    · exact .ok hc
  · cases b
    · exact hno
    · exact hyes

/-- Where the symbol is not taken, there may be no token yet. -/
theorem eatSince {s : Symbol} {f : Bool → Parse β}
    (hyes : Holds source (Taken source t []) (f true) R)
    (hno : Holds source (Since source t) (f false) R) :
    Holds source (Since source t) (Parse.eat s >>= f) R := by
  intro c hc
  by_cases hk : c.current.kind = .symbol s
  · have heat : Parse.eat s c = .ok (true, c.advance) := by simp [Parse.eat, hk]
    rw [StateT.bind_of_ok heat]
    exact hyes _ (hc.advance (by simp [hk]))
  · have heat : Parse.eat s c = .ok (false, c) := by simp [Parse.eat, hk]
    rw [StateT.bind_of_ok heat]
    exact hno c hc

theorem eatKeywordSince {k : Keyword} {f : Bool → Parse β}
    (hyes : Holds source (Taken source t []) (f true) R)
    (hno : Holds source (Since source t) (f false) R) :
    Holds source (Since source t) (Parse.eatKeyword k >>= f) R := by
  intro c hc
  by_cases hk : c.current.kind = .keyword k
  · have heat : Parse.eatKeyword k c = .ok (true, c.advance) := by simp [Parse.eatKeyword, hk]
    rw [StateT.bind_of_ok heat]
    exact hyes _ (hc.advance (by simp [hk]))
  · have heat : Parse.eatKeyword k c = .ok (false, c) := by simp [Parse.eatKeyword, hk]
    rw [StateT.bind_of_ok heat]
    exact hno c hc

theorem expect {s : Symbol} {f : Unit → Parse β}
    (h : Holds source (Taken source t os) (f ()) R) :
    Holds source (Taken source t os) (Parse.expect s >>= f) R :=
  bind (eat (pure fun _ hc => hc) (unexpected fun _ hc => hc.sound)) fun _ => h

theorem expectKeyword {k : Keyword} {f : Unit → Parse β}
    (h : Holds source (Taken source t os) (f ()) R) :
    Holds source (Taken source t os) (Parse.expectKeyword k >>= f) R :=
  bind (eatKeyword (pure fun _ hc => hc) (unexpected fun _ hc => hc.sound)) fun _ => h

theorem expectSince {s : Symbol} {f : Unit → Parse β}
    (h : Holds source (Taken source t []) (f ()) R) :
    Holds source (Since source t) (Parse.expect s >>= f) R :=
  bind (eatSince (pure fun _ hc => hc) (unexpected fun _ hc => hc.sound)) fun _ => h

theorem expectKeywordSince {k : Keyword} {f : Unit → Parse β}
    (h : Holds source (Taken source t []) (f ()) R) :
    Holds source (Since source t) (Parse.expectKeyword k >>= f) R :=
  bind (eatKeywordSince (pure fun _ hc => hc) (unexpected fun _ hc => hc.sound)) fun _ => h

theorem spanFrom {f : Span → Parse β}
    (h : ∀ s, Holds source (Taken source t [.node s os]) (f s) R) :
    Holds source (Taken source t os) (Parse.spanFrom t.span >>= f) R :=
  fun c hc => h _ c hc.spanFrom

/-- A tree that is made last, around all that was taken. -/
theorem finish {make : Span → α} {view : α → List Outline}
    (h : ∀ s, view (make s) = [.node s os]) :
    Holds source (Taken source t os) (do return make (← Parse.spanFrom t.span))
      fun a => Taken source t (view a) :=
  spanFrom fun s => pure fun _ hc => (h s).symm ▸ hc

theorem spanFromFirst {o : Outline} {f : Span → Parse β}
    (h : ∀ s, Holds source (Taken source t [.node s (o :: os)]) (f s) R) :
    Holds source (Taken source t (o :: os)) (Parse.spanFrom o.span >>= f) R :=
  fun c hc => h _ c hc.spanFromFirst

/-- What holds from the token at the cursor holds after other tokens too, behind what was laid
out over them. -/
theorem frame {u : Token} {view : α → List Outline} {E : α → Cursor → Prop}
    (hm : Holds source (Start source u) m fun a c => Taken source u (view a) c ∧ E a c) :
    Holds source (fun c => Taken source t os c ∧ c.current = u) m
      fun a c => Taken source t (os ++ view a) c ∧ E a c := by
  rintro c ⟨hc, rfl⟩
  exact (hm c ⟨hc.sound, rfl⟩).imp (fun _ he => he) fun out hout =>
    ⟨hc.append hout.1, hout.2⟩

/-- What holds from the token at the cursor holds after tokens that nothing is laid out over. -/
theorem sinceLooked {u : Token} {view : α → List Outline}
    (hm : Holds source (Start source u) m fun a => Taken source u (view a)) :
    Holds source (fun c => Since source t c ∧ c.current = u) m
      fun a => Taken source t (view a) := by
  rintro c ⟨hc, rfl⟩
  rcases hc with hc | hc
  · rw [← hc.current_eq]
    exact hm c ⟨hc.sound, rfl⟩
  · exact (hm c ⟨hc.sound, rfl⟩).imp (fun _ he => he) fun _ hout => hc.append hout

/-- Items up to a closing token keep what each of them keeps. -/
theorem upTo {I : List α → Cursor → Prop} {item : Parse α} (stop : Kind)
    (hsound : ∀ as c, I as c → c.Sound source)
    (hitem : ∀ as, Holds source (I as) item fun a => I (as ++ [a])) (fuel : Nat) (as : List α) :
    Holds source (I as) (Parse.upTo stop item fuel) fun bs => I (as ++ bs) := by
  induction fuel generalizing as with
  | zero => exact spent (hsound as)
  | succ fuel ih =>
      refine kind fun k => left (ite (fun _ => pure fun c hc => by simpa using hc) fun _ => ?_)
      refine (hitem as).bind fun a => (ih (as ++ [a])).bind fun bs => pure fun c hc => ?_
      simpa using hc

/-- Items between commas keep what each of them and each comma keeps. -/
theorem separated {I : List α → Cursor → Prop} {item : Parse α}
    (hsound : ∀ as c, I as c → c.Sound source)
    (hitem : ∀ as, Holds source (I as) item fun a => I (as ++ [a]))
    (hcomma : ∀ as c, I as c → c.current.kind ≠ .eof → I as c.advance) (fuel : Nat)
    (as : List α) : Holds source (I as) (Parse.separated item fuel) fun bs => I (as ++ bs) := by
  induction fuel generalizing as with
  | zero => exact spent (hsound as)
  | succ fuel ih =>
      refine (hitem as).bind fun a => ?_
      refine bind (S := fun _ => I (as ++ [a])) (fun c hc => ?_) fun b => ?_
      · unfold Parse.eat
        split
        · rename_i hk
          exact .ok (hcomma _ c hc (by simp [hk]))
        · exact .ok hc
      · refine ite (fun _ => ?_) fun _ => pure fun c hc => hc
        refine (ih (as ++ [a])).bind fun bs => pure fun c hc => ?_
        simpa using hc

end Holds

/-- A production that takes at least one token and lays out its value over what it takes. -/
def Lays (source : List Char) (m : Parse α) (view : α → List Outline) : Prop :=
  ∀ t, Holds source (Start source t) m fun a => Taken source t (view a)

namespace Lays

variable {m : Parse α} {view : α → List Outline} {R : β → Cursor → Prop} {f : α → Parse β}

/-- The parts that are read come behind those that were there. -/
theorem after (hm : Lays source m view) (t : Token) (os : List Outline) :
    Holds source (Taken source t os) m fun a => Taken source t (os ++ view a) := by
  intro c hc
  have hplain := (hm c.current).imp (fun _ h => h) fun a c' h => And.intro h True.intro
  exact (hplain.frame c ⟨hc, rfl⟩).imp (fun _ he => he) fun _ hout => hout.1

/-- The rule for a production at the start of another one. -/
theorem bind (hm : Lays source m view)
    (hf : ∀ a, Holds source (Taken source t (view a)) (f a) R) :
    Holds source (Start source t) (m >>= f) R := (hm t).bind hf

/-- The rule for a production behind other ones. -/
theorem andThen (hm : Lays source m view)
    (hf : ∀ a, Holds source (Taken source t (os ++ view a)) (f a) R) :
    Holds source (Taken source t os) (m >>= f) R := (hm.after t os).bind hf

theorem since (hm : Lays source m view) :
    Holds source (Since source t) m fun a => Taken source t (view a) :=
  fun c hc => Holds.sinceLooked (hm c.current) c ⟨hc, rfl⟩

/-- The rule for a production that lays out nothing. -/
theorem skip (hm : Lays source m fun _ => [])
    (hf : ∀ a, Holds source (Taken source t os) (f a) R) :
    Holds source (Taken source t os) (m >>= f) R :=
  hm.andThen fun a => (List.append_nil os).symm ▸ hf a

/-- Items of a list come one behind the other. -/
theorem upTo (hm : Lays source m view) (stop : Kind) (fuel : Nat) (t : Token)
    (os : List Outline) : Holds source (Taken source t os) (Parse.upTo stop m fuel) fun as =>
      Taken source t (os ++ as.flatMap view) := by
  have hrun := Holds.upTo (I := fun as => Taken source t (os ++ as.flatMap view)) stop
    (fun _ _ hc => hc.sound)
    (fun as => (hm.after t _).imp (fun _ h => h) fun a c h => by simpa using h) fuel []
  exact hrun.imp (fun c hc => by simpa using hc) fun as c hc => hc

/-- Items between commas come one behind the other. -/
theorem separated (hm : Lays source m view) (fuel : Nat) (t : Token) (os : List Outline) :
    Holds source (Taken source t os) (Parse.separated m fuel) fun as =>
      Taken source t (os ++ as.flatMap view) := by
  have hrun := Holds.separated (I := fun as => Taken source t (os ++ as.flatMap view))
    (fun _ _ hc => hc.sound)
    (fun as => (hm.after t _).imp (fun _ h => h) fun a c h => by simpa using h)
    (fun as c hc hk => hc.advance hk) fuel []
  exact hrun.imp (fun c hc => by simpa using hc) fun as c hc => hc

end Lays

/-- The span of an identifier is that of the token taken. -/
theorem holds_identifier :
    Holds source (Start source t) identifier fun p c => Taken source t [] c ∧ p.2 = c.previous := by
  refine .lookStart ?_
  split
  · rename_i heq
    intro c hc
    have hk : t.kind ≠ .eof := by simp [heq]
    obtain ⟨-, hprevious, -⟩ := hc.sound.advance (hc.current_eq ▸ hk)
    rw [hc.current_eq] at hprevious
    exact .ok ⟨hc.advance hk, hprevious.symm⟩
  · exact .unexpected fun _ hc => hc.sound

/-- The rule for a name whose span matters. -/
theorem Holds.identifier {R : β → Cursor → Prop} {f : String × Span → Parse β}
    (h : ∀ name span, Holds source (fun c => Taken source t os c ∧ span = c.previous)
      (f (name, span)) R) : Holds source (Taken source t os) (Parse.identifier >>= f) R := by
  intro c hc
  refine (holds_identifier.frame c ⟨hc, rfl⟩).bind fun out hout => h out.1.1 out.1.2 out.2 ?_
  rwa [List.append_nil] at hout

theorem lays_identifier : Lays source identifier fun _ => [] := fun _ =>
  holds_identifier.imp (fun _ h => h) fun _ _ h => h.1

/-- Taking a token that is known. -/
theorem taken_cons {u : Token} {rest : List Token} {previous : Span}
    (h : Taken source t os ⟨u :: rest, previous⟩) (hk : u.kind ≠ .eof) :
    Taken source t os ⟨rest, u.span⟩ := by
  rw [← Cursor.advance_of_kind_ne (c := ⟨u :: rest, previous⟩) rfl hk]
  exact h.advance hk

/-- Brackets are no parts, and a fault in them is found in the source. -/
theorem ends_dimensions {previous : Span} {ts : List Token}
    (h : Taken source t os ⟨ts, previous⟩) :
    Except.Ends (ParseError.InSource source) (fun out => Taken source t os out.2)
      (dimensions previous ts) := by
  induction previous, ts using dimensions.induct with
  | case1 previous bracket position close position' rest ih =>
      have hrest := taken_cons (taken_cons h (by simp)) (by simp)
      rw [dimensions]
      exact (ih hrest).bind fun out hout => .ok hout
  | case2 previous bracket position size rest hsize hnone =>
      have hbracket := taken_cons h (by simp)
      simp only [dimensions, hnone]
      exact .error (hbracket.sound.inSource size List.mem_cons_self)
  | case3 previous bracket position size hsize n hn close position' rest ih =>
      have hk : size.kind ≠ .eof := by
        intro heof
        rw [heof] at hn
        cases hn
      have hrest := taken_cons (taken_cons (taken_cons h (by simp)) hk) (by simp)
      simp only [dimensions, hn]
      exact (ih hrest).bind fun out hout => .ok hout
  | case4 previous bracket position size hsize n hn rest hrest =>
      have hk : size.kind ≠ .eof := by
        intro heof
        rw [heof] at hn
        cases hn
      have hafter := taken_cons (taken_cons h (by simp)) hk
      simp only [dimensions, hn]
      exact .error hafter.sound.current
  | case5 previous bracket position =>
      have hbracket := taken_cons h (by simp)
      rw [dimensions]
      exact .error hbracket.sound.current
  | case6 previous rest hrest =>
      rw [dimensions]
      · exact .ok h
      · exact hrest

theorem holds_arraySuffix (base : Ty) :
    Holds source (Taken source t os) (arraySuffix base) fun _ => Taken source t os :=
  fun _ hc => (ends_dimensions hc).bind fun _ hout => .ok hout

/-- A type is no part. -/
theorem lays_type (names : Names) : Lays source (type names) fun _ => [] := by
  intro t
  refine .lookStart ?_
  split
  · rename_i name heq
    split
    · rename_i base htype
      exact .takeStart (by simp [heq]) (holds_arraySuffix base)
    · exact .failAt fun _ hc => hc.inSource
  · exact .unexpected fun _ hc => hc.sound

end Parse

end Shading
