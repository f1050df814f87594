import Shading.Proofs.Token.Pieces
import Shading.Proofs.Token.Spellable
import Shading.Source.Lines

/-!
# Tokens partition their text

A run of the lexer lays its tokens out over the text it reads. Before each of them and after
the last there are only blanks and comments. The run keeps two facts about what it has read:
its offset is the bytes of that text, and its position is counted from that text's characters.
Offsets are recorded up to `Span.limit` and lines and columns up to `Position.limit`. In a text
of at most `Span.limit` bytes every offset is exact, and the end of the file is the only place
whose line or column can be one too large to be recorded.
-/

namespace Shading

open Lexer

namespace Lexer

@[simp] theorem byteLength_nil : byteLength [] = 0 := rfl

@[simp] theorem byteLength_cons (c : Char) (cs : List Char) :
    byteLength (c :: cs) = c.utf8Size + byteLength cs := rfl

/-- The bytes of two texts are added. -/
@[simp] theorem byteLength_append (xs ys : List Char) :
    byteLength (xs ++ ys) = byteLength xs + byteLength ys := by
  induction xs with
  | nil => simp
  | cons c xs ih => simp [ih, Nat.add_assoc]

theorem byteLength_pos {cs : List Char} (h : cs ≠ []) : 0 < byteLength cs := by
  cases cs with
  | nil => exact absurd rfl h
  | cons c cs =>
      have hsize : 0 < c.utf8Size := c.utf8Size_pos
      rw [byteLength_cons]
      omega

/-- A character has a byte or more. -/
theorem length_le_byteLength (cs : List Char) : cs.length ≤ byteLength cs := by
  induction cs with
  | nil => exact Nat.le_refl _
  | cons c cs ih =>
      have hsize : 0 < c.utf8Size := c.utf8Size_pos
      rw [byteLength_cons, List.length_cons]
      omega

end Lexer

namespace Position

/-- What is counted in a text: one plus its line feeds, and one plus the characters since the
last of them. -/
def counted (text : List Char) : Position :=
  ⟨1 + text.count '\n', 1 + (text.reverse.takeWhile (· != '\n')).length⟩

/-- The place right after a text: what is counted in it, up to the limit. -/
def after (text : List Char) : Position := ofCounts (counted text).line (counted text).column

/-- A position goes no further than there are bytes before it. -/
theorem counted_le (text : List Char) :
    (counted text).line ≤ 1 + byteLength text ∧ (counted text).column ≤ 1 + byteLength text := by
  have hline : text.count '\n' ≤ text.length := List.count_le_length
  have hcolumn : (text.reverse.takeWhile (· != '\n')).length ≤ text.reverse.length :=
    (List.takeWhile_sublist _).length_le
  have hbytes := length_le_byteLength text
  rw [List.length_reverse] at hcolumn
  constructor
  · exact Nat.add_le_add_left (Nat.le_trans hline hbytes) 1
  · exact Nat.add_le_add_left (Nat.le_trans hcolumn hbytes) 1

/-- Nothing is cut off after a text of fewer bytes than the limit. -/
theorem after_eq_counted {text : List Char} (h : byteLength text < limit) :
    after text = counted text := by
  obtain ⟨hline, hcolumn⟩ := counted_le text
  apply ofCounts_of_le
  · omega
  · omega

/-- The bound is sharp: after as many blanks as the limit, one is not counted. -/
theorem after_blanks : counted (List.replicate limit ' ') = ⟨1, limit + 1⟩ ∧
    after (List.replicate limit ' ') = ⟨1, limit⟩ := by
  have hcounted (n : Nat) : counted (List.replicate n ' ') = ⟨1, 1 + n⟩ := by
    simp [counted, List.count_replicate]
  constructor
  · rw [hcounted, Nat.add_comm]
  · rw [after, hcounted]
    decide

/-- One character advances the position by what it is. -/
theorem advance_after (text : List Char) (c : Char) :
    (after text).advance c = after (text ++ [c]) := by
  by_cases hc : c = '\n'
  · subst hc
    simp [advance, after, ofCounts, counted, limit]
    omega
  · simp [advance, after, ofCounts, counted, limit, hc]
    omega

theorem foldl_advance_after (before text : List Char) :
    text.foldl advance (after before) = after (before ++ text) := by
  induction text generalizing before with
  | nil => simp
  | cons c text ih =>
      calc
        (c :: text).foldl advance (after before)
            = text.foldl advance (after (before ++ [c])) := by
              rw [List.foldl_cons, advance_after]
        _ = after (before ++ [c] ++ text) := ih _
        _ = after (before ++ c :: text) := by rw [List.append_assoc, List.singleton_append]

end Position

theorem Kind.Spellable.ne_eof {kind : Kind} (h : kind.Spellable) : kind ≠ .eof := by
  rintro rfl
  exact h

/-- The bytes of a text are those of its characters. -/
theorem utf8ByteSize_eq (source : String) : source.utf8ByteSize = byteLength source.toList := by
  have hlist (cs : List Char) : (String.ofList cs).utf8ByteSize = byteLength cs := by
    induction cs with
    | nil => rfl
    | cons c cs ih =>
        rw [String.ofList_cons, String.utf8ByteSize_append, ih, String.utf8ByteSize_singleton,
          byteLength_cons]
  rw [← hlist, String.ofList_toList]

namespace Lines

/-- Locating an offset reads the text before it. -/
theorem locate_byteLength (before rest : List Char) (read : List Char) (bytes : Nat) :
    locate (.after read) bytes (before ++ rest) (byteLength before) = .after (read ++ before) := by
  induction before generalizing read bytes with
  | nil =>
      rw [List.append_nil]
      cases rest with
      | nil => rfl
      | cons c rest => simp [locate]
  | cons c before ih =>
      have hsize : 0 < c.utf8Size := c.utf8Size_pos
      have hne : ¬c.utf8Size + byteLength before = 0 := by omega
      have hlt : ¬c.utf8Size + byteLength before < c.utf8Size := by omega
      rw [List.cons_append, byteLength_cons, locate, if_neg hne, if_neg hlt,
        Nat.add_sub_cancel_left, Position.advance_after, ih]
      simp

/-- The position of an offset is counted from the characters before it. -/
theorem position_byteLength (before rest : List Char) :
    position (before ++ rest) (byteLength before) = .after before :=
  locate_byteLength before rest [] 0

end Lines

namespace Lexer

/-- The bytes that a text takes after another one. -/
def spanAfter (before text : List Char) : Span :=
  ⟨byteLength before, byteLength (before ++ text)⟩

/-- A text that stands in a source: between two characters at each end, in the bytes of `span`
and at a position counted from the characters before it. -/
def Located (source text : List Char) (span : Span) (position : Position) : Prop :=
  ∃ before rest, source = before ++ text ++ rest ∧ span = spanAfter before text ∧
    position = .after before

/-- A located token has the position of its start. -/
theorem Located.position_eq {source text : List Char} {span : Span} {position : Position}
    (h : Located source text span position) :
    position = Lines.position source span.start := by
  obtain ⟨before, rest, rfl, rfl, rfl⟩ := h
  rw [List.append_assoc]
  exact (Lines.position_byteLength before (text ++ rest)).symm

/-- A position is counted at a byte offset: in the text before it, and without a cut below the
limit. -/
def CountedAt (source : List Char) (offset : Nat) (position : Position) : Prop :=
  ∃ before rest, source = before ++ rest ∧ byteLength before = offset ∧
    position = .after before ∧ (offset < Position.limit → position = .counted before)

/-- A located token is placed by counting lines and columns, up to the limit. -/
theorem Located.countedAt {source text : List Char} {span : Span} {position : Position}
    (h : Located source text span position) : CountedAt source span.start position := by
  obtain ⟨before, rest, rfl, rfl, rfl⟩ := h
  exact ⟨before, text ++ rest, List.append_assoc _ _ _, rfl, rfl, Position.after_eq_counted⟩

theorem Located.stop_le {source text : List Char} {span : Span} {position : Position}
    (h : Located source text span position) : span.stop ≤ byteLength source := by
  obtain ⟨before, rest, rfl, rfl, rfl⟩ := h
  simp [spanAfter]

theorem Located.start_le_stop {source text : List Char} {span : Span} {position : Position}
    (h : Located source text span position) : span.start ≤ span.stop := by
  obtain ⟨before, rest, rfl, rfl, rfl⟩ := h
  simp [spanAfter]

/-- A token with a text has a span that is not empty. -/
theorem Located.start_lt_stop {source text : List Char} {span : Span} {position : Position}
    (h : Located source text span position) (htext : text ≠ []) : span.start < span.stop := by
  obtain ⟨before, rest, rfl, rfl, rfl⟩ := h
  have hpos := byteLength_pos htext
  simp only [spanAfter, byteLength_append]
  omega

theorem Trivium.ne_nil {next text : List Char} (h : Trivium next text) : text ≠ [] := by
  cases h <;> exact List.cons_ne_nil _ _

/-- Blanks and comments, one after the other, right before the text `next`. -/
inductive Gap (next : List Char) : List Char → Prop
  | nil : Gap next []
  | cons {text gap : List Char} (htext : Trivium (gap ++ next) text) (hgap : Gap next gap) :
      Gap next (text ++ gap)

/-- The tokens lie in the text after `before` from its start to its end, with gaps between
them, and the end of the file comes last. -/
inductive Tiles : List Char → List Char → List Token → Prop
  | eof {before gap : List Char} (hgap : Gap [] gap) :
      Tiles before gap [⟨.eof, spanAfter (before ++ gap) [], .after (before ++ gap)⟩]
  | token {before gap text rest : List Char} {kind : Kind} {ts : List Token}
      (hgap : Gap (text ++ rest) gap) (htext : text ≠ []) (hkind : kind ≠ .eof)
      (hrest : Tiles (before ++ gap ++ text) rest ts) :
      Tiles before (gap ++ (text ++ rest))
        (⟨kind, spanAfter (before ++ gap) text, .after (before ++ gap)⟩ :: ts)

namespace Tiles

/-- A blank or a comment before the first token widens the first gap. -/
theorem skip {before text rest : List Char} {ts : List Token} (htext : Trivium rest text)
    (h : Tiles (before ++ text) rest ts) : Tiles before (text ++ rest) ts := by
  cases h with
  | eof hgap =>
      rw [List.append_assoc]
      apply Tiles.eof
      apply Gap.cons
      · rwa [List.append_nil]
      · exact hgap
  | token hgap hword hkind hrest =>
      rw [List.append_assoc, ← List.append_assoc text]
      apply Tiles.token _ hword hkind
      · rw [← List.append_assoc before]
        exact hrest
      · exact .cons htext hgap

/-- A token right at the start. -/
theorem cons {before text rest : List Char} {kind : Kind} {ts : List Token} (htext : text ≠ [])
    (hkind : kind ≠ .eof) (h : Tiles (before ++ text) rest ts) :
    Tiles before (text ++ rest) (⟨kind, spanAfter before text, .after before⟩ :: ts) := by
  have htoken : Tiles before ([] ++ (text ++ rest))
      (⟨kind, spanAfter (before ++ []) text, .after (before ++ [])⟩ :: ts) := by
    apply Tiles.token .nil htext hkind
    rwa [List.append_nil]
  rwa [List.nil_append, List.append_nil] at htoken

variable {before cs : List Char} {ts : List Token}

/-- Every token of a tiling is located at its text. -/
theorem located (h : Tiles before cs ts) {t : Token} (ht : t ∈ ts) :
    ∃ text, Located (before ++ cs) text t.span t.position ∧ (text = [] ↔ t.kind = .eof) := by
  induction h with
  | @eof before gap hgap =>
      cases List.mem_singleton.mp ht
      exact ⟨[], ⟨before ++ gap, [], by simp, rfl, rfl⟩, by simp⟩
  | @token before gap text rest kind ts hgap htext hkind hrest ih =>
      rcases List.mem_cons.mp ht with rfl | ht
      · exact ⟨text, ⟨before ++ gap, rest, by simp, rfl, rfl⟩, by simp [htext, hkind]⟩
      · obtain ⟨word, hword, heof⟩ := ih ht
        refine ⟨word, ?_, heof⟩
        rwa [List.append_assoc, List.append_assoc] at hword

theorem le_start (h : Tiles before cs ts) {t : Token} (ht : t ∈ ts) :
    byteLength before ≤ t.span.start := by
  induction h with
  | eof hgap =>
      cases List.mem_singleton.mp ht
      simp [spanAfter]
  | token hgap htext hkind hrest ih =>
      rcases List.mem_cons.mp ht with rfl | ht
      · simp [spanAfter]
      · have hle := ih ht
        simp only [byteLength_append] at hle
        omega

/-- The tokens of a tiling do not overlap. -/
theorem pairwise (h : Tiles before cs ts) : ts.Pairwise (·.span.stop ≤ ·.span.start) := by
  induction h with
  | eof hgap => exact List.pairwise_singleton _ _
  | token hgap htext hkind hrest ih =>
      apply List.pairwise_cons.mpr
      constructor
      · intro t ht
        exact hrest.le_start ht
      · exact ih

/-- The end of the file is the last token and stands at the end of the text. -/
theorem last (h : Tiles before cs ts) : ∃ init end_, ts = init ++ [end_] ∧ end_.kind = .eof ∧
    end_.span = spanAfter (before ++ cs) [] ∧ ∀ t ∈ init, t.kind ≠ .eof := by
  induction h with
  | eof hgap => exact ⟨[], _, rfl, rfl, rfl, by simp⟩
  | @token before gap text rest kind ts hgap htext hkind hrest ih =>
      obtain ⟨init, end_, rfl, hend, hspan, hinit⟩ := ih
      refine ⟨_ :: init, end_, rfl, hend, ?_, ?_⟩
      · rw [hspan, List.append_assoc, List.append_assoc]
      · intro t ht
        rcases List.mem_cons.mp ht with rfl | ht
        · exact hkind
        · exact hinit t ht

end Tiles

/-- A fault has the text that it covers, which is not empty, and that text's place. -/
def Faulty (source : List Char) (e : LexError) : Prop :=
  e.text ≠ "" ∧ Located source e.text.toList e.span e.position

/-- What is read next moves the offset and the position past its own characters. -/
theorem read_text (before : List Char) {text rest cs : List Char} {length : Nat}
    (hcs : cs = text ++ rest) (hlength : text.length = length) :
    cs.take length = text ∧ cs.drop length = rest ∧
      byteLength before + byteLength (cs.take length) = byteLength (before ++ text) ∧
      (cs.take length).foldl Position.advance (.after before) = .after (before ++ text) := by
  have htake : cs.take length = text := by
    rw [hcs, ← hlength, List.take_left]
  have hdrop : cs.drop length = rest := by
    rw [hcs, ← hlength, List.drop_left]
  refine ⟨htake, hdrop, ?_, ?_⟩
  · rw [htake, byteLength_append]
  · rw [htake, Position.foldl_advance_after]

theorem ofRange_after {before rest : List Char} (text : List Char)
    (hsize : byteLength (before ++ (text ++ rest)) ≤ Span.limit) :
    Span.ofRange (byteLength before) (byteLength (before ++ text)) = spanAfter before text := by
  simp only [byteLength_append] at hsize
  apply Span.ofRange_of_le
  · omega
  · rw [byteLength_append]
    omega

/-- At the end of the source there is the last token only. -/
theorem tiles_scan_nil (fuel : Nat) {before : List Char}
    (hsize : byteLength (before ++ []) ≤ Span.limit) :
    Except.Ends (Faulty (before ++ [])) (Tiles before [])
      (scan fuel (byteLength before) (.after before) []) := by
  have hspan : Span.ofRange (byteLength before) (byteLength (before ++ [])) = spanAfter before [] :=
    ofRange_after [] hsize
  have htiles : Tiles before [] [⟨.eof, spanAfter (before ++ []) [], .after (before ++ [])⟩] :=
    .eof .nil
  rw [List.append_nil] at hspan htiles
  rw [← hspan] at htiles
  cases fuel with
  | zero => exact .ok htiles
  | succ fuel => exact .ok htiles

/-- From the place right after `before`, a run lays out tokens over the rest of the text or
stops at a fault in it. -/
theorem tiles_scan {fuel : Nat} {before cs : List Char} (hfuel : cs.length ≤ fuel)
    (hsize : byteLength (before ++ cs) ≤ Span.limit) :
    Except.Ends (Faulty (before ++ cs)) (Tiles before cs)
      (scan fuel (byteLength before) (.after before) cs) := by
  induction fuel generalizing before cs with
  | zero =>
      obtain rfl : cs = [] := List.eq_nil_of_length_eq_zero (Nat.le_zero.mp hfuel)
      exact tiles_scan_nil 0 hsize
  | succ fuel ih =>
      cases cs with
      | nil => exact tiles_scan_nil _ hsize
      | cons c cs =>
          obtain ⟨text, rest, hcs, htakes⟩ := takes_piece c cs
          have hsource : before ++ c :: cs = before ++ text ++ rest := by
            rw [hcs, List.append_assoc]
          have hrest (htext : text ≠ []) :
              Except.Ends (Faulty (before ++ c :: cs)) (Tiles (before ++ text) rest)
                (scan fuel (byteLength (before ++ text)) (.after (before ++ text)) rest) := by
            have hpos : 0 < text.length := List.length_pos_iff.mpr htext
            have hlength := congrArg List.length hcs
            rw [List.length_append] at hlength
            rw [hsource] at hsize ⊢
            apply ih _ hsize
            omega
          simp only [scan]
          cases hp : piece (c :: cs) with
          | skip length =>
              rw [hp] at htakes
              obtain ⟨hlength, htrivium⟩ := htakes
              obtain ⟨-, hdrop, hbytes, hplace⟩ := read_text before hcs hlength
              dsimp only
              rw [hdrop, hbytes, hplace]
              apply (hrest htrivium.ne_nil).imp (fun _ he => he)
              intro ts hts
              rw [hcs]
              exact hts.skip htrivium
          | token kind length =>
              rw [hp] at htakes
              obtain ⟨hlength, htext⟩ := htakes
              obtain ⟨-, hdrop, hbytes, hplace⟩ := read_text before hcs hlength
              dsimp only
              rw [hdrop, hbytes, hplace]
              apply (hrest htext).bind
              intro ts hts
              apply Except.Ends.ok
              rw [hcs, ofRange_after text (hcs ▸ hsize)]
              exact hts.cons htext (Kind.Spellable.ne_eof (spellable_piece hp))
          | fault fault length =>
              rw [hp] at htakes
              obtain ⟨hlength, htext⟩ := htakes
              obtain ⟨htake, -, hbytes, -⟩ := read_text before hcs hlength
              dsimp only
              rw [hbytes, htake, ofRange_after text (hcs ▸ hsize)]
              apply Except.Ends.error
              constructor
              · simpa using htext
              · rw [String.toList_ofList]
                exact ⟨before, rest, hsource, rfl, rfl⟩

end Lexer

/-- A fault covers some text of the source: it has the bytes, the characters and the position
of that text. -/
structure Fault (source : List Char) (e : LexError) : Prop where
  covers : e.span.start < e.span.stop
  located : Located source e.text.toList e.span e.position
  position : e.position = Lines.position source e.span.start
  counted : CountedAt source e.span.start e.position
  below : e.span.start < Position.limit

theorem Lexer.Faulty.start_lt_stop {source : List Char} {e : LexError} (h : Faulty source e) :
    e.span.start < e.span.stop := by
  apply h.2.start_lt_stop
  intro hnil
  exact h.1 (String.toList_eq_nil_iff.mp hnil)

/-- An error of the lexer is located at a text of the source. -/
theorem Lexer.Faulty.fault {source : List Char} {e : LexError} (h : Faulty source e)
    (hsize : byteLength source ≤ Position.limit) : Fault source e where
  covers := h.start_lt_stop
  located := h.2
  position := h.2.position_eq
  counted := h.2.countedAt
  below := Nat.lt_of_lt_of_le h.start_lt_stop (Nat.le_trans h.2.stop_le hsize)

end Shading
