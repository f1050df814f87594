import Mathlib.Logic.Relation
import Shading.Proofs.Parse.Splicing

/-!
# Libraries and what they include

A text whose directives are well-formed is a row of pieces, and it is the row of one list of
pieces only. A run over it is a walk over its pieces.
-/

namespace Shading

namespace Libraries

open Relation

/-- A piece of a text: a token of its own, or a directive with the parts of a library name. -/
inductive Piece where
  | own (k : Kind) (h : k ≠ .keyword .include)
  | directive (part : String) (parts : List String)

namespace Piece

/-- The tokens of a piece. -/
def kinds : Piece → List Kind
  | own k _ => [k]
  | directive part parts =>
    .keyword .include :: (dottedKinds (part :: parts) ++ [.symbol .semicolon])

/-- The token, if the piece is one of the text's own. -/
def own? : Piece → Option Kind
  | own k _ => some k
  | directive .. => none

/-- The library that the piece names, if it is a directive. -/
def library? : Piece → Option String
  | own .. => none
  | directive part parts => some (dotted (part :: parts))

end Piece

/-- The tokens of pieces. -/
def row (ps : List Piece) : List Kind := ps.flatMap Piece.kinds

/-- The tokens of pieces that belong to no directive. -/
def ownKinds (ps : List Piece) : List Kind := ps.filterMap Piece.own?

/-- The libraries that the directives of pieces name. -/
def named (ps : List Piece) : List String := ps.filterMap Piece.library?

/-- The library exists, can be cut into tokens, and has these pieces. -/
def Holds (ls : Libraries) (name : String) (ps : List Piece) : Prop :=
  ∃ source ts, ls.source? name = some source ∧ tokenize source = .ok ts ∧
    (withoutEof ts).map Token.kind = row ps

/-- A directive of one library names another one. -/
def Includes (ls : Libraries) (a b : String) : Prop := ∃ ps, ls.Holds a ps ∧ b ∈ named ps

/-- A library is reached from the directives of pieces. -/
def Reached (ls : Libraries) (ps : List Piece) (n : String) : Prop :=
  ∃ a ∈ named ps, ReflTransGen ls.Includes a n

section Rows

/-- A path ends at its semicolon, so that two paths before the same tokens are one. -/
theorem dottedKinds_append_inj {parts parts' : List String} {ks ks' : List Kind}
    (hne : parts ≠ []) (hne' : parts' ≠ [])
    (h : dottedKinds parts ++ .symbol .semicolon :: ks =
      dottedKinds parts' ++ .symbol .semicolon :: ks') : parts = parts' ∧ ks = ks' := by
  induction parts generalizing parts' with
  | nil => exact absurd rfl hne
  | cons part parts ih =>
      cases parts' with
      | nil => exact absurd rfl hne'
      | cons part' parts' =>
          cases parts with
          | nil =>
              cases parts' with
              | nil => simpa [dottedKinds] using h
              | cons next' parts' => simp [dottedKinds] at h
          | cons next parts =>
              cases parts' with
              | nil => simp [dottedKinds] at h
              | cons next' parts' =>
                  simp only [dottedKinds, List.cons_append, List.cons.injEq, Kind.ident.injEq,
                    true_and] at h
                  obtain ⟨hparts, rfl⟩ := ih (by simp) (by simp) h.2
                  exact ⟨by rw [h.1, hparts], rfl⟩

variable {ps : List Piece} {ks : List Kind}

/-- A row that begins with a token of its own. -/
theorem eq_own_of_row {k : Kind} (hk : k ≠ .keyword .include) (h : k :: ks = row ps) :
    ∃ qs, ps = .own k hk :: qs ∧ ks = row qs := by
  cases ps with
  | nil => cases h
  | cons p qs =>
      cases p with
      | own k' hk' =>
          obtain ⟨rfl, rfl⟩ := List.cons.inj h
          exact ⟨qs, rfl, rfl⟩
      | directive part parts => exact absurd (List.cons.inj h).1 hk

/-- A row that begins with a directive. -/
theorem eq_directive_of_row {part : String} {parts : List String}
    (h : (Piece.directive part parts).kinds ++ ks = row ps) :
    ∃ qs, ps = .directive part parts :: qs ∧ ks = row qs := by
  cases ps with
  | nil => cases h
  | cons p qs =>
      cases p with
      | own k hk => exact absurd (List.cons.inj h).1.symm hk
      | directive part' parts' =>
          simp only [row, List.flatMap_cons, Piece.kinds, List.cons_append, List.append_assoc,
            List.cons.injEq, true_and] at h
          obtain ⟨hparts, rfl⟩ := dottedKinds_append_inj (by simp) (by simp) h
          obtain ⟨rfl, rfl⟩ := List.cons.inj hparts
          exact ⟨qs, rfl, rfl⟩

/-- A text is the row of one list of pieces only. -/
theorem row_injective : Function.Injective row := by
  intro ps qs h
  induction ps generalizing qs with
  | nil =>
      cases qs with
      | nil => rfl
      | cons q qs => cases q <;> cases h
  | cons p ps ih =>
      cases p with
      | own k hk =>
          have hsplit : k :: row ps = row qs := h
          obtain ⟨qs, rfl, hrow⟩ := eq_own_of_row hk hsplit
          rw [ih hrow]
      | directive part parts =>
          have hsplit : (Piece.directive part parts).kinds ++ row ps = row qs := h
          obtain ⟨qs, rfl, hrow⟩ := eq_directive_of_row hsplit
          rw [ih hrow]

/-- A name holds one library. -/
theorem Holds.unique {ls : Libraries} {name : String} {ps qs : List Piece}
    (h : ls.Holds name ps) (h' : ls.Holds name qs) : ps = qs := by
  obtain ⟨source, ts, hsource, hts, hrow⟩ := h
  obtain ⟨source', ts', hsource', hts', hrow'⟩ := h'
  obtain rfl := Option.some.inj (hsource.symm.trans hsource')
  obtain rfl := Except.ok.inj (hts.symm.trans hts')
  exact row_injective (hrow.symm.trans hrow')

/-- A library that is held can be read, wherever it is asked for. -/
theorem Holds.tokens {ls : Libraries} {name : String} {ps : List Piece} (h : ls.Holds name ps)
    (span : Span) (position : Position) :
    ∃ library, ls.tokens name span position = .ok library ∧ library.map Token.kind = row ps := by
  obtain ⟨source, ts, hsource, hts, hrow⟩ := h
  refine ⟨withoutEof ts, ?_, hrow⟩
  simp [Libraries.tokens, hsource, hts]

end Rows

section Reading

variable {origin : Origin} {all rest after : List Token} {ps : List Piece}

/-- At the end no token is left. -/
theorem eq_nil_of_next_done (h : next origin all rest = .done) : rest = [] := by
  cases rest with
  | nil => rfl
  | cons t rest =>
      rw [next] at h
      split at h
      · split at h <;> cases h
      · cases h

/-- An own token is the first piece, and the others follow it. -/
theorem pieces_of_next_own {t : Token} (h : next origin all rest = .own t after)
    (hrow : rest.map Token.kind = row ps) :
    ∃ hkind qs, ps = .own t.kind hkind :: qs ∧ after.map Token.kind = row qs := by
  cases rest with
  | nil => cases h
  | cons u rest =>
      rw [next] at h
      split at h
      · split at h <;> cases h
      · rename_i hkind
        cases h
        exact ⟨hkind, eq_own_of_row hkind hrow⟩

/-- A directive is the first piece, by the library it names. -/
theorem pieces_of_next_directive {name : String} {place : Span × Position}
    (h : next origin all rest = .directive name place after)
    (hrow : rest.map Token.kind = row ps) :
    ∃ p qs, ps = p :: qs ∧ p.library? = some name ∧ after.map Token.kind = row qs := by
  cases rest with
  | nil => cases h
  | cons t rest =>
      rw [next] at h
      split at h
      · rename_i hkind
        split at h
        · rename_i parts semicolon left hpath
          obtain ⟨rfl, _, rfl⟩ := Next.directive.inj h
          obtain ⟨hne, hsemicolon, path, hkinds, rfl⟩ := directivePath_eq_ok_iff.mp hpath
          obtain ⟨part, parts, rfl⟩ := List.exists_cons_of_ne_nil hne
          have hsplit : (Piece.directive part parts).kinds ++ left.map Token.kind = row ps := by
            rw [← hrow]
            simp [Piece.kinds, hkind, hkinds, hsemicolon]
          obtain ⟨qs, rfl, hafter⟩ := eq_directive_of_row hsplit
          exact ⟨_, qs, rfl, rfl, hafter⟩
        · cases h
      · cases h

/-- Pieces have no malformed directive among them. -/
theorem next_ne_malformed {e : ParseError} (hrow : rest.map Token.kind = row ps) :
    next origin all rest ≠ .malformed e := by
  intro h
  cases rest with
  | nil => cases h
  | cons t rest =>
      rw [next] at h
      split at h
      · rename_i hkind
        split at h
        · cases h
        · rename_i hpath
          cases ps with
          | nil => cases hrow
          | cons p qs =>
              cases p with
              | own k hk => exact hk ((List.cons.inj hrow).1.symm.trans hkind)
              | directive part parts =>
                  simp only [row, List.flatMap_cons, Piece.kinds, List.cons_append,
                    List.append_assoc, List.map_cons, List.cons.injEq] at hrow
                  obtain ⟨path, left, rfl, hkinds, hleft⟩ := List.map_eq_append_iff.mp hrow.2
                  obtain ⟨semicolon, after, rfl, hsemicolon, _⟩ := List.map_eq_cons_iff.mp hleft
                  have hok : directivePath all (path ++ semicolon :: after) =
                      .ok (part :: parts, semicolon, after) :=
                    directivePath_eq_ok_iff.mpr ⟨by simp, hsemicolon, path, hkinds, rfl⟩
                  rw [hok] at hpath
                  cases hpath
      · cases h

end Reading

end Libraries

end Shading
