import Mathlib.Tactic.Common
import Shading.Proofs.Parse.Places

/-!
# Looking ahead for a declaration

The lookahead peeks at tokens by their offsets and takes none; the type parser takes them one
by one. Both pass the same array brackets, so that a declaration is seen to start exactly where
a type can be read that a name follows.
-/

namespace Shading

/-- Whether a number may stand between array brackets as their size. -/
def Kind.isSize : Kind → Bool
  | .int _ | .uint _ => true
  | _ => false

/-- Whether the token is an identifier. -/
def Kind.isIdent : Kind → Bool
  | .ident _ => true
  | _ => false

theorem Kind.isIdent_iff {k : Kind} : k.isIdent = true ↔ ∃ name, k = .ident name := by
  cases k <;> simp [isIdent]

theorem Kind.isSize_iff {k : Kind} : k.isSize = true ↔ (∃ n, k = .int n) ∨ ∃ n, k = .uint n := by
  cases k <;> simp [isSize]

namespace Names

/-- The kind of the token at an offset; past the last token there is an end of file. -/
def kindAt (ts : List Token) (n : Nat) : Kind := (ts.getD n Token.eof).kind

/-- Only the end of the file stands behind the last token. -/
theorem lt_length_of_kindAt {ts : List Token} {n : Nat} {k : Kind} (h : kindAt ts n = k)
    (hk : k ≠ .eof) : n < ts.length := by
  by_contra hle
  apply hk
  rw [← h, kindAt, List.getD_eq_getElem?_getD, List.getElem?_eq_none (Nat.le_of_not_lt hle)]
  rfl

/-- Where the closing bracket has to stand that belongs to the opening one at an offset. -/
def closeAt (ts : List Token) (n : Nat) : Nat :=
  if (kindAt ts (n + 1)).isSize then n + 2 else n + 1

/-- Whether array brackets, if any, and then a name stand at an offset. Tokens are looked at
and none is taken. -/
def nameFollowsAt (ts : List Token) (n : Nat) : Bool :=
  if kindAt ts n = .symbol .lbracket then
    if kindAt ts (closeAt ts n) = .symbol .rbracket then nameFollowsAt ts (closeAt ts n + 1)
    else false
  else (kindAt ts n).isIdent
termination_by ts.length - n
decreasing_by
  have hlt := lt_length_of_kindAt ‹kindAt ts n = _› (by simp)
  unfold closeAt
  split <;> omega

theorem kindAt_drop (ts : List Token) (n m : Nat) :
    kindAt (ts.drop n) m = kindAt ts (n + m) := by
  simp [kindAt, List.getD_eq_getElem?_getD]

theorem kindAt_cons (t : Token) (ts : List Token) : kindAt (t :: ts) 0 = t.kind := rfl

theorem kindAt_cons_succ (t : Token) (ts : List Token) (n : Nat) :
    kindAt (t :: ts) (n + 1) = kindAt ts n := rfl

theorem closeAt_sized {t size : Token} {rest : List Token} (h : size.kind.isSize = true) :
    closeAt (t :: size :: rest) 0 = 2 := if_pos h

theorem closeAt_unsized {t size : Token} {rest : List Token} (h : ¬size.kind.isSize = true) :
    closeAt (t :: size :: rest) 0 = 1 := if_neg h

/-- Without a bracket, the next token must be the name. -/
theorem nameFollows_of_not_bracket {ts : List Token} (h : kindAt ts 0 ≠ .symbol .lbracket) :
    nameFollows ts = (kindAt ts 0).isIdent := by
  fun_cases nameFollows ts with
  | case1 | case2 | case3 => exact absurd rfl h
  | case4 => rfl
  | case5 =>
    rename_i hother
    match ts with
    | [] => rfl
    | ⟨k, s, p⟩ :: rest =>
      have hk : k.isIdent = false := Bool.eq_false_iff.mpr fun hk => by
        obtain ⟨name, rfl⟩ := Kind.isIdent_iff.mp hk
        exact hother name s p rest rfl
      exact hk.symm

theorem exists_cons_of_kindAt {ts : List Token} {k : Kind} (h : kindAt ts 0 = k) (hk : k ≠ .eof) :
    ∃ s p rest, ts = ⟨k, s, p⟩ :: rest := by
  match ts with
  | [] => exact absurd h.symm hk
  | ⟨_, s, p⟩ :: rest =>
    obtain rfl : _ = k := h
    exact ⟨s, p, rest, rfl⟩

/-- With a bracket, the name follows its dimension. -/
theorem nameFollows_of_bracket {ts : List Token} (h : kindAt ts 0 = .symbol .lbracket) :
    nameFollows ts = if kindAt ts (closeAt ts 0) = .symbol .rbracket then
      nameFollows (ts.drop (closeAt ts 0 + 1)) else false := by
  fun_cases nameFollows ts with
  | case1 | case2 | case3 => rfl
  | case4 => cases h
  | case5 =>
    rename_i hempty hint huint hname
    rw [if_neg]
    intro hclose
    obtain ⟨s, p, rest, rfl⟩ := exists_cons_of_kindAt h (by simp)
    rw [closeAt] at hclose
    split at hclose
    · rename_i hsize
      obtain ⟨size, hkind⟩ : ∃ k, kindAt rest 0 = k := ⟨_, rfl⟩
      have hk : size.isSize = true := hkind ▸ hsize
      obtain ⟨s', p', rest, rfl⟩ := exists_cons_of_kindAt hkind (by rintro rfl; cases hk)
      obtain ⟨s'', p'', rest, rfl⟩ := exists_cons_of_kindAt hclose (by simp)
      rcases Kind.isSize_iff.mp hk with ⟨n, rfl⟩ | ⟨n, rfl⟩
      · exact hint s p n s' p' s'' p'' rest rfl
      · exact huint s p n s' p' s'' p'' rest rfl
    · obtain ⟨s', p', rest, rfl⟩ := exists_cons_of_kindAt hclose (by simp)
      exact hempty s p s' p' rest rfl

theorem add_closeAt_drop (ts : List Token) (n : Nat) :
    n + closeAt (ts.drop n) 0 = closeAt ts n := by
  unfold closeAt
  rw [kindAt_drop, Nat.zero_add]
  split <;> rfl

/-- To look ahead by offsets is to look at what is left. -/
theorem nameFollowsAt_eq (ts : List Token) (n : Nat) :
    nameFollowsAt ts n = nameFollows (ts.drop n) := by
  have hhead : kindAt (ts.drop n) 0 = kindAt ts n := kindAt_drop ts n 0
  have hclosing : kindAt (ts.drop n) (closeAt (ts.drop n) 0) = kindAt ts (closeAt ts n) := by
    rw [kindAt_drop, add_closeAt_drop]
  fun_induction nameFollowsAt ts n with
  | case1 n hopen hclose ih =>
      rw [nameFollows_of_bracket (hhead.trans hopen), hclosing, if_pos hclose, List.drop_drop,
        ← Nat.add_assoc, add_closeAt_drop]
      exact ih (kindAt_drop _ _ 0) (by rw [kindAt_drop, add_closeAt_drop])
  | case2 n hopen hclose =>
      rw [nameFollows_of_bracket (hhead.trans hopen), hclosing, if_neg hclose]
  | case3 n hopen =>
      rw [nameFollows_of_not_bracket (hhead.trans_ne hopen), hhead]

/-- Whether the token at a position is the name of a type that array brackets, if any, and a
name follow. -/
def startsDeclarationAt (names : Names) (ts : List Token) (pos : Nat) : Bool :=
  match kindAt ts pos with
  | .ident name => (names.type? name).isSome && nameFollowsAt ts (pos + 1)
  | _ => false

/-- Looking ahead by an offset is looking from the tokens behind it. -/
theorem startsDeclarationAt_eq (names : Names) (ts : List Token) (pos : Nat) :
    names.startsDeclarationAt ts pos = names.startsDeclaration (ts.drop pos) := by
  rw [startsDeclarationAt, nameFollowsAt_eq, ← List.drop_drop, ← Nat.add_zero pos, ← kindAt_drop,
    Nat.add_zero]
  match ts.drop pos with
  | [] => rfl
  | ⟨k, s, p⟩ :: rest => cases k <;> rfl

end Names

namespace Parse

open Names

/-- The run succeeds and leaves the cursor on a name. -/
def EndsAtName {α : Type} (run : Except ParseError (α × Cursor)) : Prop :=
  ∃ a c name, run = .ok (a, c) ∧ c.current.kind = .ident name

theorem not_endsAtName_error {α : Type} (e : ParseError) :
    ¬EndsAtName (.error e : Except ParseError (α × Cursor)) := by
  rintro ⟨_, _, _, hrun, _⟩
  cases hrun

/-- A production ends at a name where it succeeds and one follows. -/
theorem endsAtName_ok_iff {α : Type} (a : α) (c : Cursor) :
    EndsAtName (.ok (a, c)) ↔ c.current.kind.isIdent = true := by
  rw [Kind.isIdent_iff]
  constructor
  · rintro ⟨_, _, name, hrun, hname⟩
    cases hrun
    exact ⟨name, hname⟩
  · rintro ⟨name, hname⟩
    exact ⟨a, c, name, rfl, hname⟩

/-- What is made of the value of a run leaves the cursor where it is. -/
theorem endsAtName_map_iff {α β : Type} (f : α → β) (run : Except ParseError (α × Cursor)) :
    EndsAtName (run >>= fun out => .ok (f out.1, out.2)) ↔ EndsAtName run := by
  cases run with
  | error e => exact iff_of_false (not_endsAtName_error e) (not_endsAtName_error e)
  | ok out => exact (endsAtName_ok_iff _ _).trans (endsAtName_ok_iff _ _).symm

theorem kind_current (c : Cursor) : c.current.kind = kindAt c.rest 0 := by
  obtain ⟨rest, previous⟩ := c
  cases rest <;> rfl

/-- The integers among the tokens are not larger than the lexer reads them. -/
def LiteralsFit (ts : List Token) : Prop := ∀ t ∈ ts, ∀ n, t.kind = .int n → n ≤ 2147483648

theorem LiteralsFit.drop {ts : List Token} (h : LiteralsFit ts) (n : Nat) :
    LiteralsFit (ts.drop n) := fun t ht => h t (List.mem_of_mem_drop ht)

/-- A number that fits is a size of an array. -/
theorem isSome_arraySize?_of_isSize {k : Kind} (h : k.isSize = true)
    (hfit : ∀ n, k = .int n → n ≤ 2147483648) : ∃ n, arraySize? k = some n := by
  rcases Kind.isSize_iff.mp h with ⟨n, rfl⟩ | ⟨n, rfl⟩
  · have hn := hfit n rfl
    exact ⟨n, if_pos (by unfold arraySizeBound; omega)⟩
  · exact ⟨n.toNat, rfl⟩

/-- What the parser takes as a size looks like one. -/
theorem isSize_of_arraySize? {k : Kind} {n : Nat} (h : arraySize? k = some n) :
    k.isSize = true := by
  cases k with
  | int _ | uint _ => rfl
  | float _ | ident _ | keyword _ | symbol _ | eof => cases h

/-- The brackets that are read are those that the lookahead passes. -/
theorem nameFollows_iff_dimensions (previous : Span) (ts : List Token) (hfit : LiteralsFit ts) :
    nameFollows ts = true ↔ EndsAtName (dimensions previous ts) := by
  induction previous, ts using dimensions.induct with
  | case1 previous bracket position close position' rest ih =>
      calc nameFollows rest = true ↔ EndsAtName (dimensions close rest) := ih (hfit.drop 2)
        _ ↔ _ := (endsAtName_map_iff (.implicit :: ·) _).symm
  | case2 previous bracket position size rest hsize hnone =>
      have hkind : ¬size.kind.isSize = true := fun h => by
        obtain ⟨n, hn⟩ := isSome_arraySize?_of_isSize h (hfit size (by simp))
        rw [hn] at hnone
        cases hnone
      have hclose : size.kind ≠ .symbol .rbracket := fun h =>
        hsize size.span size.position (by rw [← h])
      rw [nameFollows_of_bracket rfl, closeAt_unsized hkind, kindAt_cons_succ, kindAt_cons,
        if_neg hclose]
      simpa [dimensions, hnone] using not_endsAtName_error _
  | case3 previous bracket position size hsize n hn close position' rest ih =>
      have hkind : size.kind.isSize = true := isSize_of_arraySize? hn
      rw [nameFollows_of_bracket rfl, closeAt_sized hkind, kindAt_cons_succ, kindAt_cons_succ,
        kindAt_cons, if_pos rfl]
      simp only [dimensions, hn]
      calc nameFollows rest = true ↔ EndsAtName (dimensions close rest) := ih (hfit.drop 3)
        _ ↔ _ := (endsAtName_map_iff (.fixed n :: ·) _).symm
  | case4 previous bracket position size hsize n hn rest hrest =>
      have hkind : size.kind.isSize = true := isSize_of_arraySize? hn
      have hclose : kindAt rest 0 ≠ .symbol .rbracket := fun h => by
        obtain ⟨s, p, tail, rfl⟩ := exists_cons_of_kindAt h (by simp)
        exact hrest s p tail rfl
      rw [nameFollows_of_bracket rfl, closeAt_sized hkind, kindAt_cons_succ, kindAt_cons_succ,
        if_neg hclose]
      simpa [dimensions, hn, unexpected] using not_endsAtName_error _
  | case5 previous bracket position =>
      simpa [dimensions, nameFollows, unexpected] using not_endsAtName_error _
  | case6 previous rest hrest =>
      have hopen : kindAt rest 0 ≠ .symbol .lbracket := fun h => by
        obtain ⟨s, p, tail, rfl⟩ := exists_cons_of_kindAt h (by simp)
        exact hrest s p tail rfl
      rw [nameFollows_of_not_bracket hopen, dimensions, endsAtName_ok_iff, kind_current]
      exact hrest

/-- A type is read off its name and its brackets. -/
theorem type_of_ident (names : Names) (name : String) (s : Span) (p : Position)
    (rest : List Token) (previous : Span) :
    type names ⟨⟨.ident name, s, p⟩ :: rest, previous⟩ =
      match names.type? name with
      | some base => arraySuffix base ⟨rest, s⟩
      | none => .error ⟨.unknownType name, s, p⟩ := by
  let c : Cursor := ⟨⟨.ident name, s, p⟩ :: rest, previous⟩
  have hadvance : c.advance = ⟨rest, s⟩ :=
    Cursor.advance_of_kind_ne (t := ⟨.ident name, s, p⟩) rfl (by simp)
  change (match names.type? name with
    | some base => take >>= fun _ => arraySuffix base
    | none => failAt ⟨.ident name, s, p⟩ (.unknownType name) : Parse Ty) c = _
  cases names.type? name with
  | none => rfl
  | some base => exact congrArg (arraySuffix base) hadvance

theorem endsAtName_arraySuffix_iff (base : Ty) (c : Cursor) :
    EndsAtName (arraySuffix base c) ↔ EndsAtName (dimensions c.previous c.rest) :=
  endsAtName_map_iff (List.foldr (fun size t => .array t size) base) _

/-- A type can be read that a name follows exactly where a declaration is seen to start. -/
theorem endsAtName_type_iff (names : Names) (c : Cursor) (hfit : LiteralsFit c.rest) :
    EndsAtName (type names c) ↔ names.startsDeclaration c.rest = true := by
  obtain ⟨rest, previous⟩ := c
  match rest, hfit with
  | [], _ => exact iff_of_false (not_endsAtName_error _) (by simp [startsDeclaration])
  | ⟨k, s, p⟩ :: rest, hfit =>
    cases k with
    | ident name =>
        rw [type_of_ident, startsDeclaration]
        cases names.type? name with
        | none => exact iff_of_false (not_endsAtName_error _) (by simp)
        | some base =>
            rw [endsAtName_arraySuffix_iff, Option.isSome_some, Bool.true_and]
            exact (nameFollows_iff_dimensions s rest (hfit.drop 1)).symm
    | int _ | uint _ | float _ | keyword _ | symbol _ | eof =>
        exact iff_of_false (not_endsAtName_error _) (by simp [startsDeclaration])

/-- Wherever the cursor stands, the lookahead takes nothing and sees a declaration exactly if a
type can be read there and leaves the cursor on a name. -/
theorem atDeclaration_iff_type (names : Names) (tokens : List Token) (hfit : LiteralsFit tokens)
    (pos : Nat) (previous : Span) :
    atDeclaration names ⟨tokens.drop pos, previous⟩ =
        .ok (names.startsDeclarationAt tokens pos, ⟨tokens.drop pos, previous⟩) ∧
      (names.startsDeclarationAt tokens pos = true ↔
        ∃ t c name, type names ⟨tokens.drop pos, previous⟩ = .ok (t, c) ∧
          c.current.kind = .ident name) := by
  have hlookahead := startsDeclarationAt_eq names tokens pos
  constructor
  · rw [hlookahead]
    rfl
  · rw [hlookahead]
    exact (endsAtName_type_iff names ⟨tokens.drop pos, previous⟩ (hfit.drop pos)).symm

/-- The tokens of `; Light[4][] a`. -/
def arrayTokens : List Token :=
  [.symbol .semicolon, .ident "Light", .symbol .lbracket, .int 4, .symbol .rbracket,
    .symbol .lbracket, .symbol .rbracket, .ident "a"].map fun k => ⟨k, Span.dummy, ⟨1, 1⟩⟩

/-- The theorem of the lookahead applies to an array of structures. -/
theorem arrayTokens_atDeclaration :
    LiteralsFit arrayTokens ∧
      ∃ t c name, type ⟨Registry.empty, ["Light"]⟩ ⟨arrayTokens.drop 1, Span.dummy⟩ = .ok (t, c) ∧
        c.current.kind = .ident name := by
  have hfit : LiteralsFit arrayTokens := by
    simp [LiteralsFit, arrayTokens]
  refine ⟨hfit, (atDeclaration_iff_type ⟨Registry.empty, ["Light"]⟩ arrayTokens hfit 1
    Span.dummy).2.mp ?_⟩
  rw [startsDeclarationAt_eq]
  rfl

end Parse

end Shading
