import Shading.Proofs.Except
import Shading.Proofs.Token.Spelling

/-!
# Reading spelled text

A text spells some tokens if it is their spellings in order, with blanks wherever two would
run together. The lexer gives these tokens back unless one of them is too large a number or a
number runs into a point; then it fails or takes a point for a part of a number.
-/

namespace Shading

namespace Lexer

/-- The text spells the tokens where `next` follows it. No blank stands before a point. -/
inductive Spells (next : List Char) : List Char → List Kind → Prop
  | nil : Spells next [] []
  | blank {c : Char} {cs : List Char} {ks : List Kind} (hc : isBlank c = true)
      (hdot : Stops (· = '.') (cs ++ next)) (hcs : Spells next cs ks) : Spells next (c :: cs) ks
  | token {k : Kind} {cs : List Char} {ks : List Kind} (hk : k.Spellable)
      (hbefore : k.Before (cs ++ next)) (hcs : Spells next cs ks) :
      Spells next (k.spelling ++ cs) (k :: ks)

/-- No token is too large a number, and no number stands right before a point. -/
def Faultless : List Kind → Prop
  | [] => True
  | k :: ks =>
    k.isTooLarge = false ∧ (k.isNumber = true → ks.head? ≠ some (.symbol .dot)) ∧ Faultless ks

instance decidableFaultless : (ks : List Kind) → Decidable (Faultless ks)
  | [] => inferInstanceAs (Decidable True)
  | k :: ks =>
    have := decidableFaultless ks
    inferInstanceAs (Decidable (k.isTooLarge = false ∧
      (k.isNumber = true → ks.head? ≠ some (.symbol .dot)) ∧ Faultless ks))

namespace Spells

variable {next xs ys : List Char} {ks ls : List Kind}

/-- What two texts spell they spell together, where the second follows the first. -/
theorem append (hx : Spells (ys ++ next) xs ks) (hy : Spells next ys ls) :
    Spells next (xs ++ ys) (ks ++ ls) := by
  induction hx with
  | nil => exact hy
  | blank hc hdot _ ih =>
      rw [← List.append_assoc] at hdot
      exact .blank hc hdot ih
  | token hk hbefore _ ih =>
      rw [← List.append_assoc] at hbefore
      rw [List.append_assoc]
      exact .token hk hbefore ih

end Spells

/-- How the spelling of a token starts: with no blank, and with a point only if it is one. -/
theorem spelling_eq_cons {k : Kind} (hk : k.Spellable) :
    ∃ c cs, k.spelling = c :: cs ∧ isBlank c = false ∧ (c = '.' ↔ k = .symbol .dot) := by
  have hword {c : Char} (hc : isWordChar c = true) (hsymbol : ∀ s, k ≠ .symbol s) :
      isBlank c = false ∧ (c = '.' ↔ k = .symbol .dot) := by
    refine ⟨not_isBlank_of_isWordChar hc, ?_⟩
    have hne : c ≠ '.' := by
      rintro rfl
      exact absurd hc (by decide)
    simp [hne, hsymbol .dot]
  by_cases hnumber : k.isNumber = true
  · obtain ⟨c, cs, hspell, hc⟩ := spelling_of_isNumber hnumber hk
    exact ⟨c, cs, hspell, hword (isWordChar_of_isDigit hc) (by rintro s rfl; cases hnumber)⟩
  · cases k with
    | int _ | uint _ | float _ => exact absurd rfl hnumber
    | ident name =>
        have hname : isName name = true := hk
        unfold isName at hname
        split at hname
        · cases hname
        · rename_i c cs hcs
          simp only [Bool.and_eq_true] at hname
          exact ⟨c, cs, hcs, hword (isWordChar_of_isWordStart hname.1.1) (by simp)⟩
    | keyword k =>
        obtain ⟨c, cs, hspell, hc⟩ : ∃ c cs, k.text.toList = c :: cs ∧ isWordChar c = true := by
          cases k <;> exact ⟨_, _, rfl, by decide⟩
        exact ⟨c, cs, hspell, hword hc (by simp)⟩
    | symbol s =>
        obtain ⟨c, cs, hcs⟩ : ∃ c cs, s.chars = c :: cs := by
          cases s <;> exact ⟨_, _, rfl⟩
        obtain ⟨hblank, -, -, -, hdot⟩ := head_chars hcs
        refine ⟨c, cs, hcs, hblank, fun h => congrArg Kind.symbol (hdot h), fun h => ?_⟩
        cases h
        exact (List.cons.inj hcs).1.symm
    | eof => exact hk.elim

/-- A spelled text starts with a point exactly if its first token is one. -/
theorem Spells.head_eq_dot_iff {cs : List Char} {ks : List Kind} (h : Spells [] cs ks) :
    cs.head? = some '.' ↔ ks.head? = some (.symbol .dot) := by
  induction h with
  | nil => simp
  | @blank c cs ks hc hdot hcs ih =>
      have hne : cs.head? ≠ some '.' := by
        intro hhead
        have := hdot '.' (by simpa using hhead)
        simp at this
      have hcne : c ≠ '.' := by
        rintro rfl
        exact absurd hc (by decide)
      simp only [List.head?_cons, Option.some.injEq, hcne, false_iff]
      exact mt ih.mpr hne
  | @token k cs ks hk hbefore hcs ih =>
      obtain ⟨c, tail, hspell, -, hdot⟩ := spelling_eq_cons hk
      simp only [hspell, List.cons_append, List.head?_cons, Option.some.injEq]
      exact hdot

section Scan

variable (fuel offset : Nat) (position : Position) {length : Nat} {cs : List Char}

/-- A blank or a comment is passed over. -/
theorem scan_skip (hne : cs ≠ []) (h : piece cs = .skip length) :
    ∃ o p, scan (fuel + 1) offset position cs = scan fuel o p (cs.drop length) := by
  obtain ⟨c, tail, rfl⟩ := List.exists_cons_of_ne_nil hne
  simp only [scan, h]
  exact ⟨_, _, rfl⟩

/-- A token is read, and scanning goes on behind it. -/
theorem scan_token {k : Kind} (hne : cs ≠ []) (h : piece cs = .token k length) :
    ∃ o p t, t.kind = k ∧ scan (fuel + 1) offset position cs =
      (scan fuel o p (cs.drop length)).bind fun ts => .ok (t :: ts) := by
  obtain ⟨c, tail, rfl⟩ := List.exists_cons_of_ne_nil hne
  simp only [scan, h]
  exact ⟨_, _, ⟨k, _, _⟩, rfl, rfl⟩

theorem scan_fault {fault : LexFault} (hne : cs ≠ []) (h : piece cs = .fault fault length) :
    ∃ e, scan (fuel + 1) offset position cs = .error e := by
  obtain ⟨c, tail, rfl⟩ := List.exists_cons_of_ne_nil hne
  simp only [scan, h]
  exact ⟨_, rfl⟩

/-- What a run that ends has done at a token. -/
theorem exists_of_scan_token {k : Kind} {ts : List Token} (hne : cs ≠ [])
    (h : piece cs = .token k length) (hscan : scan (fuel + 1) offset position cs = .ok ts) :
    ∃ o p t ts', t.kind = k ∧ ts = t :: ts' ∧ scan fuel o p (cs.drop length) = .ok ts' := by
  obtain ⟨o, p, t, ht, hrun⟩ := scan_token fuel offset position hne h
  obtain ⟨ts', hts', hcons⟩ := Except.bind_eq_ok_iff.mp (hrun.symm.trans hscan)
  exact ⟨o, p, t, ts', ht, (Except.ok.inj hcons).symm, hts'⟩

/-- A fault ends the scan. -/
theorem scan_ne_ok_of_fault {fault : LexFault} {ts : List Token} (hne : cs ≠ [])
    (h : piece cs = .fault fault length) : scan (fuel + 1) offset position cs ≠ .ok ts := by
  intro hscan
  obtain ⟨e, he⟩ := scan_fault fuel offset position hne h
  cases he.symm.trans hscan

theorem scan_nil : ∃ t, t.kind = .eof ∧ scan fuel offset position [] = .ok [t] := by
  cases fuel <;> exact ⟨⟨.eof, _, _⟩, rfl, rfl⟩

end Scan

theorem piece_blank {c : Char} (hc : isBlank c = true) (cs : List Char) :
    piece (c :: cs) = .skip 1 := by
  simp [piece, hc]

/-- The lexer reads the text as these tokens, wherever it stands. -/
def Yields (cs : List Char) (ks : List Kind) : Prop :=
  ∀ fuel offset position, cs.length ≤ fuel →
    ∃ ts, scan fuel offset position cs = .ok ts ∧ ts.map Token.kind = ks ++ [.eof]

namespace Yields

variable {before cs : List Char} {ks : List Kind}

theorem nil : Yields [] [] := by
  intro fuel offset position _
  obtain ⟨t, ht, hscan⟩ := scan_nil fuel offset position
  exact ⟨[t], hscan, by simp [ht]⟩

/-- A piece that is passed over changes nothing. -/
theorem skip (hne : before ≠ []) (hpiece : piece (before ++ cs) = .skip before.length)
    (h : Yields cs ks) : Yields (before ++ cs) ks := by
  intro fuel offset position hfuel
  have hpos : 0 < before.length := List.length_pos_iff.mpr hne
  rw [List.length_append] at hfuel
  obtain ⟨fuel, rfl⟩ : ∃ n, fuel = n + 1 := ⟨fuel - 1, by omega⟩
  obtain ⟨o, p, hstep⟩ := scan_skip fuel offset position (by simp [hne]) hpiece
  rw [hstep, List.drop_left]
  exact h fuel o p (by omega)

theorem blank {c : Char} (hc : isBlank c = true) (h : Yields cs ks) : Yields (c :: cs) ks :=
  skip (List.cons_ne_nil c []) (piece_blank hc cs) h

/-- A piece that is a token comes before those that follow. -/
theorem token {k : Kind} (hne : before ≠ [])
    (hpiece : piece (before ++ cs) = .token k before.length) (h : Yields cs ks) :
    Yields (before ++ cs) (k :: ks) := by
  intro fuel offset position hfuel
  have hpos : 0 < before.length := List.length_pos_iff.mpr hne
  rw [List.length_append] at hfuel
  obtain ⟨fuel, rfl⟩ : ∃ n, fuel = n + 1 := ⟨fuel - 1, by omega⟩
  obtain ⟨o, p, t, ht, hstep⟩ := scan_token fuel offset position (by simp [hne]) hpiece
  obtain ⟨ts, hts, hkinds⟩ := h fuel o p (by omega)
  rw [hstep, List.drop_left, hts]
  exact ⟨t :: ts, rfl, by simp [ht, hkinds]⟩

end Yields

/-- A text that spells faultless tokens is read as them. -/
theorem scan_of_spells {cs : List Char} {ks : List Kind} (h : Spells [] cs ks)
    (hfaultless : Faultless ks) (fuel : Nat) (hfuel : cs.length ≤ fuel) (offset : Nat)
    (position : Position) :
    ∃ ts, scan fuel offset position cs = .ok ts ∧ ts.map Token.kind = ks ++ [.eof] := by
  induction h generalizing fuel offset position with
  | nil =>
      obtain ⟨t, ht, hscan⟩ := scan_nil fuel offset position
      exact ⟨[t], hscan, by simp [ht]⟩
  | @blank c cs ks hc _ _ ih =>
      obtain ⟨fuel, rfl⟩ : ∃ n, fuel = n + 1 := ⟨fuel - 1, by simp at hfuel; omega⟩
      obtain ⟨o, p, hstep⟩ := scan_skip fuel offset position
        (List.cons_ne_nil c cs) (piece_blank hc cs)
      rw [hstep]
      exact ih hfaultless fuel (by simpa using hfuel) o p
  | @token k cs ks hk hbefore hcs ih =>
      obtain ⟨hsize, hdot, hrest⟩ := hfaultless
      obtain ⟨c, tail, hspell, -, -⟩ := spelling_eq_cons hk
      have hne : k.spelling ++ cs ≠ [] := by simp [hspell]
      have hlen : 0 < k.spelling.length := by simp [hspell]
      rw [List.length_append] at hfuel
      obtain ⟨fuel, rfl⟩ : ∃ n, fuel = n + 1 := ⟨fuel - 1, by omega⟩
      rw [List.append_nil] at hbefore
      have hpoint : k.isNumber = true → Stops (· = '.') cs := by
        intro hnumber c hc
        refine decide_eq_false ?_
        rintro rfl
        exact hdot hnumber (hcs.head_eq_dot_iff.mp hc)
      obtain ⟨o, p, t, ht, hstep⟩ := scan_token fuel offset position hne
        (piece_spelling hk hbefore hsize hpoint)
      obtain ⟨ts, hts, hkinds⟩ := ih hrest fuel (by omega) o p
      rw [hstep, List.drop_left, hts]
      exact ⟨t :: ts, rfl, by simp [ht, hkinds]⟩

end Lexer

end Shading
