import Shading.Proofs.Token.Reading

/-!
# Points that a number takes

Where digits run into a point, the lexer fails or reads the point and the word after it as
the fraction and the exponent of a float. Either way the text has fewer points than the
tokens that it spells.
-/

namespace Shading

namespace Number

open Lexer (isWordChar isWordStart)

variable {word rest : List Char}

/-- An exponent part ends within the word that it starts in. -/
theorem exponent?_length_le {length : Nat} {e : Int} (hword : ∀ c ∈ word, isWordChar c = true)
    (hstop : Stops isWordChar rest) (hsign : Stops (fun c => c = '-' || c = '+') rest)
    (h : exponent? (word ++ rest) = some (length, e)) : length ≤ word.length := by
  have hdigits : Stops isDigit rest := not_isDigit_of_not_isWordChar hstop
  cases word with
  | nil =>
      rw [List.nil_append, exponent?_eq_none hstop] at h
      cases h
  | cons c w =>
      have hrun : ((w ++ rest).takeWhile isDigit).length ≤ w.length := by
        rw [List.takeWhile_append]
        split
        · rw [hdigits.takeWhile_eq_nil, List.append_nil]
        · exact (List.takeWhile_prefix _).length_le
      have hnosign : ∀ d tail, w ++ rest = d :: tail → ¬(d = '-' ∨ d = '+') := by
        intro d tail heq
        cases w with
        | nil =>
            have hd := hsign d (by simp [show rest = d :: tail from heq])
            simpa using hd
        | cons a w =>
            obtain rfl := (List.cons.inj heq).1
            have ha := hword a (by simp)
            rintro (rfl | rfl) <;> exact absurd ha (by decide)
      simp only [exponent?, List.cons_append] at h
      split at h
      · split at h
        · rename_i heq
          exact absurd (.inl rfl) (hnosign _ _ heq)
        · rename_i heq
          exact absurd (.inr rfl) (hnosign _ _ heq)
        · simp only [Nat.add_zero] at h
          split at h
          · cases h
          · obtain ⟨rfl, -⟩ := Prod.mk.inj (Option.some.inj h)
            simp only [List.length_cons]
            omega
      · cases h

/-- The exponent and the letter of a float that a word follows come out of that word. -/
theorem float_length_le (length : Nat) (whole : List Char)
    (hword : ∀ c ∈ word, isWordChar c = true) (hstop : Stops isWordChar rest)
    (hsign : Stops (fun c => c = '-' || c = '+') rest) :
    ∃ n kind?, float length whole [] (word ++ rest) = ⟨length + n, kind?⟩ ∧ n ≤ word.length ∧
      ∀ k, kind? = some k → ∃ x, k = .float x := by
  have hexp : ((exponent? (word ++ rest)).getD (0, 0)).1 ≤ word.length := by
    cases he : exponent? (word ++ rest) with
    | none => exact Nat.zero_le _
    | some p =>
        obtain ⟨length, e⟩ := p
        exact exponent?_length_le hword hstop hsign he
  simp only [float]
  generalize (exponent? (word ++ rest)).getD (0, 0) = p at hexp ⊢
  have hdrop : (word ++ rest).drop p.1 = word.drop p.1 ++ rest := by
    rw [List.drop_append, Nat.sub_eq_zero_of_le hexp, List.drop_zero]
  have hletter {c : Char} {tail : List Char} (hc : isWordChar c = true)
      (h : (word ++ rest).drop p.1 = c :: tail) : p.1 + 1 ≤ word.length := by
    rw [hdrop] at h
    by_contra hlong
    rw [List.drop_of_length_le (by omega), List.nil_append] at h
    exact absurd hc (by simp [hstop c (by simp [h])])
  have hkind : ∀ k, (if (Binary32.ofDecimal (value 10 (whole ++ []))
      (p.2 - ([] : List Char).length)).isFinite
      then some (Kind.float (Binary32.ofDecimal (value 10 (whole ++ []))
        (p.2 - ([] : List Char).length)))
      else none) = some k → ∃ x, k = .float x := by
    intro k hk
    split at hk
    · exact ⟨_, (Option.some.inj hk).symm⟩
    · cases hk
  split
  · rename_i heq
    exact ⟨p.1 + 1, _, by rw [Nat.add_assoc], hletter rfl heq, hkind⟩
  · rename_i heq
    exact ⟨p.1 + 1, _, by rw [Nat.add_assoc], hletter rfl heq, hkind⟩
  · exact ⟨p.1, _, rfl, hexp, hkind⟩

end Number

namespace Lexer

open Number (literal? ofDigits float isDigit)

/-- A literal that ends within a text, the rest of which may not trail a number, is a fault or
takes all of the text. -/
theorem number_within {length : Nat} {kind? : Option Kind} {text rest : List Char}
    (hlength : length ≤ text.length) (htrails : ∀ c ∈ text.drop length, trailsNumber c = true) :
    (∃ m, number ⟨length, kind?⟩ (text ++ rest) = .fault .malformedNumber m) ∨
      ∃ k, kind? = some k ∧ number ⟨length, kind?⟩ (text ++ rest) = .token k text.length := by
  cases hleft : text.drop length with
  | cons c tail =>
      have hsplit : text ++ rest = text.take length ++ c :: (tail ++ rest) := by
        rw [← List.cons_append, ← hleft, ← List.append_assoc, List.take_append_drop]
      rw [hsplit]
      exact .inl (number_of_trails (by simp [hlength]) (htrails c (by simp [hleft])))
  | nil =>
      obtain rfl : length = text.length := Nat.le_antisymm hlength (List.drop_eq_nil_iff.mp hleft)
      cases kind? with
      | none => exact .inl (number_of_none _ _)
      | some k =>
          cases rest with
          | nil => exact .inr ⟨k, rfl, number_of_stops rfl .nil⟩
          | cons c rest =>
              cases hc : trailsNumber c with
              | true => exact .inl (number_of_trails rfl hc)
              | false => exact .inr ⟨k, rfl, number_of_stops rfl (.cons hc)⟩

/-- Digits, a point and a word make a fault or one float. -/
theorem piece_point (n : Nat) {word rest : List Char} (hword : ∀ c ∈ word, isWordChar c = true)
    (hstart : ∀ c ∈ word.head?, isWordStart c = true)
    (hafter : ∀ c ∈ rest.head?, (isBlank c || isDelimiter c) = true) :
    (∃ m, piece (Nat.toDigits 10 n ++ '.' :: (word ++ rest)) = .fault .malformedNumber m) ∨
      ∃ x, piece (Nat.toDigits 10 n ++ '.' :: (word ++ rest))
        = .token (.float x) ((Nat.toDigits 10 n).length + 1 + word.length) := by
  have hstop : Stops isWordChar rest := by
    intro c hc
    rcases Bool.or_eq_true_iff.mp (hafter c hc) with hblank | hdelimiter
    · exact not_isWordChar_of_isBlank hblank
    · exact not_isWordChar_of_isDelimiter hdelimiter
  have hsign : Stops (fun c => c = '-' || c = '+') rest := by
    intro c hc
    have hc := hafter c hc
    cases hsign : (decide (c = '-') || decide (c = '+')) with
    | false => exact hsign
    | true =>
        simp only [Bool.or_eq_true, decide_eq_true_eq] at hsign
        rcases hsign with rfl | rfl <;> exact absurd hc (by decide)
  have hdigit : Stops isDigit (word ++ rest) := by
    cases word with
    | nil => exact Number.not_isDigit_of_not_isWordChar hstop
    | cons c word =>
        refine .cons ?_
        cases hd : isDigit c with
        | false => rfl
        | true => exact absurd (hstart c rfl) (by simp [not_isWordStart_of_isDigit hd])
  have hnone : ∀ c ∈ ([] : List Char), isDigit c = true := by simp
  have hfloat := Number.ofDigits_dot (Nat.toDigits 10 n) hnone hdigit
  obtain ⟨l, kind?, hlit, hl, hkind⟩ := Number.float_length_le
    ((Nat.toDigits 10 n).length + 1) (Nat.toDigits 10 n) hword hstop hsign
  have hpoint : Stops Number.continuesDigits ('.' :: (word ++ rest)) := .cons (by decide)
  have hliteral := Number.literal?_of_digits Nat.toDigits_ne_nil
    (fun c => Number.isDigit_of_mem_toDigits (n := n)) hpoint
  rw [List.nil_append, List.length_nil, Nat.add_zero] at hfloat
  rw [hfloat, hlit] at hliteral
  obtain ⟨c, cs, hcs⟩ := List.exists_cons_of_ne_nil (Nat.toDigits_ne_nil (n := n) (b := 10))
  have hc : isDigit c = true := Number.isDigit_of_mem_toDigits (n := n) (by simp [hcs])
  have hsplit : Nat.toDigits 10 n ++ '.' :: (word ++ rest)
      = (Nat.toDigits 10 n ++ '.' :: word) ++ rest := by simp
  have hpiece : piece (Nat.toDigits 10 n ++ '.' :: (word ++ rest))
      = number ⟨(Nat.toDigits 10 n).length + 1 + l, kind?⟩
        ((Nat.toDigits 10 n ++ '.' :: word) ++ rest) := by
    rw [← hsplit]
    rw [hcs, List.cons_append] at hliteral ⊢
    exact piece_of_isDigit hc hliteral
  -- what the literal leaves of the word would trail it
  have hleft : ∀ c ∈ (Nat.toDigits 10 n ++ '.' :: word).drop ((Nat.toDigits 10 n).length + 1 + l),
      trailsNumber c = true := by
    intro c hc
    have hdrop : (Nat.toDigits 10 n ++ '.' :: word).drop ((Nat.toDigits 10 n).length + (l + 1))
        = word.drop l := by
      rw [← List.drop_drop, List.drop_left, List.drop_succ_cons]
    rw [Nat.add_assoc, Nat.add_comm 1 l, hdrop] at hc
    simp [trailsNumber, hword c (List.mem_of_mem_drop hc)]
  have hlength : (Nat.toDigits 10 n).length + 1 + word.length
      = (Nat.toDigits 10 n ++ '.' :: word).length := by
    simp only [List.length_append, List.length_cons]
    omega
  rw [hpiece, hlength]
  rcases number_within (by omega) hleft with hfault | ⟨k, hk, htoken⟩
  · exact .inl hfault
  · obtain ⟨x, rfl⟩ := hkind k hk
    exact .inr ⟨x, htoken⟩

/-- A number that is no plain integer does not run into a point. -/
theorem piece_suffixed_point {k : Kind} (hnumber : k.isNumber = true) (hk : k.Spellable)
    (hint : ∀ n, k ≠ .int n) (rest : List Char) :
    ∃ m, piece (k.spelling ++ '.' :: rest) = .fault .malformedNumber m := by
  have hliteral : literal? (k.spelling ++ '.' :: rest) = some ⟨k.spelling.length, some k⟩ := by
    cases k with
    | int n => exact absurd rfl (hint n)
    | uint n =>
        have hlit := literal?_uint n ('.' :: rest)
        simpa [Kind.spelling] using hlit
    | float x => exact Number.literal?_text hk.1 hk.2 (.cons (by decide))
    | ident _ | keyword _ | symbol _ | eof => cases hnumber
  obtain ⟨c, cs, hcs, hc⟩ := spelling_of_isNumber hnumber hk
  obtain ⟨m, hm⟩ : ∃ m, number ⟨k.spelling.length, some k⟩ (k.spelling ++ '.' :: rest)
      = .fault .malformedNumber m := number_of_trails rfl rfl
  refine ⟨m, ?_⟩
  rw [hcs, List.cons_append] at hliteral hm ⊢
  rw [piece_of_isDigit hc hliteral, hm]

/-- A number that is too large is a fault. -/
theorem piece_tooLarge {k : Kind} (hk : k.Spellable) (hsize : k.isTooLarge = true)
    {rest : List Char} (hbefore : k.Before rest) (hdot : Stops (· = '.') rest) :
    ∃ m, piece (k.spelling ++ rest) = .fault .malformedNumber m := by
  have hnumber : k.isNumber = true := by
    cases k <;> first | rfl | cases hsize
  have hliteral := literal?_spelling hnumber hk hbefore hdot
  rw [hsize, if_pos rfl] at hliteral
  obtain ⟨c, cs, hcs, hc⟩ := spelling_of_isNumber hnumber hk
  obtain ⟨m, hm⟩ := number_of_none k.spelling.length (k.spelling ++ rest)
  refine ⟨m, ?_⟩
  rw [hcs, List.cons_append] at hliteral hm ⊢
  rw [piece_of_isDigit hc hliteral, hm]

/-- The first token of a spelled text, after the blanks before it. -/
theorem Spells.cases_point {cs : List Char} {ks : List Kind} (h : Spells [] cs ks)
    (hdot : cs.head? = some '.') :
    ∃ tail ls, cs = '.' :: tail ∧ ks = .symbol .dot :: ls ∧
      (Kind.symbol .dot).Before tail ∧ Spells [] tail ls := by
  have hhead := h.head_eq_dot_iff.mp hdot
  cases h with
  | nil => cases hdot
  | blank hc _ _ =>
      cases hdot
      exact absurd hc (by decide)
  | @token k tail ls hk hbefore hcs =>
      cases hhead
      rw [List.append_nil] at hbefore
      exact ⟨tail, ls, rfl, rfl, hbefore, hcs⟩

/-- A token that starts like a word is one, and no character that could continue it follows. -/
theorem word_of_isWordStart {k : Kind} (hk : k.Spellable) {c : Char} {cs : List Char}
    (hspell : k.spelling = c :: cs) (hc : isWordStart c = true) :
    (∀ d ∈ k.spelling, isWordChar d = true) ∧
      ∀ d, k.mayPrecede d = true → (isBlank d || isDelimiter d) = true := by
  by_cases hnumber : k.isNumber = true
  · obtain ⟨d, ds, hds, hd⟩ := spelling_of_isNumber hnumber hk
    obtain ⟨rfl, -⟩ := List.cons.inj (hspell.symm.trans hds)
    exact absurd hc (by simp [not_isWordStart_of_isDigit hd])
  · cases k with
    | int _ | uint _ | float _ => exact absurd rfl hnumber
    | ident name =>
        have hname : isName name = true := hk
        refine ⟨?_, fun d hd => hd⟩
        unfold isName at hname
        split at hname
        · cases hname
        · rename_i a w haw
          simp only [Bool.and_eq_true, List.all_eq_true] at hname
          intro d hd
          simp only [Kind.spelling, haw, List.mem_cons] at hd
          rcases hd with rfl | hd
          · exact isWordChar_of_isWordStart hname.1.1
          · exact hname.1.2 d hd
    | keyword k =>
        refine ⟨?_, fun d hd => hd⟩
        cases k <;> exact List.all_eq_true.mp (by decide)
    | symbol s => exact absurd hc (by simp [(head_chars hspell).2.1])
    | eof => exact hk.elim

/-- The word, if any, that a text starts with where a word or nothing may follow. -/
theorem Spells.cases_word {cs : List Char} {ks : List Kind} (h : Spells [] cs ks)
    (hbefore : (Kind.symbol .dot).Before cs) :
    ∃ word rest ls, cs = word ++ rest ∧ (∀ c ∈ word, isWordChar c = true) ∧
      (∀ c ∈ word.head?, isWordStart c = true) ∧
      (∀ c ∈ rest.head?, (isBlank c || isDelimiter c) = true) ∧ Spells [] rest ls ∧
      ls.count (.symbol .dot) ≤ ks.count (.symbol .dot) := by
  cases h with
  | nil => exact ⟨[], [], [], rfl, by simp, by simp, by simp, .nil, Nat.le_refl _⟩
  | @blank c cs ks hc _ _ =>
      have hstart : isWordStart c = true := hbefore c rfl
      exact absurd hc (by simp [not_isBlank_of_isWordChar (isWordChar_of_isWordStart hstart)])
  | @token k tail ls hk hafter hcs =>
      rw [List.append_nil] at hafter
      obtain ⟨c, cs, hspell, -, -⟩ := spelling_eq_cons hk
      have hstart : isWordStart c = true := hbefore c (by simp [hspell])
      have hcount : ls.count (.symbol .dot) ≤ (k :: ls).count (.symbol .dot) :=
        List.count_le_count_cons
      obtain ⟨hword, hends⟩ := word_of_isWordStart hk hspell hstart
      exact ⟨k.spelling, tail, ls, rfl, hword, by simpa [hspell] using hstart,
        fun d hd => hends d (hafter d hd), hcs, hcount⟩

/-- Where a number runs into a point, a run that ends reads one float up to the end of the word
behind the point. -/
theorem exists_of_scan_point {fuel offset : Nat} {position : Position} {k : Kind}
    {word rest : List Char} {ts : List Token} (hnumber : k.isNumber = true) (hk : k.Spellable)
    (hword : ∀ c ∈ word, isWordChar c = true) (hstart : ∀ c ∈ word.head?, isWordStart c = true)
    (hafter : ∀ c ∈ rest.head?, (isBlank c || isDelimiter c) = true)
    (hscan : scan (fuel + 1) offset position (k.spelling ++ '.' :: (word ++ rest)) = .ok ts) :
    ∃ x o p t ts', t.kind = .float x ∧ ts = t :: ts' ∧ scan fuel o p rest = .ok ts' := by
  have hne : k.spelling ++ '.' :: (word ++ rest) ≠ [] := by simp
  by_cases hint : ∀ m, k ≠ .int m
  · obtain ⟨m, hm⟩ := piece_suffixed_point hnumber hk hint (word ++ rest)
    exact absurd hscan (scan_ne_ok_of_fault fuel offset position hne hm)
  obtain ⟨n, rfl⟩ : ∃ n, k = .int n := by simpa using hint
  rcases piece_point n hword hstart hafter with ⟨m, hm⟩ | ⟨x, hx⟩
  · exact absurd hscan (scan_ne_ok_of_fault fuel offset position hne hm)
  · obtain ⟨o, p, t, ts', ht, hts, hrun⟩ := exists_of_scan_token fuel offset position hne hx hscan
    have hdrop : ((Kind.int n).spelling ++ '.' :: (word ++ rest)).drop
        ((Nat.toDigits 10 n).length + 1 + word.length) = rest := by
      rw [Nat.add_assoc, ← List.drop_drop, Kind.spelling, List.drop_left, Nat.add_comm 1,
        List.drop_succ_cons, List.drop_left]
    rw [hdrop] at hrun
    exact ⟨x, o, p, t, ts', ht, hts, hrun⟩

/-- A text is never read with more points than it spells, and with fewer if its tokens are
not faultless. -/
theorem count_dot_of_scan {fuel offset : Nat} {position : Position} {cs : List Char}
    {ks : List Kind} {ts : List Token} (h : Spells [] cs ks) (hfuel : cs.length ≤ fuel)
    (hscan : scan fuel offset position cs = .ok ts) :
    (ts.map Token.kind).count (.symbol .dot) ≤ ks.count (.symbol .dot) ∧
      (¬Faultless ks → (ts.map Token.kind).count (.symbol .dot) < ks.count (.symbol .dot)) := by
  induction fuel using Nat.strong_induction_on generalizing offset position cs ks ts with
  | _ fuel ih =>
      cases h with
      | nil =>
          obtain ⟨t, ht, hnil⟩ := scan_nil fuel offset position
          obtain rfl := Except.ok.inj (hnil.symm.trans hscan)
          exact ⟨by simp [ht], fun hfault => absurd trivial hfault⟩
      | @blank c tail ls hc _ htail =>
          obtain ⟨n, rfl⟩ : ∃ n, fuel = n + 1 := ⟨fuel - 1, by simp at hfuel; omega⟩
          obtain ⟨o, p, hstep⟩ := scan_skip n offset position
            (List.cons_ne_nil c tail) (piece_blank hc tail)
          exact ih n (by omega) htail (by simpa using hfuel) (hstep.symm.trans hscan)
      | @token k tail ls hk hbefore htail =>
          obtain ⟨c, cs, hspell, -, -⟩ := spelling_eq_cons hk
          have hne : k.spelling ++ tail ≠ [] := by simp [hspell]
          have hpos : 0 < k.spelling.length := by simp [hspell]
          rw [List.append_nil] at hbefore
          rw [List.length_append] at hfuel
          obtain ⟨n, rfl⟩ : ∃ n, fuel = n + 1 := ⟨fuel - 1, by omega⟩
          by_cases hpoint : k.isNumber = true ∧ tail.head? = some '.'
          · obtain ⟨hnumber, hhead⟩ := hpoint
            obtain ⟨tail, ls, rfl, rfl, hafter, hrest⟩ := htail.cases_point hhead
            obtain ⟨word, rest, ls', rfl, hword, hstart, hends, hspells, hcount⟩ :=
              hrest.cases_word hafter
            obtain ⟨x, o, p, t, ts', ht, rfl, hrun⟩ :=
              exists_of_scan_point hnumber hk hword hstart hends hscan
            have hless := (ih n (by omega) hspells (by simp at hfuel; omega) hrun).1
            have hnodot : k ≠ .symbol .dot := by
              rintro rfl
              cases hnumber
            simp only [List.map_cons, ht, List.count_cons_of_ne (show Kind.float x ≠ .symbol .dot
              by simp), List.count_cons_of_ne hnodot, List.count_cons_self]
            exact ⟨by omega, fun _ => by omega⟩
          · have hdot : k.isNumber = true → Stops (· = '.') tail := by
              intro hnumber d hd
              refine decide_eq_false ?_
              rintro rfl
              exact hpoint ⟨hnumber, hd⟩
            cases hsize : k.isTooLarge with
            | true =>
                have hnumber : k.isNumber = true := by
                  cases k <;> first | rfl | cases hsize
                obtain ⟨m, hm⟩ := piece_tooLarge hk hsize hbefore (hdot hnumber)
                exact absurd hscan (scan_ne_ok_of_fault n offset position hne hm)
            | false =>
                have hpiece := piece_spelling hk hbefore hsize hdot
                obtain ⟨o, p, t, ts', ht, rfl, hrun⟩ :=
                  exists_of_scan_token n offset position hne hpiece hscan
                rw [List.drop_left] at hrun
                obtain ⟨hle, hlt⟩ := ih n (by omega) htail (by omega) hrun
                have hhead : k.isNumber = true → ls.head? ≠ some (.symbol .dot) := by
                  intro hnumber hd
                  exact hpoint ⟨hnumber, htail.head_eq_dot_iff.mpr hd⟩
                simp only [List.map_cons, ht, List.count_cons]
                refine ⟨by omega, fun hfault => ?_⟩
                have := hlt fun hrest => hfault ⟨hsize, hhead, hrest⟩
                omega

end Lexer

end Shading
