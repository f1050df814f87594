import Mathlib.Data.List.Basic
import Shading.Parse.Library
import Shading.Proofs.Except
import Shading.Proofs.Print.Kinds

/-!
# Splicing comes to an end

A run of the splicer without any bound on its depth. Every text has exactly one run: a library
is entered only when it was not met before, so the libraries that are left bound the depth.
-/

namespace Shading

namespace Libraries

/-- What splicing comes to: the tokens and the libraries met, the latest first. -/
abbrev Outcome := Except ParseError (List Token × List String)

section Prepend

variable {ε α : Type}

/-- An outcome with more in front. -/
def prepend (front : List α) (r : Except ε (List α × List String)) :
    Except ε (List α × List String) :=
  (fun out => (front ++ out.1, out.2)) <$> r

@[simp] theorem prepend_ok (front : List α) (out : List α × List String) :
    prepend front (.ok out : Except ε _) = .ok (front ++ out.1, out.2) := rfl

@[simp] theorem prepend_error (front : List α) (e : ε) :
    prepend front (.error e) = .error e := rfl

@[simp] theorem prepend_nil (r : Except ε (List α × List String)) : prepend [] r = r := by
  cases r <;> rfl

/-- A result with tokens put before it is a result of the rest. -/
theorem prepend_eq_ok_iff {front : List α} {r : Except ε (List α × List String)}
    {out : List α × List String} :
    prepend front r = .ok out ↔ ∃ inner, r = .ok inner ∧ out = (front ++ inner.1, inner.2) := by
  cases r with
  | error e => simp
  | ok inner => simp [eq_comm]

theorem prepend_eq_error_iff {front : List α} {r : Except ε (List α × List String)} {e : ε} :
    prepend front r = .error e ↔ r = .error e := by
  cases r with
  | error e => simp
  | ok inner => simp

end Prepend

theorem kind_placeToken (origin : Origin) (t : Token) : (placeToken origin t).kind = t.kind := by
  cases origin <;> rfl

/-- What comes next in a text: nothing, a token of its own, a directive with the name of the
library and its place, or one that is not well-formed. -/
inductive Next where
  | done
  | own (t : Token) (after : List Token)
  | directive (name : String) (place : Span × Position) (after : List Token)
  | malformed (e : ParseError)

/-- Reads off what comes next; a directive ends at its semicolon. -/
def next (origin : Origin) (all : List Token) : List Token → Next
  | [] => .done
  | t :: rest =>
    if t.kind = .keyword .include then
      match directivePath all rest with
      | .ok (parts, semicolon, after) =>
        .directive (dotted parts) (origin.getD (t.span.merge semicolon.span, t.position)) after
      | .error e => .malformed (placeError origin e)
    else .own t rest

/-- A run of the splicer over what is left of a text: the libraries that are being expanded,
the origin, the whole text, the libraries met so far, what is left, and the outcome. -/
inductive Run (ls : Libraries) :
    List String → Origin → List Token → List String → List Token → Outcome → Prop where
  | done {stack origin all included rest} (hnext : next origin all rest = .done) :
      Run ls stack origin all included rest (.ok ([], included))
  | own {stack origin all included rest t after r} (hnext : next origin all rest = .own t after)
      (hafter : Run ls stack origin all included after r) :
      Run ls stack origin all included rest (prepend [placeToken origin t] r)
  | malformed {stack origin all included rest e}
      (hnext : next origin all rest = .malformed e) :
      Run ls stack origin all included rest (.error e)
  | cycle {stack origin all included rest name place after}
      (hnext : next origin all rest = .directive name place after) (hstack : name ∈ stack) :
      Run ls stack origin all included rest (.error ⟨.libraryCycle name, place.1, place.2⟩)
  | again {stack origin all included rest name place after r}
      (hnext : next origin all rest = .directive name place after) (hstack : name ∉ stack)
      (hmet : name ∈ included) (hafter : Run ls stack origin all included after r) :
      Run ls stack origin all included rest r
  | missing {stack origin all included rest name place after e}
      (hnext : next origin all rest = .directive name place after) (hstack : name ∉ stack)
      (hmet : name ∉ included) (htokens : ls.tokens name place.1 place.2 = .error e) :
      Run ls stack origin all included rest (.error e)
  | broken {stack origin all included rest name place after library e}
      (hnext : next origin all rest = .directive name place after) (hstack : name ∉ stack)
      (hmet : name ∉ included) (htokens : ls.tokens name place.1 place.2 = .ok library)
      (hlibrary : Run ls (name :: stack) (some place) library (name :: included) library
        (.error e)) :
      Run ls stack origin all included rest (.error e)
  | enter {stack origin all included rest name place after library inner between r}
      (hnext : next origin all rest = .directive name place after) (hstack : name ∉ stack)
      (hmet : name ∉ included) (htokens : ls.tokens name place.1 place.2 = .ok library)
      (hlibrary : Run ls (name :: stack) (some place) library (name :: included) library
        (.ok (inner, between)))
      (hafter : Run ls stack origin all between after r) :
      Run ls stack origin all included rest (prepend inner r)

variable {ls : Libraries} {stack : List String} {origin : Origin} {all : List Token}
  {included : List String} {rest : List Token}

/-- The path of a directive is the parts of a name with points between them, up to a
semicolon. -/
theorem directivePath_eq_ok_iff {parts : List String} {semicolon : Token} {after : List Token} :
    directivePath all rest = .ok (parts, semicolon, after) ↔
      parts ≠ [] ∧ semicolon.kind = .symbol .semicolon ∧
        ∃ path : List Token, path.map Token.kind = dottedKinds parts ∧
          rest = path ++ semicolon :: after := by
  constructor
  · intro h
    induction rest using directivePath.induct generalizing parts with
    | case1 => simp [directivePath] at h
    | case2 t part ht => simp [directivePath, ht] at h
    | case3 t part ht u rest hu =>
        simp only [directivePath, ht, hu, Except.ok.injEq, Prod.mk.injEq] at h
        obtain ⟨rfl, rfl, rfl⟩ := h
        exact ⟨by simp, hu, [t], by simp [ht, dottedKinds], rfl⟩
    | case4 t part ht u rest hu ih =>
        simp only [directivePath, ht, hu] at h
        obtain ⟨⟨parts, semicolon, after⟩, hpath, h⟩ := Except.bind_eq_ok_iff.mp h
        cases h
        obtain ⟨hne, hsemicolon, path, hkinds, rfl⟩ := ih hpath
        refine ⟨by simp, hsemicolon, t :: u :: path, ?_, rfl⟩
        cases parts with
        | nil => exact absurd rfl hne
        | cons next parts => simp [ht, hu, hkinds, dottedKinds]
    | case5 t part ht u rest hsemicolon hdot =>
        rw [directivePath, ht] at h
        simp only at h
        cases h
    | case6 t rest ht =>
        rw [directivePath] at h
        split at h
        · exact absurd ‹_› (ht _)
        · cases h
  · rintro ⟨hne, hsemicolon, path, hkinds, rfl⟩
    induction parts generalizing path with
    | nil => exact absurd rfl hne
    | cons part parts ih =>
        cases parts with
        | nil =>
            obtain ⟨t, rfl, ht⟩ := List.map_eq_singleton_iff.mp hkinds
            simp [directivePath, ht, hsemicolon]
        | cons next parts =>
            obtain ⟨t, path, rfl, ht, hkinds⟩ := List.map_eq_cons_iff.mp hkinds
            obtain ⟨u, path, rfl, hu, hkinds⟩ := List.map_eq_cons_iff.mp hkinds
            simp only [List.cons_append, directivePath, ht, hu]
            rw [ih (by simp) path hkinds]
            rfl

/-- An own token is the first one, and no directive. -/
theorem next_eq_own {t : Token} {after : List Token}
    (h : next origin all rest = .own t after) :
    t.kind ≠ .keyword .include ∧ rest = t :: after := by
  cases rest with
  | nil => cases h
  | cons u rest =>
      rw [next] at h
      split at h
      · split at h <;> cases h
      · rename_i hkind
        cases h
        exact ⟨hkind, rfl⟩

/-- An own token leaves fewer tokens. -/
theorem length_lt_of_next_own {t : Token} {after : List Token}
    (h : next origin all rest = .own t after) : after.length < rest.length := by
  obtain ⟨_, rfl⟩ := next_eq_own h
  exact Nat.lt_succ_self _

/-- A directive leaves fewer tokens. -/
theorem length_lt_of_next_directive {name : String} {place : Span × Position}
    {after : List Token} (h : next origin all rest = .directive name place after) :
    after.length < rest.length := by
  cases rest with
  | nil => cases h
  | cons t rest =>
      rw [next] at h
      split at h
      · split at h
        · rename_i hpath
          cases h
          obtain ⟨_, _, path, _, rfl⟩ := directivePath_eq_ok_iff.mp hpath
          simp only [List.length_cons, List.length_append]
          omega
        · cases h
      · cases h

/-- A text has no other run. -/
theorem Run.unique {r r' : Outcome} (h : Run ls stack origin all included rest r)
    (h' : Run ls stack origin all included rest r') : r = r' := by
  induction h generalizing r' with
  | done hnext => cases h' <;> simp_all
  | own hnext _ ih =>
      cases h' with
      | own hnext' hafter =>
          obtain ⟨rfl, rfl⟩ := Next.own.inj (hnext.symm.trans hnext')
          rw [ih hafter]
      | _ => simp_all
  | malformed hnext => cases h' <;> simp_all
  | cycle hnext hstack => cases h' <;> simp_all
  | again hnext hstack hmet _ ih =>
      cases h' with
      | again hnext' _ _ hafter =>
          obtain ⟨rfl, rfl, rfl⟩ := Next.directive.inj (hnext.symm.trans hnext')
          exact ih hafter
      | _ => simp_all
  | missing hnext hstack hmet htokens => cases h' <;> simp_all
  | broken hnext hstack hmet htokens _ ih =>
      cases h' with
      | broken hnext' _ _ htokens' hlibrary =>
          obtain ⟨rfl, rfl, rfl⟩ := Next.directive.inj (hnext.symm.trans hnext')
          obtain rfl := Except.ok.inj (htokens.symm.trans htokens')
          exact ih hlibrary
      | enter hnext' _ _ htokens' hlibrary _ =>
          obtain ⟨rfl, rfl, rfl⟩ := Next.directive.inj (hnext.symm.trans hnext')
          obtain rfl := Except.ok.inj (htokens.symm.trans htokens')
          cases ih hlibrary
      | _ => simp_all
  | enter hnext hstack hmet htokens _ _ ihlibrary ihafter =>
      cases h' with
      | broken hnext' _ _ htokens' hlibrary =>
          obtain ⟨rfl, rfl, rfl⟩ := Next.directive.inj (hnext.symm.trans hnext')
          obtain rfl := Except.ok.inj (htokens.symm.trans htokens')
          cases ihlibrary hlibrary
      | enter hnext' _ _ htokens' hlibrary hafter =>
          obtain ⟨rfl, rfl, rfl⟩ := Next.directive.inj (hnext.symm.trans hnext')
          obtain rfl := Except.ok.inj (htokens.symm.trans htokens')
          cases ihlibrary hlibrary
          rw [ihafter hafter]
      | _ => simp_all

/-- A run forgets no library that was met. -/
theorem Run.subset {r : Outcome} (h : Run ls stack origin all included rest r)
    {out : List Token} {met : List String} (hr : r = .ok (out, met)) : included ⊆ met := by
  induction h generalizing out met with
  | done =>
      cases hr
      exact List.Subset.refl _
  | own _ _ ih =>
      obtain ⟨inner, hinner, hout⟩ := prepend_eq_ok_iff.mp hr
      cases hout
      exact ih hinner
  | again _ _ _ _ ih => exact ih hr
  | enter _ _ _ _ _ _ ihlibrary ihafter =>
      obtain ⟨inner, hinner, hout⟩ := prepend_eq_ok_iff.mp hr
      cases hout
      exact List.Subset.trans (List.subset_cons_self _ _)
        (List.Subset.trans (ihlibrary rfl) (ihafter hinner))
  | _ => cases hr

/-- How many libraries were not met. -/
def remaining (ls : Libraries) (met : List String) : Nat :=
  (ls.sources.filter fun s => s.1 ∉ met).length

/-- The more libraries are included, the fewer remain, which bounds the depth of inclusion. -/
theorem remaining_le_of_subset {met met' : List String} (h : met ⊆ met') :
    ls.remaining met' ≤ ls.remaining met := by
  apply List.Sublist.length_le
  apply List.monotone_filter_right
  intro s hs
  simp only [decide_eq_true_eq] at hs ⊢
  exact fun hmem => hs (h hmem)

/-- A library that can be read is one of the sources. -/
theorem mem_sources_of_tokens {name : String} {span : Span} {position : Position}
    {library : List Token} (h : ls.tokens name span position = .ok library) :
    ∃ source, (name, source) ∈ ls.sources := by
  rw [tokens, source?] at h
  cases hlookup : ls.sources.lookup name with
  | none => simp [hlookup] at h
  | some source =>
      obtain ⟨before, after, hsplit, _⟩ := List.lookup_eq_some_iff.mp hlookup
      exact ⟨source, hsplit ▸ by simp⟩

/-- A library that is entered is one of those that were left. -/
theorem remaining_cons_lt {met : List String} {name source : String}
    (hsource : (name, source) ∈ ls.sources) (hmet : name ∉ met) :
    ls.remaining (name :: met) < ls.remaining met := by
  have hsplit : (ls.sources.filter fun s => s.1 ∉ name :: met) =
      (ls.sources.filter fun s => s.1 ∉ met).filter fun s => s.1 ≠ name := by
    rw [List.filter_filter]
    refine List.filter_congr fun s _ => ?_
    simp [not_or]
  rw [remaining, hsplit, remaining]
  apply List.length_filter_lt_length_iff_exists.mpr
  exact ⟨(name, source), List.mem_filter.mpr ⟨hsource, by simpa using hmet⟩, by simp⟩

section Expand

variable {enter : String → Origin → List String → List Token → Outcome} {fuel : Nat}

/-- One unit of fuel expands one token or directive. -/
theorem expand_succ :
    expand ls stack origin all enter (fuel + 1) included rest =
      match next origin all rest with
      | .done => .ok ([], included)
      | .own t after =>
        prepend [placeToken origin t] (expand ls stack origin all enter fuel included after)
      | .directive name place after =>
        if name ∈ stack then .error ⟨.libraryCycle name, place.1, place.2⟩
        else if name ∈ included then expand ls stack origin all enter fuel included after
        else (do
          let library ← ls.tokens name place.1 place.2
          let (inner, between) ← enter name (some place) (name :: included) library
          prepend inner (expand ls stack origin all enter fuel between after))
      | .malformed e => .error e := by
  cases rest with
  | nil => rfl
  | cons t rest =>
      rw [expand, next]
      split
      · cases directivePath all rest with
        | error e => rfl
        | ok path => rfl
      · rfl

/-- Expanding runs as long as the libraries that were met leave no more than a bound, under
which the libraries are entered. -/
theorem run_expand {bound : Nat}
    (henter : ∀ name place met library, ls.remaining met ≤ bound → name ∉ met →
      ls.tokens name place.1 place.2 = .ok library →
      Run ls (name :: stack) (some place) library (name :: met) library
        (enter name (some place) (name :: met) library))
    (hbound : ls.remaining included ≤ bound) (hfuel : rest.length ≤ fuel) :
    Run ls stack origin all included rest
      (expand ls stack origin all enter fuel included rest) := by
  induction fuel generalizing included rest with
  | zero =>
      obtain rfl := List.eq_nil_of_length_eq_zero (Nat.le_zero.mp hfuel)
      exact .done rfl
  | succ fuel ih =>
      rw [expand_succ]
      cases hnext : next origin all rest with
      | done => exact .done hnext
      | own t after =>
          have hlt := length_lt_of_next_own hnext
          exact .own hnext (ih hbound (by omega))
      | malformed e => exact .malformed hnext
      | directive name place after =>
          have hlt := length_lt_of_next_directive hnext
          have hafter : after.length ≤ fuel := by omega
          dsimp only
          split
          · exact .cycle hnext ‹_›
          · rename_i hstack
            split
            · exact .again hnext hstack ‹_› (ih hbound hafter)
            · rename_i hmet
              cases htokens : ls.tokens name place.1 place.2 with
              | error e => exact .missing hnext hstack hmet htokens
              | ok library =>
                  have hlibrary := henter name place included library hbound hmet htokens
                  rw [Except.ok_bind]
                  cases hrun : enter name (some place) (name :: included) library with
                  | error e => exact .broken hnext hstack hmet htokens (hrun ▸ hlibrary)
                  | ok out =>
                      rw [hrun] at hlibrary
                      apply Run.enter hnext hstack hmet htokens hlibrary
                      apply ih _ hafter
                      calc ls.remaining out.2 ≤ ls.remaining (name :: included) :=
                            remaining_le_of_subset (hlibrary.subset rfl)
                        _ ≤ ls.remaining included :=
                            remaining_le_of_subset (List.subset_cons_self _ _)
                        _ ≤ bound := hbound

end Expand

/-- Expanding runs to its end if its depth is no less than the number of libraries left. -/
theorem run_expandAll {depth : Nat} (hdepth : ls.remaining included ≤ depth) :
    Run ls stack origin all included all (expandAll ls depth stack origin included all) := by
  induction depth generalizing stack origin all included with
  | zero =>
      apply run_expand _ hdepth (Nat.le_refl _)
      intro name place met library hnone hmet htokens
      -- no library is left to be entered
      obtain ⟨source, hsource⟩ := mem_sources_of_tokens htokens
      have hlt := remaining_cons_lt hsource hmet
      omega
  | succ depth ih =>
      apply run_expand _ hdepth (Nat.le_refl _)
      intro name place met library hbound hmet htokens
      obtain ⟨source, hsource⟩ := mem_sources_of_tokens htokens
      have hlt := remaining_cons_lt hsource hmet
      apply ih
      omega

/-- Splicing has one run, whatever the text and the libraries are, and computes its outcome. -/
theorem run_iff (ls : Libraries) (tokens : List Token) (r : Outcome) :
    Run ls [] none tokens [] tokens r ↔
      r = ls.expandAll ls.sources.length [] none [] tokens := by
  have hrun : Run ls [] none tokens [] tokens
      (ls.expandAll ls.sources.length [] none [] tokens) :=
    run_expandAll (List.length_filter_le _ _)
  constructor
  · exact fun h => h.unique hrun
  · rintro rfl
    exact hrun

end Libraries

end Shading
