import Shading.Proofs.Parse.Inclusion

/-!
# Splicing is the once-only expansion

The walk over the pieces of a text either closes a cycle of directives or is the depth-first
expansion of the text. A library that is left includes only libraries that were left before
it, so that none of them can come back to it.
-/

namespace Shading

namespace Libraries

open Relation

/-- The depth-first expansion of pieces, from left to right, with the libraries met before and
after: a library is put in place of the first directive for it, and later ones are removed. -/
inductive Expansion (ls : Libraries) :
    List String → List Piece → List Kind → List String → Prop where
  | nil (met) : Expansion ls met [] [] met
  | own {met k hk ps out met'} (h : Expansion ls met ps out met') :
      Expansion ls met (.own k hk :: ps) (k :: out) met'
  | again {met p ps name out met'} (hname : p.library? = some name) (hmet : name ∈ met)
      (h : Expansion ls met ps out met') : Expansion ls met (p :: ps) out met'
  | first {met p ps name qs inner between out met'} (hname : p.library? = some name)
      (hmet : name ∉ met) (hholds : ls.Holds name qs)
      (hlibrary : Expansion ls (name :: met) qs inner between)
      (h : Expansion ls between ps out met') : Expansion ls met (p :: ps) (inner ++ out) met'

/-- A run on pieces: the libraries that are being expanded, the libraries met so far, and
either the library that was found to include itself or the tokens and the libraries met. -/
inductive Walk (ls : Libraries) : List String → List String → List Piece →
    Except String (List Kind × List String) → Prop where
  | nil (stack met) : Walk ls stack met [] (.ok ([], met))
  | own {stack met k hk ps w} (h : Walk ls stack met ps w) :
      Walk ls stack met (.own k hk :: ps) (prepend [k] w)
  | cycle {stack met p ps name} (hname : p.library? = some name) (hstack : name ∈ stack) :
      Walk ls stack met (p :: ps) (.error name)
  | again {stack met p ps name w} (hname : p.library? = some name) (hstack : name ∉ stack)
      (hmet : name ∈ met) (h : Walk ls stack met ps w) : Walk ls stack met (p :: ps) w
  | broken {stack met p ps name qs n} (hname : p.library? = some name) (hmet : name ∉ met)
      (hholds : ls.Holds name qs) (hlibrary : Walk ls (name :: stack) (name :: met) qs (.error n)) :
      Walk ls stack met (p :: ps) (.error n)
  | enter {stack met p ps name qs inner between w} (hname : p.library? = some name)
      (hmet : name ∉ met) (hholds : ls.Holds name qs)
      (hlibrary : Walk ls (name :: stack) (name :: met) qs (.ok (inner, between)))
      (h : Walk ls stack between ps w) : Walk ls stack met (p :: ps) (prepend inner w)

/-- The outcome of a run and that of the walk over its pieces. -/
def Matches : Outcome → Except String (List Kind × List String) → Prop
  | .ok out, .ok w => (out.1.map Token.kind, out.2) = w
  | .error e, .error n => e.fault = .libraryCycle n
  | _, _ => False

variable {ls : Libraries} {stack met met' : List String} {p : Piece} {ps qs : List Piece}
  {name n : String} {out : List Kind}

section Pieces

@[simp] theorem named_own (k : Kind) (hk : k ≠ .keyword .include) :
    named (.own k hk :: ps) = named ps := rfl

theorem named_cons (hname : p.library? = some name) : named (p :: ps) = name :: named ps :=
  List.filterMap_cons_some hname

/-- A directive leaves nothing of its own. -/
theorem ownKinds_cons (hname : p.library? = some name) : ownKinds (p :: ps) = ownKinds ps := by
  cases p with
  | own k hk => cases hname
  | directive part parts => rfl

theorem named_subset_cons : named ps ⊆ named (p :: ps) := by
  cases p with
  | own k hk => exact List.Subset.refl _
  | directive part parts => exact List.subset_cons_self _ _

theorem Reached.cons (h : ls.Reached ps n) : ls.Reached (p :: ps) n := by
  obtain ⟨a, ha, hpath⟩ := h
  exact ⟨a, named_subset_cons ha, hpath⟩

/-- A directive reaches the library it names. -/
theorem reached_head (hname : p.library? = some name) : ls.Reached (p :: ps) name := by
  refine ⟨name, ?_, .refl⟩
  rw [named_cons hname]
  exact List.mem_cons_self

/-- A directive reaches what its library does. -/
theorem Reached.of_library (hname : p.library? = some name) (hholds : ls.Holds name qs)
    (h : ls.Reached qs n) : ls.Reached (p :: ps) n := by
  obtain ⟨a, ha, hpath⟩ := h
  refine ⟨name, ?_, .head ⟨qs, hholds, ha⟩ hpath⟩
  rw [named_cons hname]
  exact List.mem_cons_self

end Pieces

section Simulation

/-- Own tokens come before what the rest gives, on both sides. -/
theorem matches_prepend {r : Outcome} {w : Except String (List Kind × List String)}
    (front : List Token) (h : Matches r w) :
    Matches (prepend front r) (prepend (front.map Token.kind) w) := by
  cases r with
  | error e =>
      cases w with
      | error n => exact h
      | ok w => exact h.elim
  | ok out =>
      cases w with
      | error n => exact h.elim
      | ok w =>
          obtain rfl : (out.1.map Token.kind, out.2) = w := h
          simp [Matches]

/-- A run over a text is a walk over its pieces, if every library that is reached has some. -/
theorem Run.walk {origin : Origin} {all rest : List Token} {r : Outcome}
    (h : Run ls stack origin all met rest r) (hrow : rest.map Token.kind = row ps)
    (hholds : ∀ n, ls.Reached ps n → ∃ qs, ls.Holds n qs) :
    ∃ w, Walk ls stack met ps w ∧ Matches r w := by
  induction h generalizing ps with
  | done hnext =>
      obtain rfl := eq_nil_of_next_done hnext
      obtain rfl : ps = [] := row_injective hrow.symm
      exact ⟨_, .nil _ _, rfl⟩
  | @own stack origin all met rest t after r hnext _ ih =>
      obtain ⟨hkind, qs, rfl, hafter⟩ := pieces_of_next_own hnext hrow
      obtain ⟨w, hwalk, hmatch⟩ := ih hafter fun n hn => hholds n hn.cons
      refine ⟨prepend [t.kind] w, .own hwalk, ?_⟩
      have hfront := matches_prepend [placeToken origin t] hmatch
      rwa [List.map_singleton, kind_placeToken] at hfront
  | malformed hnext => exact absurd hnext (next_ne_malformed hrow)
  | cycle hnext hstack =>
      obtain ⟨p, qs, rfl, hname, _⟩ := pieces_of_next_directive hnext hrow
      exact ⟨_, .cycle hname hstack, rfl⟩
  | again hnext hstack hmet _ ih =>
      obtain ⟨p, qs, rfl, hname, hafter⟩ := pieces_of_next_directive hnext hrow
      obtain ⟨w, hwalk, hmatch⟩ := ih hafter fun n hn => hholds n hn.cons
      exact ⟨w, .again hname hstack hmet hwalk, hmatch⟩
  | missing hnext _ _ htokens =>
      obtain ⟨p, qs, rfl, hname, _⟩ := pieces_of_next_directive hnext hrow
      obtain ⟨inner, hinner⟩ := hholds _ (reached_head hname)
      obtain ⟨library, hok, _⟩ := hinner.tokens _ _
      cases htokens.symm.trans hok
  | broken hnext _ hmet htokens _ ih =>
      obtain ⟨p, qs, rfl, hname, _⟩ := pieces_of_next_directive hnext hrow
      obtain ⟨inner, hinner⟩ := hholds _ (reached_head hname)
      obtain ⟨library, hok, hlibrary⟩ := hinner.tokens _ _
      cases htokens.symm.trans hok
      obtain ⟨w, hwalk, hmatch⟩ := ih hlibrary fun n hn => hholds n (hn.of_library hname hinner)
      cases w with
      | ok w => exact hmatch.elim
      | error n => exact ⟨_, .broken hname hmet hinner hwalk, hmatch⟩
  | enter hnext _ hmet htokens _ _ ihlibrary ihafter =>
      obtain ⟨p, qs, rfl, hname, hafter⟩ := pieces_of_next_directive hnext hrow
      obtain ⟨inner, hinner⟩ := hholds _ (reached_head hname)
      obtain ⟨library, hok, hlibrary⟩ := hinner.tokens _ _
      cases htokens.symm.trans hok
      obtain ⟨v, hbefore, hmatch⟩ :=
        ihlibrary hlibrary fun n hn => hholds n (hn.of_library hname hinner)
      cases v with
      | error n => exact hmatch.elim
      | ok v =>
          cases hmatch
          obtain ⟨w, hwalk, hmatch⟩ := ihafter hafter fun n hn => hholds n hn.cons
          exact ⟨_, .enter hname hmet hinner hbefore hwalk, matches_prepend _ hmatch⟩

end Simulation

section Cycles

/-- A walk that fails has come to a library that includes itself, if the libraries that are
being expanded lead to the text. -/
theorem Walk.cycle_of_error {w : Except String (List Kind × List String)}
    (h : Walk ls stack met ps w) (hw : w = .error n)
    (hopen : ∀ m ∈ stack, ∀ a ∈ named ps, TransGen ls.Includes m a) :
    ls.Reached ps n ∧ TransGen ls.Includes n n := by
  induction h with
  | nil => cases hw
  | own _ ih =>
      obtain ⟨hreached, hcycle⟩ := ih (prepend_eq_error_iff.mp hw) hopen
      exact ⟨hreached.cons, hcycle⟩
  | cycle hname hstack =>
      cases hw
      exact ⟨reached_head hname, hopen _ hstack _ (named_cons hname ▸ List.mem_cons_self)⟩
  | again _ _ _ _ ih =>
      obtain ⟨hreached, hcycle⟩ := ih hw fun m hm a ha => hopen m hm a (named_subset_cons ha)
      exact ⟨hreached.cons, hcycle⟩
  | @broken stack met p ps name qs n hname _ hholds _ ih =>
      cases hw
      have hinner : ∀ m ∈ name :: stack, ∀ a ∈ named qs, TransGen ls.Includes m a := by
        intro m hm a ha
        have hlast : ls.Includes name a := ⟨qs, hholds, ha⟩
        rcases List.mem_cons.mp hm with rfl | hm
        · exact .single hlast
        · exact (hopen m hm name (named_cons hname ▸ List.mem_cons_self)).tail hlast
      obtain ⟨hreached, hcycle⟩ := ih rfl hinner
      exact ⟨hreached.of_library hname hholds, hcycle⟩
  | enter _ _ _ _ _ _ ih =>
      obtain ⟨hreached, hcycle⟩ := ih (prepend_eq_error_iff.mp hw) fun m hm a ha =>
        hopen m hm a (named_subset_cons ha)
      exact ⟨hreached.cons, hcycle⟩

/-- A library that was met and left includes only such libraries and does not come back to
itself. -/
structure Finished (ls : Libraries) (stack met : List String) : Prop where
  closed : ∀ n ∈ met, n ∉ stack → ∀ m, ls.Includes n m → m ∈ met ∧ m ∉ stack
  acyclic : ∀ n ∈ met, n ∉ stack → ¬TransGen ls.Includes n n

/-- A path from a finished library stays among those that are finished. -/
theorem Finished.of_path (h : Finished ls stack met) {m : String} (hn : n ∈ met ∧ n ∉ stack)
    (hpath : ReflTransGen ls.Includes n m) : m ∈ met ∧ m ∉ stack := by
  induction hpath with
  | refl => exact hn
  | tail _ hlast ih => exact h.closed _ ih.1 ih.2 _ hlast

/-- A library that is entered for the first time leaves what was finished as it is. -/
theorem Finished.enter (h : Finished ls stack met) (hname : name ∉ met) :
    Finished ls (name :: stack) (name :: met) := by
  have hmem {m : String} (hm : m ∈ name :: met) (hstack : m ∉ name :: stack) :
      m ∈ met ∧ m ∉ stack := by
    rw [List.mem_cons, not_or] at hstack
    exact ⟨(List.mem_cons.mp hm).resolve_left hstack.1, hstack.2⟩
  constructor
  · intro n hn hstack m hincludes
    obtain ⟨hmet, hout⟩ := h.closed n (hmem hn hstack).1 (hmem hn hstack).2 m hincludes
    refine ⟨List.mem_cons_of_mem _ hmet, ?_⟩
    rw [List.mem_cons, not_or]
    exact ⟨fun heq => hname (heq ▸ hmet), hout⟩
  · intro n hn hstack
    exact h.acyclic n (hmem hn hstack).1 (hmem hn hstack).2

/-- A library is finished when it is left, since all that it includes is. -/
theorem Finished.leave (h : Finished ls (name :: stack) met) (hholds : ls.Holds name qs)
    (hqs : ∀ m ∈ named qs, m ∈ met ∧ m ∉ name :: stack) : Finished ls stack met := by
  have hincluded {m : String} (hincludes : ls.Includes name m) : m ∈ met ∧ m ∉ name :: stack := by
    obtain ⟨rs, hrs, hmem⟩ := hincludes
    exact hqs m (hholds.unique hrs ▸ hmem)
  constructor
  · intro n hn hstack m hincludes
    have hout : m ∈ met ∧ m ∉ name :: stack := by
      by_cases hname : n = name
      · exact hincluded (hname ▸ hincludes)
      · exact h.closed n hn (by simp [hname, hstack]) m hincludes
    exact ⟨hout.1, fun hmem => hout.2 (List.mem_cons_of_mem _ hmem)⟩
  · intro n hn hstack hcycle
    by_cases hname : n = name
    · subst hname
      -- a path from the library back to it would leave what was finished before it
      obtain ⟨m, hfirst, hback⟩ := TransGen.head'_iff.mp hcycle
      exact (h.of_path (hincluded hfirst) hback).2 List.mem_cons_self
    · exact h.acyclic n hn (by simp [hname, hstack]) hcycle

/-- What a walk meets is finished when it ends, but for the libraries that are still being
expanded. -/
theorem Walk.finished {w : Except String (List Kind × List String)} (h : Walk ls stack met ps w)
    (hw : w = .ok (out, met')) (hstack : stack ⊆ met) (hfinished : Finished ls stack met) :
    met ⊆ met' ∧ Finished ls stack met' ∧ ∀ n ∈ named ps, n ∈ met' ∧ n ∉ stack := by
  induction h generalizing out met' with
  | nil =>
      cases hw
      exact ⟨List.Subset.refl _, hfinished, by simp [named]⟩
  | own _ ih =>
      obtain ⟨inner, rfl, heq⟩ := prepend_eq_ok_iff.mp hw
      cases heq
      exact ih rfl hstack hfinished
  | again hname hout hmet _ ih =>
      obtain ⟨hsubset, hafter, hps⟩ := ih hw hstack hfinished
      refine ⟨hsubset, hafter, ?_⟩
      rw [named_cons hname]
      exact List.forall_mem_cons.mpr ⟨⟨hsubset hmet, hout⟩, hps⟩
  | enter hname hmet hholds _ _ ihlibrary ih =>
      obtain ⟨inner, rfl, heq⟩ := prepend_eq_ok_iff.mp hw
      cases heq
      obtain ⟨hbetween, hinner, hqs⟩ :=
        ihlibrary rfl (List.cons_subset_cons _ hstack) (hfinished.enter hmet)
      have hbefore := List.Subset.trans (List.subset_cons_self _ _) hbetween
      obtain ⟨hsubset, hafter, hps⟩ :=
        ih rfl (List.Subset.trans hstack hbefore) (hinner.leave hholds hqs)
      refine ⟨List.Subset.trans hbefore hsubset, hafter, ?_⟩
      rw [named_cons hname]
      exact List.forall_mem_cons.mpr
        ⟨⟨hsubset (hbetween List.mem_cons_self), fun hmem => hmet (hstack hmem)⟩, hps⟩
  | _ => cases hw

end Cycles

section Expansions

/-- A walk that succeeds is an expansion. -/
theorem Walk.expansion {w : Except String (List Kind × List String)} (h : Walk ls stack met ps w)
    (hw : w = .ok (out, met')) : Expansion ls met ps out met' := by
  induction h generalizing out met' with
  | nil =>
      cases hw
      exact .nil _
  | own _ ih =>
      obtain ⟨inner, rfl, heq⟩ := prepend_eq_ok_iff.mp hw
      cases heq
      exact .own (ih rfl)
  | again hname _ hmet _ ih => exact .again hname hmet (ih hw)
  | enter hname hmet hholds _ _ ihlibrary ih =>
      obtain ⟨inner, rfl, heq⟩ := prepend_eq_ok_iff.mp hw
      cases heq
      exact .first hname hmet hholds (ihlibrary rfl) (ih rfl)
  | _ => cases hw

/-- Pieces have one expansion. -/
theorem Expansion.unique (h : Expansion ls met ps out met') {out' : List Kind}
    {met'' : List String} (h' : Expansion ls met ps out' met'') : out = out' ∧ met' = met'' := by
  induction h generalizing out' met'' with
  | nil =>
      cases h'
      exact ⟨rfl, rfl⟩
  | own _ ih =>
      cases h' with
      | own h' =>
          obtain ⟨rfl, rfl⟩ := ih h'
          exact ⟨rfl, rfl⟩
      | again hname => cases hname
      | first hname => cases hname
  | again hname hmet _ ih =>
      cases h' with
      | own h' => cases hname
      | again _ _ h' => exact ih h'
      | first hname' hmet' =>
          cases hname.symm.trans hname'
          exact absurd hmet hmet'
  | first hname hmet hholds _ _ ihlibrary ih =>
      cases h' with
      | own h' => cases hname
      | again hname' hmet' =>
          cases hname.symm.trans hname'
          exact absurd hmet' hmet
      | first hname' _ hholds' hlibrary' h' =>
          cases hname.symm.trans hname'
          obtain rfl := hholds.unique hholds'
          obtain ⟨rfl, rfl⟩ := ihlibrary hlibrary'
          obtain ⟨rfl, rfl⟩ := ih h'
          exact ⟨rfl, rfl⟩

/-- No directive is left in an expansion. -/
theorem Expansion.noDirective (h : Expansion ls met ps out met') :
    ∀ k ∈ out, k ≠ .keyword .include := by
  induction h with
  | nil => simp
  | @own _ k hk _ _ _ _ ih => exact List.forall_mem_cons.mpr ⟨hk, ih⟩
  | again _ _ _ ih => exact ih
  | first _ _ _ _ _ ihlibrary ih =>
      intro k hk
      exact (List.mem_append.mp hk).elim (ihlibrary k) (ih k)

/-- No library is included twice. -/
theorem Expansion.nodup (h : Expansion ls met ps out met') (hmet : met.Nodup) : met'.Nodup := by
  induction h with
  | nil => exact hmet
  | own _ ih => exact ih hmet
  | again _ _ _ ih => exact ih hmet
  | first _ hnew _ _ _ ihlibrary ih => exact ih (ihlibrary (List.nodup_cons.mpr ⟨hnew, hmet⟩))

/-- An expansion meets libraries that are reached, and its tokens are the own ones of the
text and of these libraries. -/
theorem Expansion.exists_texts (h : Expansion ls met ps out met') :
    ∃ texts : List (String × List Piece), met' = texts.map Prod.fst ++ met ∧
      (∀ t ∈ texts, ls.Reached ps t.1 ∧ ls.Holds t.1 t.2) ∧
      out.Perm (ownKinds ps ++ texts.flatMap fun t => ownKinds t.2) := by
  induction h with
  | nil => exact ⟨[], rfl, by simp, by simp [ownKinds]⟩
  | own _ ih =>
      obtain ⟨texts, rfl, hreached, hperm⟩ := ih
      exact ⟨texts, rfl, fun t ht => (hreached t ht).imp Reached.cons id, hperm.cons _⟩
  | again hname _ _ ih =>
      obtain ⟨texts, rfl, hreached, hperm⟩ := ih
      refine ⟨texts, rfl, fun t ht => (hreached t ht).imp Reached.cons id, ?_⟩
      rwa [ownKinds_cons hname]
  | @first met p ps name qs inner between out met' hname _ hholds _ _ ihlibrary ih =>
      obtain ⟨below, rfl, hbelow, hinner⟩ := ihlibrary
      obtain ⟨texts, rfl, hreached, hperm⟩ := ih
      refine ⟨texts ++ below ++ [(name, qs)], by simp, ?_, ?_⟩
      · intro t ht
        simp only [List.mem_append, List.mem_singleton] at ht
        rcases ht with (ht | ht) | rfl
        · exact (hreached t ht).imp Reached.cons id
        · exact (hbelow t ht).imp (Reached.of_library hname hholds) id
        · exact ⟨reached_head hname, hholds⟩
      · rw [ownKinds_cons hname]
        have hswap : ((ownKinds qs ++ below.flatMap fun t => ownKinds t.2) ++
            (ownKinds ps ++ texts.flatMap fun t => ownKinds t.2)).Perm
            ((ownKinds ps ++ texts.flatMap fun t => ownKinds t.2) ++
              ((below.flatMap fun t => ownKinds t.2) ++ ownKinds qs)) :=
          List.perm_append_comm.trans (List.perm_append_comm.append_left _)
        simpa using (hinner.append hperm).trans hswap

end Expansions

/-- The tokens are the once-only expansion of the pieces. -/
structure Spliced (ls : Libraries) (ps : List Piece) (tokens : List Token) : Prop where
  /-- No directive is left. -/
  noDirective : ∀ t ∈ tokens, t.kind ≠ .keyword .include
  /-- Each library stands in place of the first directive for it. -/
  expansion : ∃ met, Expansion ls [] ps (tokens.map Token.kind) met
  /-- The own tokens of each library that is reached are there once. -/
  once : ∃ texts : List (String × List Piece), (texts.map Prod.fst).Nodup ∧
    (∀ n, n ∈ texts.map Prod.fst ↔ ls.Reached ps n) ∧ (∀ t ∈ texts, ls.Holds t.1 t.2) ∧
    (tokens.map Token.kind).Perm (ownKinds ps ++ texts.flatMap fun t => ownKinds t.2)

section Splicing

/-- A walk that does not fail is a once-only expansion, and no library that is reached
includes itself. -/
theorem Walk.spliced {tokens : List Token} {met : List String}
    (h : Walk ls [] [] ps (.ok (tokens.map Token.kind, met))) :
    Spliced ls ps tokens ∧ ¬∃ n, ls.Reached ps n ∧ TransGen ls.Includes n n := by
  obtain ⟨_, hfinished, hnamed⟩ := h.finished rfl (List.Subset.refl _) ⟨by simp, by simp⟩
  have hmet {n : String} (hn : ls.Reached ps n) : n ∈ met := by
    obtain ⟨a, ha, hpath⟩ := hn
    exact (hfinished.of_path (hnamed a ha) hpath).1
  have hexpansion : Expansion ls [] ps (tokens.map Token.kind) met := h.expansion rfl
  obtain ⟨texts, htexts, hreached, hperm⟩ := hexpansion.exists_texts
  rw [List.append_nil] at htexts
  constructor
  · refine ⟨fun t ht => hexpansion.noDirective _ (List.mem_map_of_mem ht), ⟨met, hexpansion⟩,
      texts, ?_, ?_, fun t ht => (hreached t ht).2, hperm⟩
    · exact htexts ▸ hexpansion.nodup List.nodup_nil
    · intro n
      constructor
      · intro hn
        obtain ⟨t, ht, rfl⟩ := List.mem_map.mp hn
        exact (hreached t ht).1
      · intro hn
        exact htexts ▸ hmet hn
  · rintro ⟨n, hn, hcycle⟩
    exact hfinished.acyclic n (hmet hn) List.not_mem_nil hcycle

/-- Splicing has one run, whatever the text and the libraries are. If the directives of the
text and of every library that is reached are well-formed, then splicing fails at a library
that includes itself if there is one, and else gives the once-only expansion. -/
theorem splice_expands (ls : Libraries) (tokens : List Token) :
    (∃ r, (∀ r', Run ls [] none tokens [] tokens r' ↔ r' = r) ∧
      ls.splice tokens = Prod.fst <$> r) ∧
    ∀ ps, tokens.map Token.kind = row ps → (∀ n, ls.Reached ps n → ∃ qs, ls.Holds n qs) →
      ((∃ e n, ls.splice tokens = .error e ∧ e.fault = .libraryCycle n) ↔
        ∃ n, ls.Reached ps n ∧ TransGen ls.Includes n n) ∧
      ((¬∃ n, ls.Reached ps n ∧ TransGen ls.Includes n n) →
        ∃ out, ls.splice tokens = .ok out ∧ Spliced ls ps out) := by
  have hsplice : ls.splice tokens =
      Prod.fst <$> ls.expandAll ls.sources.length [] none [] tokens := by
    rw [splice]
    cases ls.expandAll ls.sources.length [] none [] tokens <;> rfl
  refine ⟨⟨_, run_iff ls tokens, hsplice⟩, fun ps hrow hholds => ?_⟩
  rw [hsplice]
  obtain ⟨w, hwalk, hmatch⟩ := ((run_iff ls tokens _).mpr rfl).walk hrow hholds
  cases hr : ls.expandAll ls.sources.length [] none [] tokens with
  | error e =>
      rw [hr] at hmatch
      cases w with
      | ok w => exact hmatch.elim
      | error n =>
          obtain ⟨hreached, hcycle⟩ := hwalk.cycle_of_error rfl (by simp)
          constructor
          · constructor
            · exact fun _ => ⟨n, hreached, hcycle⟩
            · exact fun _ => ⟨e, n, rfl, hmatch⟩
          · exact fun hnone => absurd ⟨n, hreached, hcycle⟩ hnone
  | ok out =>
      rw [hr] at hmatch
      cases w with
      | error n => exact hmatch.elim
      | ok w =>
          cases hmatch
          obtain ⟨hspliced, hnone⟩ := hwalk.spliced
          constructor
          · constructor
            · rintro ⟨e, n, herror, _⟩
              cases herror
            · exact fun hcycle => absurd hcycle hnone
          · exact fun _ => ⟨out.1, rfl, hspliced⟩

end Splicing

/-- Two libraries that both include a third. -/
def diamond : Libraries :=
  ⟨[("a", "include c;"), ("b", "include c; int"), ("c", "float")]⟩

/-- `include a; include b;` -/
def diamondTokens : List Token :=
  [.keyword .include, .ident "a", .symbol .semicolon, .keyword .include, .ident "b",
    .symbol .semicolon, .eof].map fun k => ⟨k, Span.dummy, Position.nowhere⟩

/-- Directives for two libraries that may include a third one, and the end of the file. -/
def diamondPieces : List Piece :=
  [.directive "a" [], .directive "b" [], .own .eof (by decide)]

/-- The third library comes in place of the directive of the first one and not again. -/
theorem diamond_expands :
    ∃ out, diamond.splice diamondTokens = .ok out ∧
      out.map Token.kind = [.ident "float", .ident "int", .eof] ∧
      Spliced diamond diamondPieces out := by
  have hlibrary : ∀ n ∈ ["a", "b", "c"], ∃ qs, diamond.Holds n qs ∧ named qs ⊆ ["c"] := by
    have ha : diamond.Holds "a" [.directive "c" []] := ⟨_, _, rfl, rfl, rfl⟩
    have hb : diamond.Holds "b" [.directive "c" [], .own (.ident "int") (by decide)] :=
      ⟨_, _, rfl, rfl, rfl⟩
    have hc : diamond.Holds "c" [.own (.ident "float") (by decide)] := ⟨_, _, rfl, rfl, rfl⟩
    simp only [List.forall_mem_cons, List.not_mem_nil, false_imp_iff, implies_true, and_true]
    exact ⟨⟨_, ha, by decide⟩, ⟨_, hb, by decide⟩, ⟨_, hc, by decide⟩⟩
  have hholds : ∀ n, diamond.Reached diamondPieces n → ∃ qs, diamond.Holds n qs := by
    rintro n ⟨a, ha, hpath⟩
    have hmem : n ∈ ["a", "b", "c"] := by
      induction hpath with
      | refl =>
          have hsubset : named diamondPieces ⊆ ["a", "b", "c"] := by decide
          exact hsubset ha
      | tail _ hlast ih =>
          obtain ⟨qs, hqs, hnamed⟩ := hlibrary _ ih
          obtain ⟨rs, hrs, hin⟩ := hlast
          rw [hrs.unique hqs] at hin
          obtain rfl := List.mem_singleton.mp (hnamed hin)
          decide
    obtain ⟨qs, hqs, _⟩ := hlibrary n hmem
    exact ⟨qs, hqs⟩
  obtain ⟨out, hout, hkinds⟩ : ∃ out, diamond.splice diamondTokens = .ok out ∧
      out.map Token.kind = [.ident "float", .ident "int", .eof] :=
    ⟨_, by with_unfolding_all rfl, rfl⟩
  obtain ⟨hcycle, hexpands⟩ := (splice_expands diamond diamondTokens).2 diamondPieces rfl hholds
  obtain ⟨out', hout', hspliced⟩ := hexpands fun hnone => by
    obtain ⟨e, n, herror, _⟩ := hcycle.mpr hnone
    cases hout.symm.trans herror
  cases hout.symm.trans hout'
  exact ⟨out, hout, hkinds, hspliced⟩

end Libraries

end Shading
