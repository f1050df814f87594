import Shading.Proofs.Parse.Splicing

/-!
# Where the text of a library is placed

The text of a library is expanded as that of a file of its own would be, and then all of it is
put at one directive of the file that is read: its tokens, the tokens of what it includes, and
the error if there is one. Only the tokens that the file has outside its directives keep their
places.
-/

namespace Shading

namespace Libraries

section Placing

/-- What an outcome comes to at a place. -/
def placeOutcome (place : Span × Position) : Outcome → Outcome
  | .ok out => .ok (out.1.map (placeToken (some place)), out.2)
  | .error e => .error (e.relocate place.1 place.2)

/-- What comes next, at a place. -/
def Next.at (place : Span × Position) : Next → Next
  | .done => .done
  | .own t after => .own t after
  | .directive name _ after => .directive name place after
  | .malformed e => .malformed (e.relocate place.1 place.2)

variable (place : Span × Position) {origin : Origin}

/-- Placing tokens works on each part of what they are put before. -/
theorem placeOutcome_prepend (front : List Token) (r : Outcome) :
    placeOutcome place (prepend front r) =
      prepend (front.map (placeToken (some place))) (placeOutcome place r) := by
  cases r with
  | error e => rfl
  | ok out => simp [placeOutcome]

/-- The last place counts. -/
theorem placeToken_placeToken (t : Token) :
    placeToken (some place) (placeToken origin t) = placeToken (some place) t := by
  cases origin <;> rfl

theorem relocate_placeError (e : ParseError) :
    (placeError origin e).relocate place.1 place.2 = e.relocate place.1 place.2 := by
  cases origin <;> rfl

theorem next_some (all rest : List Token) :
    next (some place) all rest = (next origin all rest).at place := by
  cases rest with
  | nil => rfl
  | cons t rest =>
      rw [next, next]
      split
      · cases directivePath all rest with
        | ok path => rfl
        | error e => exact congrArg Next.malformed (relocate_placeError place e).symm
      · rfl

/-- A library is read where there is a source for it that the lexer accepts. -/
theorem tokens_eq_ok_iff (ls : Libraries) {name : String} {library : List Token} :
    ls.tokens name place.1 place.2 = .ok library ↔
      ∃ source ts, ls.source? name = some source ∧ tokenize source = .ok ts ∧
        library = withoutEof ts := by
  rw [tokens]
  cases ls.source? name with
  | none => simp
  | some source =>
      cases htokens : tokenize source with
      | ok ts => simp [htokens, eq_comm]
      | error e => simp [htokens]

/-- Why a library has no tokens, put anywhere. -/
theorem tokens_eq_error {ls : Libraries} {name : String} {e : ParseError}
    {other : Span × Position} (h : ls.tokens name other.1 other.2 = .error e) :
    ls.tokens name place.1 place.2 = .error (e.relocate place.1 place.2) := by
  rw [tokens] at h ⊢
  split at h
  · cases h
    rfl
  · split at h
    · cases h
    · cases h
      rfl

end Placing

variable {ls : Libraries} {stack : List String} {origin : Origin} {all : List Token}
  {included : List String} {rest : List Token} {r : Outcome}

/-- At a place a text runs as it does anywhere, and its outcome is put there. -/
theorem Run.placed (h : Run ls stack origin all included rest r) (place : Span × Position) :
    Run ls stack (some place) all included rest (placeOutcome place r) := by
  have hplaced {origin : Origin} {all rest : List Token} {n : Next}
      (hnext : next origin all rest = n) : next (some place) all rest = n.at place :=
    (next_some place all rest).trans (congrArg _ hnext)
  induction h with
  | done hnext => exact .done (hplaced hnext)
  | own hnext _ ih =>
      rw [placeOutcome_prepend, List.map_singleton, placeToken_placeToken]
      exact .own (hplaced hnext) ih
  | malformed hnext => exact .malformed (hplaced hnext)
  | cycle hnext hstack => exact .cycle (hplaced hnext) hstack
  | again hnext hstack hmet _ ih => exact .again (hplaced hnext) hstack hmet ih
  | missing hnext hstack hmet htokens =>
      exact .missing (hplaced hnext) hstack hmet (tokens_eq_error place htokens)
  | broken hnext hstack hmet htokens _ ih =>
      have hlibrary := (tokens_eq_ok_iff place ls).mpr ((tokens_eq_ok_iff _ ls).mp htokens)
      exact .broken (hplaced hnext) hstack hmet hlibrary ih
  | enter hnext hstack hmet htokens _ _ ihlibrary ihafter =>
      have hlibrary := (tokens_eq_ok_iff place ls).mpr ((tokens_eq_ok_iff _ ls).mp htokens)
      rw [placeOutcome_prepend]
      exact .enter (hplaced hnext) hstack hmet hlibrary ihlibrary ihafter

theorem exists_run (ls : Libraries) (stack : List String) (origin : Origin)
    (included : List String) (all : List Token) :
    ∃ r, Run ls stack origin all included all r :=
  ⟨_, run_expandAll (Nat.le_refl (ls.remaining included))⟩

/-- A library that is included at a directive comes to what it comes to in a file of its own,
put at the directive. -/
theorem Run.of_placed {place : Span × Position}
    (h : Run ls stack (some place) all included all r) :
    ∃ alone, Run ls stack none all included all alone ∧ r = placeOutcome place alone := by
  obtain ⟨alone, halone⟩ := exists_run ls stack none included all
  exact ⟨alone, halone, h.unique (halone.placed place)⟩

/-- A directive for a library as it stands in a text. -/
structure Directive where
  keyword : Token
  path : List Token
  semicolon : Token

namespace Directive

/-- The tokens of the directive. -/
def text (d : Directive) : List Token := d.keyword :: (d.path ++ [d.semicolon])

/-- From the keyword to the semicolon. -/
def span (d : Directive) : Span := d.keyword.span.merge d.semicolon.span

/-- A directive stands where its keyword does. -/
def position (d : Directive) : Position := d.keyword.position

/-- The directive is well-formed and this is the library it names. -/
def Names (d : Directive) (name : String) : Prop :=
  d.keyword.kind = .keyword .include ∧ d.semicolon.kind = .symbol .semicolon ∧
    ∃ parts, parts ≠ [] ∧ d.path.map Token.kind = dottedKinds parts ∧ name = dotted parts

end Directive

/-- What a library that is met for the first time comes to, as a file of its own and with the
libraries that were met before. -/
inductive Alone (ls : Libraries) (name : String) (met : List String) : Outcome → Prop where
  | unknown (span : Span) (position : Position) (hsource : ls.source? name = none) :
      Alone ls name met (.error ⟨.unresolvedLibrary name, span, position⟩)
  | unreadable {source : String} {e : LexError} (hsource : ls.source? name = some source)
      (htokens : tokenize source = .error e) : Alone ls name met (.error (.ofLexical e))
  | run {source : String} {ts : List Token} {r : Outcome}
      (hsource : ls.source? name = some source) (htokens : tokenize source = .ok ts)
      (hrun : Run ls [name] none (withoutEof ts) (name :: met) (withoutEof ts) r) :
      Alone ls name met r

/-- The stretches that a file is expanded in: a token outside the directives, or a directive
with the tokens that take its place. -/
inductive Stretch where
  | own (t : Token)
  | directive (d : Directive) (out : List Token)

namespace Stretch

/-- The tokens of the file. -/
def text : Stretch → List Token
  | own t => [t]
  | directive d _ => d.text

/-- The tokens of the expansion. -/
def out : Stretch → List Token
  | own t => [t]
  | directive _ out => out

end Stretch

/-- The stretches of a text, one after the other, with the libraries met before and after. A
library that was met before comes to nothing, one that was not to all that it comes to in a
file of its own. -/
inductive Row (ls : Libraries) : List String → List Stretch → List String → Prop where
  | nil {met : List String} : Row ls met [] met
  | own {met met' : List String} {t : Token} {row : List Stretch}
      (hkind : t.kind ≠ .keyword .include) (hrow : Row ls met row met') :
      Row ls met (.own t :: row) met'
  | again {met met' : List String} {d : Directive} {name : String} {row : List Stretch}
      (hname : d.Names name) (hmet : name ∈ met) (hrow : Row ls met row met') :
      Row ls met (.directive d [] :: row) met'
  | entered {met between met' : List String} {d : Directive} {name : String}
      {inner : List Token} {row : List Stretch} (hname : d.Names name) (hmet : name ∉ met)
      (hinner : Alone ls name met (.ok (inner, between))) (hrow : Row ls between row met') :
      Row ls met (.directive d (inner.map (placeToken (some (d.span, d.position)))) :: row) met'

/-- The first thing in a text that cannot be expanded, and the error: a directive of the text
itself that is not well-formed, or the library of a directive. -/
inductive Fault (ls : Libraries) (all : List Token) (met : List String) :
    List Token → ParseError → Prop where
  | malformed {keyword : Token} {rest : List Token} {e : ParseError}
      (hkeyword : keyword.kind = .keyword .include)
      (hpath : directivePath all rest = .error e) : Fault ls all met (keyword :: rest) e
  | library {d : Directive} {name : String} {after : List Token} {inner e : ParseError}
      (hname : d.Names name) (hmet : name ∉ met) (hinner : Alone ls name met (.error inner))
      (hfault : e.fault = inner.fault) (hspan : e.span = d.span)
      (hposition : e.position = d.position) : Fault ls all met (d.text ++ after) e

/-- A well-formed directive of the file is followed by the rest of the file. -/
theorem next_eq_directive {name : String} {place : Span × Position} {after : List Token}
    (h : next none all rest = .directive name place after) :
    ∃ d : Directive, d.Names name ∧ place = (d.span, d.position) ∧ rest = d.text ++ after := by
  cases rest with
  | nil => cases h
  | cons t rest =>
      rw [next] at h
      split at h
      · rename_i hkeyword
        split at h
        · rename_i parts semicolon after' hpath
          cases h
          obtain ⟨hne, hsemicolon, path, hkinds, rfl⟩ := directivePath_eq_ok_iff.mp hpath
          exact ⟨⟨t, path, semicolon⟩, ⟨hkeyword, hsemicolon, parts, hne, hkinds, rfl⟩, rfl,
            by simp [Directive.text]⟩
        · cases h
      · cases h

/-- A directive is malformed by its path only. -/
theorem next_eq_malformed {e : ParseError} (h : next none all rest = .malformed e) :
    ∃ keyword more, keyword.kind = .keyword .include ∧ directivePath all more = .error e ∧
      rest = keyword :: more := by
  cases rest with
  | nil => cases h
  | cons t rest =>
      rw [next] at h
      split at h
      · rename_i hkeyword
        split at h
        · cases h
        · rename_i hpath
          cases h
          exact ⟨t, rest, hkeyword, hpath, rfl⟩
      · cases h

theorem rest_eq_nil_of_next (h : next origin all rest = .done) : rest = [] := by
  cases rest with
  | nil => rfl
  | cons t rest =>
      rw [next] at h
      split at h
      · split at h <;> cases h
      · cases h

/-- What is left of a text falls into stretches, up to the first fault if there is one. -/
def Split (ls : Libraries) (all : List Token) (met : List String) (rest : List Token) :
    Outcome → Prop
  | .ok out => ∃ row, Row ls met row out.2 ∧
      rest = row.flatMap Stretch.text ∧ out.1 = row.flatMap Stretch.out
  | .error e => ∃ row met' after, Row ls met row met' ∧
      rest = row.flatMap Stretch.text ++ after ∧ Fault ls all met' after e

section Split

variable {met between : List String}

theorem Split.fault {e : ParseError} (h : Fault ls all met rest e) :
    Split ls all met rest (.error e) :=
  ⟨[], met, rest, .nil, rfl, h⟩

/-- A stretch in front of what is left. -/
theorem Split.prepend {s : Stretch} (h : Split ls all between rest r)
    (hs : ∀ row met', Row ls between row met' → Row ls met (s :: row) met') :
    Split ls all met (s.text ++ rest) (prepend s.out r) := by
  cases r with
  | ok out =>
      obtain ⟨row, hrow, htext, hout⟩ := h
      refine ⟨s :: row, hs row _ hrow, ?_, ?_⟩
      · rw [List.flatMap_cons, htext]
      · rw [List.flatMap_cons, ← hout]
  | error e =>
      obtain ⟨row, met', after, hrow, htext, hfault⟩ := h
      refine ⟨s :: row, met', after, hs row met' hrow, ?_, hfault⟩
      rw [List.flatMap_cons, htext, List.append_assoc]

end Split

/-- A library is spliced at a place as it is alone. -/
theorem alone_of_run {name : String} {place : Span × Position} {library : List Token}
    (htokens : ls.tokens name place.1 place.2 = .ok library)
    (hrun : Run ls [name] (some place) library (name :: included) library r) :
    ∃ alone, Alone ls name included alone ∧ r = placeOutcome place alone := by
  obtain ⟨source, ts, hsource, hts, rfl⟩ := (tokens_eq_ok_iff place ls).mp htokens
  obtain ⟨alone, halone, rfl⟩ := hrun.of_placed
  exact ⟨alone, .run hsource hts halone, rfl⟩

/-- A library that cannot be read fails at the directive as it does alone. -/
theorem alone_of_tokens {name : String} {place : Span × Position} {e : ParseError}
    (htokens : ls.tokens name place.1 place.2 = .error e) :
    ∃ inner, Alone ls name included (.error inner) ∧ e = inner.relocate place.1 place.2 := by
  rw [tokens] at htokens
  split at htokens
  · cases htokens
    exact ⟨_, .unknown place.1 place.2 ‹_›, rfl⟩
  · split at htokens
    · cases htokens
    · cases htokens
      exact ⟨_, .unreadable ‹_› ‹_›, rfl⟩

/-- A file that runs falls into stretches. The induction is on the run of the file itself: what
a library does is known from its run as a file of its own. -/
theorem Run.split (h : Run ls [] none all included rest r) : Split ls all included rest r := by
  generalize hstack : ([] : List String) = stack, horigin : (none : Origin) = origin at h
  induction h with
  | done hnext =>
      obtain rfl := rest_eq_nil_of_next hnext
      exact ⟨[], .nil, rfl, rfl⟩
  | own hnext _ ih =>
      subst hstack horigin
      obtain ⟨hkind, rfl⟩ := next_eq_own hnext
      exact Split.prepend (s := .own _) (ih rfl rfl) fun _ _ => .own hkind
  | malformed hnext =>
      subst horigin
      obtain ⟨keyword, more, hkeyword, hpath, rfl⟩ := next_eq_malformed hnext
      exact .fault (.malformed hkeyword hpath)
  | cycle _ hmem =>
      subst hstack
      cases hmem
  | again hnext _ hmet _ ih =>
      subst hstack horigin
      obtain ⟨d, hname, _, rfl⟩ := next_eq_directive hnext
      have hsplit := Split.prepend (s := .directive d []) (ih rfl rfl)
        fun _ _ => .again hname hmet
      rwa [Stretch.out, prepend_nil] at hsplit
  | missing hnext _ hmet htokens =>
      subst horigin
      obtain ⟨d, hname, rfl, rfl⟩ := next_eq_directive hnext
      obtain ⟨inner, hinner, rfl⟩ := alone_of_tokens htokens
      exact .fault (.library hname hmet hinner rfl rfl rfl)
  | broken hnext _ hmet htokens hlibrary =>
      subst hstack horigin
      obtain ⟨d, hname, rfl, rfl⟩ := next_eq_directive hnext
      obtain ⟨alone, halone, hr⟩ := alone_of_run htokens hlibrary
      cases alone with
      | ok out => cases hr
      | error inner =>
          cases hr
          exact .fault (.library hname hmet halone rfl rfl rfl)
  | enter hnext _ hmet htokens hlibrary _ _ ih =>
      subst hstack horigin
      obtain ⟨d, hname, rfl, rfl⟩ := next_eq_directive hnext
      obtain ⟨alone, halone, hr⟩ := alone_of_run htokens hlibrary
      cases alone with
      | error inner => cases hr
      | ok out =>
          cases hr
          exact Split.prepend (s := .directive d _) (ih rfl rfl)
            fun _ _ => .entered hname hmet halone

/-- What takes the place of a directive stands where the directive stands. -/
theorem Row.located {met met' : List String} {row : List Stretch} (h : Row ls met row met')
    {d : Directive} {out : List Token} (hd : .directive d out ∈ row) :
    ∀ t ∈ out, t.span = d.span ∧ t.position = d.position := by
  induction h with
  | nil => cases hd
  | own _ _ ih =>
      cases hd with
      | tail _ hd => exact ih hd
  | again _ _ _ ih =>
      cases hd with
      | head => simp
      | tail _ hd => exact ih hd
  | entered _ _ _ _ ih =>
      cases hd with
      | head =>
          rw [List.forall_mem_map]
          exact fun _ _ => ⟨rfl, rfl⟩
      | tail _ hd => exact ih hd

/-- In the tokens of a file with its libraries a token that stems from a library stands where
the directive of the file stands that pulled it in, however deep the library was included, and
a token of the file itself stands where it stood. An error of a library stands at the directive
as well; every other error is that of a directive of the file itself. -/
theorem splice_located (ls : Libraries) (tokens : List Token) :
    (∀ out, ls.splice tokens = .ok out →
      ∃ row met, Row ls [] row met ∧
        tokens = row.flatMap Stretch.text ∧ out = row.flatMap Stretch.out ∧
        ∀ d inner, .directive d inner ∈ row →
          ∀ t ∈ inner, t.span = d.span ∧ t.position = d.position) ∧
    ∀ e, ls.splice tokens = .error e →
      ∃ row met rest, Row ls [] row met ∧
        tokens = row.flatMap Stretch.text ++ rest ∧ Fault ls tokens met rest e := by
  have hrun := ((run_iff ls tokens _).mpr rfl).split
  rw [splice]
  generalize ls.expandAll ls.sources.length [] none [] tokens = r at hrun
  cases r with
  | error e =>
      refine ⟨fun out hout => (by cases hout), ?_⟩
      intro e' he
      cases he
      exact hrun
  | ok out =>
      refine ⟨?_, fun e he => (by cases he)⟩
      intro out' hout
      cases hout
      obtain ⟨row, hrow, htext, hout⟩ := hrun
      exact ⟨row, _, hrow, htext, hout, fun d inner hd => hrow.located hd⟩

end Libraries

end Shading
