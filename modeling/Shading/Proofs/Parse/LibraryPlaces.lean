import Shading.Proofs.Parse.ItemPlaces
import Shading.Proofs.Parse.Splicing

/-!
# Including libraries wherever the directives stand

Which libraries are included, and what their tokens are, is read off the kinds of the tokens.
Where a directive stands only decides where its tokens and its errors are put.
-/

namespace Shading

namespace Libraries

/-- The same kinds of tokens, and the same libraries met. -/
def AlikeOut (r r' : List Token × List String) : Prop :=
  r.1.map Token.kind = r'.1.map Token.kind ∧ r.2 = r'.2

section Next

variable (origin origin' : Origin) (all all' : List Token) {rest rest' : List Token}

/-- A path is read from the kinds of its tokens. -/
theorem exists_directivePath {parts : List String} {semicolon : Token} {after : List Token}
    (h : rest.map Token.kind = rest'.map Token.kind)
    (hpath : directivePath all rest = .ok (parts, semicolon, after)) :
    ∃ p', directivePath all' rest' = .ok p' ∧
      parts = p'.1 ∧ after.map Token.kind = p'.2.2.map Token.kind := by
  obtain ⟨hne, hsemicolon, path, hkinds, rfl⟩ := directivePath_eq_ok_iff.mp hpath
  rw [List.map_append, List.map_cons] at h
  obtain ⟨path', tail', rfl, hpath', htail⟩ := List.map_eq_append_iff.mp h.symm
  obtain ⟨semicolon', after', rfl, hsemicolon', hafter⟩ := List.map_eq_cons_iff.mp htail
  exact ⟨(parts, semicolon', after'), directivePath_eq_ok_iff.mpr
    ⟨hne, hsemicolon'.trans hsemicolon, path', hpath'.trans hkinds, rfl⟩, rfl, hafter.symm⟩

/-- What comes next is the same but for its place. -/
inductive AlikeNext : Next → Next → Prop where
  | done : AlikeNext .done .done
  | own {t t' : Token} {after after' : List Token} (hkind : t.kind = t'.kind)
      (hafter : after.map Token.kind = after'.map Token.kind) :
      AlikeNext (.own t after) (.own t' after')
  | directive {name : String} {place place' : Span × Position} {after after' : List Token}
      (hafter : after.map Token.kind = after'.map Token.kind) :
      AlikeNext (.directive name place after) (.directive name place' after')
  | malformed {e e' : ParseError} : AlikeNext (.malformed e) (.malformed e')

/-- What comes next depends on the kinds of the tokens only. -/
theorem alikeNext (h : rest.map Token.kind = rest'.map Token.kind) :
    AlikeNext (next origin all rest) (next origin' all' rest') := by
  match rest, rest', h with
  | [], [], _ => exact .done
  | t :: after, t' :: after', h =>
      obtain ⟨hkind, hafter⟩ := List.cons.inj h
      rw [next, next, hkind]
      split
      · cases hpath : directivePath all after with
        | ok p =>
            obtain ⟨p', hpath', hparts, hrest⟩ := exists_directivePath all all' hafter hpath
            obtain ⟨parts, semicolon, rest⟩ := p
            obtain ⟨parts', semicolon', rest'⟩ := p'
            subst hparts
            rw [hpath']
            exact .directive hrest
        | error e =>
            cases hpath' : directivePath all' after' with
            | error e' => exact .malformed
            | ok p' =>
                obtain ⟨p, hok, _⟩ := exists_directivePath all' all hafter.symm hpath'
                cases hpath.symm.trans hok
      · exact .own hkind hafter

end Next

/-- A library is read alike, wherever it is asked for. -/
theorem parallel_tokens (ls : Libraries) (name : String) (place place' : Span × Position) :
    Except.Parallel Eq (ls.tokens name place.1 place.2) (ls.tokens name place'.1 place'.2) := by
  rw [tokens, tokens]
  split
  · exact .error
  · split
    · exact .ok rfl
    · exact .error

theorem parallel_prepend {front front' : List Token} {r r' : Outcome}
    (hfront : front.map Token.kind = front'.map Token.kind) (h : Except.Parallel AlikeOut r r') :
    Except.Parallel AlikeOut (prepend front r) (prepend front' r') :=
  h.bind fun _ _ hout => .ok ⟨by rw [List.map_append, List.map_append, hfront, hout.1], hout.2⟩

/-- A file expands alike where its libraries do. -/
theorem parallel_expand (ls : Libraries) (stack : List String) (origin origin' : Origin)
    (all all' : List Token)
    {enter enter' : String → Origin → List String → List Token → Outcome}
    (henter : ∀ (name : String) (o o' : Origin) (met : List String) (library : List Token),
      Except.Parallel AlikeOut (enter name o met library) (enter' name o' met library))
    (fuel : Nat) (included : List String) {rest rest' : List Token}
    (h : rest.map Token.kind = rest'.map Token.kind) :
    Except.Parallel AlikeOut (expand ls stack origin all enter fuel included rest)
      (expand ls stack origin' all' enter' fuel included rest') := by
  induction fuel generalizing included rest rest' with
  | zero =>
      match rest, rest', h with
      | [], [], _ => exact .ok ⟨rfl, rfl⟩
      | _ :: _, _ :: _, _ => exact .ok ⟨rfl, rfl⟩
  | succ fuel ih =>
      rw [expand_succ, expand_succ]
      have hnext := alikeNext origin origin' all all' h
      generalize next origin all rest = n, next origin' all' rest' = n' at hnext
      cases hnext with
      | done => exact .ok ⟨rfl, rfl⟩
      | own hkind hafter =>
          refine parallel_prepend ?_ (ih included hafter)
          rw [List.map_singleton, List.map_singleton, kind_placeToken, kind_placeToken, hkind]
      | directive hafter =>
          refine .ite (fun _ => .error) fun _ => .ite (fun _ => ih included hafter) fun _ => ?_
          refine (parallel_tokens ls _ _ _).bindEq fun library => ?_
          refine (henter _ _ _ _ library).bind ?_
          rintro ⟨inner, met⟩ ⟨inner', met'⟩ ⟨hinner, hmet⟩
          subst hmet
          exact parallel_prepend hinner (ih met hafter)
      | malformed => exact .error

/-- Every depth of inclusion expands alike. -/
theorem parallel_expandAll (ls : Libraries) (depth : Nat) (stack : List String)
    (origin origin' : Origin) (included : List String) {all all' : List Token}
    (h : all.map Token.kind = all'.map Token.kind) :
    Except.Parallel AlikeOut (ls.expandAll depth stack origin included all)
      (ls.expandAll depth stack origin' included all') := by
  have hlength {ts ts' : List Token} (h : ts.map Token.kind = ts'.map Token.kind) :
      ts.length = ts'.length := by
    simpa using congrArg List.length h
  induction depth generalizing stack origin origin' included all all' with
  | zero =>
      rw [expandAll, expandAll, hlength h]
      exact parallel_expand ls stack origin origin' all all'
        (fun _ _ _ met _ => .ok (a := ([], met)) ⟨rfl, rfl⟩) _ included h
  | succ depth ih =>
      have henter (name : String) (o o' : Origin) (met : List String) (library : List Token) :
          Except.Parallel AlikeOut (ls.expandAll depth (name :: stack) o met library)
            (ls.expandAll depth (name :: stack) o' met library) :=
        ih (name :: stack) o o' met rfl
      rw [expandAll, expandAll, hlength h]
      exact parallel_expand ls stack origin origin' all all' henter _ included h

/-- From tokens of the same kinds splicing gives tokens of the same kinds. -/
theorem parallel_splice (ls : Libraries) {tokens tokens' : List Token}
    (h : tokens.map Token.kind = tokens'.map Token.kind) :
    Except.Parallel (fun ts ts' => ts.map Token.kind = ts'.map Token.kind)
      (ls.splice tokens) (ls.splice tokens') :=
  (ls.parallel_expandAll _ _ _ _ _ h).bind fun _ _ hout => .ok hout.1

end Libraries

/-- From tokens of the same kinds a file is read alike with the libraries it includes. -/
theorem parallel_parseWithLibraries {tokens tokens' : List Token}
    (h : tokens.map Token.kind = tokens'.map Token.kind) (registry : Registry) (ls : Libraries) :
    Except.Parallel Stmt.Alike (parseWithLibraries tokens registry ls)
      (parseWithLibraries tokens' registry ls) :=
  (ls.parallel_splice h).bind fun _ _ hts => parallel_parseTokens hts registry

end Shading
