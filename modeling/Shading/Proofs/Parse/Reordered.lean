import Shading.Proofs.Parse.ItemLocal
import Shading.Proofs.Parse.ItemPlaces
import Shading.Proofs.Parse.StmtReads

/-!
# Declarations in any order

The tokens of a file fall into those of its declarations. Put together in another order they
are read as the same declarations in that order: structs are known throughout the file, and
no declaration looks at what follows it.
-/

namespace Shading

namespace Parse

/-- The value of a production with the tokens that it takes. -/
def withTokens {α : Type} (m : Parse α) : Parse (List Token × α) := fun c => do
  let (a, c') ← m c
  return ((c.rest.take (c.rest.length - c'.rest.length), a), c')

end Parse

/-- The declarations of a file, each with the tokens that are taken for it. -/
def declarationGroups (tokens : List Token) (registry : Registry) :
    Except ParseError (List (List Token × Stmt)) := do
  let names := Names.ofTokens registry tokens
  let fuel := tokens.length + 4
  let (parts, _) ← Parse.upTo .eof (Parse.withTokens (Parse.item names fuel)) (fuel + 1)
    (Cursor.ofTokens tokens)
  return parts

namespace Parse

section StructNames

theorem marks_append_of_isCloser {k : Kind} (hk : isCloser k = true) (ks ls : List Kind) :
    marks (ks ++ k :: ls) = marks (ks ++ [k]) ++ marks ls := by
  have hplain : isPlain k = true := by
    simp only [isPlain, Bool.and_eq_true, bne_iff_ne]
    exact ⟨ne_of_isCloser hk rfl, ne_of_isCloser hk rfl⟩
  induction ks using marks.induct with
  | case1 ks ih =>
      simp only [List.cons_append, marks, ih]
  | case2 name ks ih =>
      simp only [List.cons_append, marks, ih]
  | case3 l ks hdot hstruct ih =>
      have hother (tail : List Kind) :
          marks (l :: (ks ++ k :: tail)) = marks (ks ++ k :: tail) := by
        rw [marks]
        · exact hdot
        · intro name rest hl hrest
          cases ks with
          | nil => exact ne_of_isCloser hk rfl (List.cons.inj hrest).1
          | cons i ks => exact hstruct name ks hl (by rw [(List.cons.inj hrest).1])
      rw [List.cons_append, List.cons_append, hother, hother, ih]
  | case4 =>
      calc marks (k :: ls)
          = marks ls := marks_cons_of_isPlain hplain ls
        _ = marks [k] ++ marks ls := by rw [marks_cons_of_isPlain hplain]; rfl

/-- The structs of a file are those of its declarations. -/
theorem mem_structNames_iff {parts : List (List Token × Stmt)} {e : Token} {name : String}
    (hparts : ∀ p ∈ parts, ∃ taken t, p.1 = taken ++ [t] ∧ isCloser t.kind = true)
    (he : e.kind = .eof) :
    name ∈ Names.structNames (parts.flatMap Prod.fst ++ [e]) ↔
      ∃ p ∈ parts, some name ∈ marks (p.1.map Token.kind) := by
  simp only [structNames_eq, List.mem_filterMap, id, exists_eq_right]
  induction parts with
  | nil => simp [he, marks]
  | cons p parts ih =>
      obtain ⟨taken, t, hp, ht⟩ := hparts p (by simp)
      have hrest := ih fun q hq => hparts q (List.mem_cons_of_mem _ hq)
      have hmarks : marks ((((p :: parts).flatMap Prod.fst) ++ [e]).map Token.kind) =
          marks (p.1.map Token.kind) ++
            marks ((parts.flatMap Prod.fst ++ [e]).map Token.kind) := by
        have happend := marks_append_of_isCloser ht (taken.map Token.kind)
          ((parts.flatMap Prod.fst ++ [e]).map Token.kind)
        simpa [hp] using happend
      rw [hmarks, List.mem_append, hrest]
      simp

end StructNames

variable {names : Names} {fuel : Nat}

section Head

theorem attributes_of_kind_ne {c : Cursor} (hk : c.current.kind ≠ .symbol .lbracket)
    (fuel : Nat) : attributes fuel c = .ok (⟨[], c.current⟩, c) := by
  have hgroups : attributeGroups (fuel + 1) c = .ok ([], c) := by
    rw [attributeGroups, StateT.bind_of_ok (eat_of_kind_ne hk)]
    rfl
  have hlook : look c = .ok (c.current, c) := rfl
  rw [attributes, StateT.bind_of_ok hlook, StateT.bind_of_ok hgroups]
  rfl

/-- A declaration starts with a token that continues no other one. -/
theorem calm_of_item {c c' : Cursor} {s : Stmt} (h : item names fuel c = .ok (s, c')) :
    Calm c.rest := by
  cases fuel with
  | zero => cases h
  | succ fuel =>
      have hlook : look c = .ok (c.current, c) := rfl
      have hfails (hk : c.current.kind = .symbol .semicolon ∨ c.current.kind = .keyword .else) :
          False := by
        have hbracket : c.current.kind ≠ .symbol .lbracket := by
          rcases hk with hk | hk <;> simp [hk]
        rw [item, StateT.bind_of_ok (attributes_of_kind_ne hbracket fuel),
          StateT.bind_of_ok hlook] at h
        rcases hk with hk | hk
        · rw [hk] at h
          cases h
        · rw [hk] at h
          cases h
      constructor
      · intro hk
        exact hfails (.inl hk)
      · intro hk
        exact hfails (.inr hk)

end Head

/-- The tokens are read as the declaration before any tokens that do not continue it, by names
that know the same types. -/
structure Detached (names : Names) (fuel : Nat) (p : List Token × Stmt) : Prop where
  closed : ∃ taken t, p.1 = taken ++ [t] ∧ isCloser t.kind = true
  noEof : ∀ t ∈ p.1, t.kind ≠ .eof
  calm : ∀ rest, Calm (p.1 ++ rest)
  reads : ∀ {names' rest}, names.Alike names' → Calm rest →
    Reads (item names' fuel) ((p.1 ++ rest).map Token.kind) (rest.map Token.kind)
      fun s => s.eraseSpans = p.2.eraseSpans

/-- What is read as a declaration is read as it anywhere. -/
theorem detached_of_item {c c' : Cursor} {s : Stmt} (h : item names fuel c = .ok (s, c')) :
    ∃ tokens, c.rest = tokens ++ c'.rest ∧ Detached names fuel (tokens, s) := by
  have hclosed {names' : Names} (hnames : names.Alike names') :=
    (closes_item hnames fuel c s c' h).2
  obtain ⟨taken, t, hrun⟩ := hclosed ⟨rfl, fun _ => rfl⟩
  have hrest : c.rest = (taken ++ [t]) ++ c'.rest := by
    rw [hrun.rest, List.append_assoc]
    rfl
  refine ⟨taken ++ [t], hrest, ?_⟩
  constructor
  · exact ⟨taken, t, rfl, hrun.closer⟩
  · intro u hu
    rcases List.mem_append.mp hu with hu | hu
    · exact hrun.noEof u hu
    · rw [List.mem_singleton.mp hu]
      exact ne_of_isCloser hrun.closer rfl
  · intro rest
    have hcalm := calm_of_item h
    rw [hrest] at hcalm
    cases taken with
    | nil => exact hcalm
    | cons u taken => exact hcalm
  · intro names' rest hnames hcalm d hd
    obtain ⟨taken', t', hrun'⟩ := hclosed hnames
    have htokens : (taken' ++ [t']) ++ c'.rest = (taken ++ [t]) ++ c'.rest := by
      rw [← hrest, hrun'.rest, List.append_assoc]
      rfl
    have htaken := List.append_cancel_right htokens
    have hsame := hrun'.same hcalm
    have hsplit : taken' ++ t' :: rest = (taken ++ [t]) ++ rest := by
      rw [← htaken, List.append_assoc]
      rfl
    rw [hsplit] at hsame
    obtain ⟨⟨s', d'⟩, hread, halike, hkinds⟩ :=
      (parallel_item fuel ⟨taken ++ [t] ++ rest, c.previous⟩ d hd.symm).exists_of_ok hsame
    exact ⟨s', d', hread, hkinds.symm, halike.symm⟩

/-- The list of a file is read together with the tokens of its declarations. -/
theorem exists_parts_of_upTo {n : Nat} {c c' : Cursor} {items : List Stmt}
    (h : upTo .eof (item names fuel) n c = .ok (items, c')) :
    ∃ parts, upTo .eof (withTokens (item names fuel)) n c = .ok (parts, c') ∧
      items = parts.map Prod.snd ∧ c.rest = parts.flatMap Prod.fst ++ c'.rest ∧
      ∀ p ∈ parts, Detached names fuel p := by
  induction n generalizing c items with
  | zero => cases h
  | succ n ih =>
      have hkind : kind c = .ok (c.current.kind, c) := rfl
      rw [upTo, StateT.bind_of_ok hkind] at h
      split at h
      · rename_i hk
        cases h
        refine ⟨[], ?_, rfl, rfl, by simp⟩
        rw [upTo, StateT.bind_of_ok hkind, if_pos hk]
        rfl
      · rename_i hk
        obtain ⟨s, mid, hitem, h⟩ := StateT.bind_eq_ok_iff.mp h
        obtain ⟨items', mid', hlist, h⟩ := StateT.bind_eq_ok_iff.mp h
        cases h
        obtain ⟨tokens, htokens, hdetached⟩ := detached_of_item hitem
        obtain ⟨parts, hparts, rfl, hrest, hall⟩ := ih hlist
        have hfirst : withTokens (item names fuel) c = .ok ((tokens, s), mid) := by
          have htake : c.rest.take (c.rest.length - mid.rest.length) = tokens := by
            simp [htokens]
          simp only [withTokens, hitem]
          exact congrArg (fun ts => Except.ok ((ts, s), mid)) htake
        refine ⟨(tokens, s) :: parts, ?_, rfl, ?_, ?_⟩
        · rw [upTo, StateT.bind_of_ok hkind, if_neg hk, StateT.bind_of_ok hfirst,
            StateT.bind_of_ok hparts]
          rfl
        · rw [htokens, hrest, List.flatMap_cons, List.append_assoc]
        · intro p hp
          rcases List.mem_cons.mp hp with rfl | hp
          · exact hdetached
          · exact hall p hp

/-- Declarations that are read as such anywhere make a file in any order. -/
theorem reads_file_of_detached {names' : Names} {parts : List (List Token × Stmt)}
    (hnames : names.Alike names') (hparts : ∀ p ∈ parts, Detached names fuel p)
    (hfuel : (parts.flatMap Prod.fst).length ≤ fuel) {e : Token} (he : e.kind = .eof) :
    Reads (file names' fuel) ((parts.flatMap Prod.fst ++ [e]).map Token.kind) [.eof]
      fun s => s.eraseSpans = .block .dummy (parts.map fun p => p.2.eraseSpans) := by
  have hne (p : List Token × Stmt) (hp : p ∈ parts) : p.1 ≠ [] := by
    obtain ⟨taken, t, htokens, -⟩ := (hparts p hp).closed
    simp [htokens]
  have hkinds (ps : List (List Token × Stmt)) : (ps.flatMap Prod.fst ++ [e]).map Token.kind =
      ps.flatMap (fun p => p.1.map Token.kind) ++ [.eof] := by
    simp [List.map_flatMap, he]
  have hcalm (ps : List (List Token × Stmt)) (hps : ∀ p ∈ ps, Detached names fuel p) :
      Calm (ps.flatMap Prod.fst ++ [e]) := by
    cases ps with
    | nil => simp [Calm, he]
    | cons p ps =>
        have hfirst := (hps p (by simp)).calm (ps.flatMap Prod.fst ++ [e])
        rwa [List.flatMap_cons, List.append_assoc]
  have hlist : Reads (upTo .eof (item names' fuel) (fuel + 1))
      (parts.flatMap (fun p => p.1.map Token.kind) ++ [.eof]) [.eof]
      fun is => is.map Stmt.eraseSpans = parts.map fun p => p.2.eraseSpans := by
    have hcount : parts.length ≤ (parts.flatMap Prod.fst).length := length_le_flatMap hne
    apply reads_upTo (.inl rfl) (hcount.trans hfuel)
    · intro p hp
      obtain ⟨t, rest, ht⟩ := List.exists_cons_of_ne_nil (hne p hp)
      have heof := (hparts p hp).noEof t (by simp [ht])
      exact ⟨t.kind, rest.map Token.kind, by simp [ht], heof, heof⟩
    · rintro xs p ys rfl
      have hread := (hparts p (by simp)).reads hnames (hcalm ys fun q hq => hparts q (by simp [hq]))
      rwa [List.map_append, hkinds] at hread
  rw [hkinds]
  apply Reads.look
  intro start _
  apply hlist.bind
  intro is his
  apply Reads.kind
  rw [if_pos (by rfl)]
  cases is with
  | nil => exact .pure (by simp [← his])
  | cons i is => exact .spanFrom fun p => .pure (by simp [← his])

/-- A file is the list of its declarations up to the end. -/
theorem exists_items_of_file {c c' : Cursor} {tree : Stmt}
    (h : file names fuel c = .ok (tree, c')) :
    ∃ items span, upTo .eof (item names fuel) (fuel + 1) c = .ok (items, c') ∧
      c'.current.kind = .eof ∧ tree = .block span items := by
  have hlook : look c = .ok (c.current, c) := rfl
  rw [file, StateT.bind_of_ok hlook] at h
  obtain ⟨items, mid, hitems, h⟩ := StateT.bind_eq_ok_iff.mp h
  have hkind : kind mid = .ok (mid.current.kind, mid) := rfl
  rw [StateT.bind_of_ok hkind] at h
  split at h
  · rename_i hk
    cases items with
    | nil =>
        cases h
        exact ⟨[], _, hitems, hk, rfl⟩
    | cons item rest =>
        cases h
        exact ⟨item :: rest, _, hitems, hk, rfl⟩
  · cases h

theorem Detached.alike {registry : Registry} {parts parts' : List (List Token × Stmt)} {e : Token}
    (hparts : ∀ p ∈ parts, Detached names fuel p) (hperm : parts'.Perm parts)
    (he : e.kind = .eof) :
    (Names.ofTokens registry (parts.flatMap Prod.fst ++ [e])).Alike
      (Names.ofTokens registry (parts'.flatMap Prod.fst ++ [e])) := by
  have hmem (name : String) :
      name ∈ Names.structNames (parts'.flatMap Prod.fst ++ [e]) ↔
        name ∈ Names.structNames (parts.flatMap Prod.fst ++ [e]) := by
    rw [mem_structNames_iff (fun p hp => (hparts p (hperm.mem_iff.mp hp)).closed) he,
      mem_structNames_iff (fun p hp => (hparts p hp).closed) he]
    simp only [hperm.mem_iff]
  constructor
  · rfl
  · intro name
    simp only [Names.type?, Names.ofTokens]
    split
    · rfl
    · exact if_congr (hmem name) rfl rfl

end Parse

/-- A file that is read falls into declarations. The tokens of the declarations in any order,
and the end of the file after them, are read as the same declarations in that order, places
apart. -/
theorem declarations_reorder {tokens : List Token} {e : Token} {registry : Registry} {tree : Stmt}
    (hne : ∀ t ∈ tokens, t.kind ≠ .eof) (he : e.kind = .eof)
    (h : parseTokens (tokens ++ [e]) registry = .ok tree) :
    ∃ parts span, declarationGroups (tokens ++ [e]) registry = .ok parts ∧
      tokens = parts.flatMap Prod.fst ∧ tree = .block span (parts.map Prod.snd) ∧
      ∀ parts' : List (List Token × Stmt), parts'.Perm parts → ∃ tree',
        parseTokens (parts'.flatMap Prod.fst ++ [e]) registry = .ok tree' ∧
        tree'.eraseSpans = .block .dummy (parts'.map fun p => p.2.eraseSpans) := by
  obtain ⟨⟨tree, c⟩, hfile, hout⟩ := Except.bind_eq_ok_iff.mp h
  cases hout
  obtain ⟨items, span, hitems, hend, rfl⟩ := Parse.exists_items_of_file hfile
  obtain ⟨parts, hparts, rfl, hrest, hall⟩ := Parse.exists_parts_of_upTo hitems
  -- The end of the file is in no declaration, so it is what is left.
  have htokens : tokens = parts.flatMap Prod.fst := by
    have hno : ∀ t ∈ parts.flatMap Prod.fst, t.kind ≠ .eof := by
      intro t ht
      obtain ⟨p, hp, ht⟩ := List.mem_flatMap.mp ht
      exact (hall p hp).noEof t ht
    rcases List.append_eq_append_iff.mp hrest with ⟨extra, hextra, hlast⟩ | ⟨more, hmore, hlast⟩
    · cases extra with
      | nil => simpa using hextra.symm
      | cons u extra =>
          obtain rfl := (List.cons.inj hlast).1
          exact absurd he (hno e (by simp [hextra]))
    · cases more with
      | nil => simpa using hmore
      | cons u more =>
          have hu : u.kind = .eof := by simpa [Cursor.current, hlast] using hend
          exact absurd hu (hne u (by simp [hmore]))
  refine ⟨parts, span, ?_, htokens, rfl, ?_⟩
  · simp only [declarationGroups, hparts]
    rfl
  · intro parts' hperm
    have hlength : (parts'.flatMap Prod.fst ++ [e]).length = (tokens ++ [e]).length := by
      rw [htokens]
      simp only [List.length_append, (hperm.flatMap_right Prod.fst).length_eq]
    have hnames : (Names.ofTokens registry (tokens ++ [e])).Alike
        (Names.ofTokens registry (parts'.flatMap Prod.fst ++ [e])) := by
      rw [htokens]
      exact Parse.Detached.alike hall hperm he
    have hfuel : (parts'.flatMap Prod.fst).length ≤ (tokens ++ [e]).length + 4 := by
      rw [← hlength, List.length_append]
      omega
    obtain ⟨tree', c', hrun, -, htree⟩ :=
      Parse.reads_file_of_detached hnames (fun p hp => hall p (hperm.mem_iff.mp hp)) hfuel he
        (Cursor.ofTokens (parts'.flatMap Prod.fst ++ [e])) rfl
    refine ⟨tree', ?_, htree⟩
    rw [parseTokens, hlength, hrun]
    rfl

/-- `S same(S s) { return s; }` -/
def sameGroup : List Token × Stmt :=
  ⟨[.ident "S", .ident "same", .symbol .lparen, .ident "S", .ident "s", .symbol .rparen,
    .symbol .lbrace, .keyword .return, .ident "s", .symbol .semicolon, .symbol .rbrace].map
    fun k => ⟨k, .dummy, .nowhere⟩,
    .function .dummy ⟨"same", [⟨"s", .struct "S", .dummy⟩], .struct "S", none⟩
      [.ret .dummy (some (.ref .dummy "s"))]⟩

/-- `struct S { x: float; };` -/
def structGroup : List Token × Stmt :=
  ⟨[.keyword .struct, .ident "S", .symbol .lbrace, .ident "x", .symbol .colon, .ident "float",
    .symbol .semicolon, .symbol .rbrace, .symbol .semicolon].map fun k => ⟨k, .dummy, .nowhere⟩,
    .struct .dummy ⟨"S", [⟨"x", .prim .float⟩]⟩⟩

/-- The struct may stand before the function that uses it as well as behind it. -/
theorem sameGroup_reorder :
    parseTokens (sameGroup.1 ++ structGroup.1 ++ [Token.eof]) Registry.standard =
        .ok (.block .dummy [sameGroup.2, structGroup.2]) ∧
      ∃ tree, parseTokens (structGroup.1 ++ sameGroup.1 ++ [Token.eof]) Registry.standard =
          .ok tree ∧
        tree.eraseSpans = .block .dummy [structGroup.2, sameGroup.2] := by
  have hne : ∀ t ∈ sameGroup.1 ++ structGroup.1, t.kind ≠ .eof := by
    simp [sameGroup, structGroup]
  have hparse : parseTokens (sameGroup.1 ++ structGroup.1 ++ [Token.eof]) Registry.standard =
      .ok (.block .dummy [sameGroup.2, structGroup.2]) := by rfl
  have hgroups : declarationGroups (sameGroup.1 ++ structGroup.1 ++ [Token.eof])
      Registry.standard = .ok [sameGroup, structGroup] := by rfl
  obtain ⟨parts, span, hparts, -, -, horder⟩ := declarations_reorder hne rfl hparse
  cases hgroups.symm.trans hparts
  obtain ⟨tree, hread, htree⟩ := horder [structGroup, sameGroup] (.swap _ _ _)
  constructor
  · exact hparse
  · exact ⟨tree, by simpa using hread, htree⟩

end Shading
