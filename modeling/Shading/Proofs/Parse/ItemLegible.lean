import Shading.Proofs.Parse.StmtLegible

/-!
# Files that are read are legible

Whatever declaration is read is legible. Its attributes are not kept as they were written,
and a semicolon after its braces is not kept at all; neither bears a mark.
-/

namespace Shading

open Kind (Writable)
open Lexer (isName)

namespace Parse

open Stmt (Place ReadFrom Legible kindsList)

variable {names : Names} {fuel : Nat}

/-- The kinds of an attribute mark no name. -/
theorem plain_attributeKinds (a : String × List AttributeArgument) : Plain (attributeKinds a) := by
  obtain ⟨name, arguments⟩ := a
  cases arguments with
  | nil => exact plain_cons.mpr ⟨rfl, plain_nil⟩
  | cons x xs =>
      have hargs : Plain (commas ((x :: xs).map fun y => [y.kind])) := by
        apply plain_commas
        intro part hpart
        obtain ⟨y, -, rfl⟩ := List.mem_map.mp hpart
        cases y <;> exact plain_cons.mpr ⟨rfl, plain_nil⟩
      simpa [attributeKinds, argumentList] using ⟨rfl, rfl, hargs, rfl⟩

theorem plain_bracketed (as : List (String × List AttributeArgument)) : Plain (bracketed as) := by
  have hcommas : Plain (commas (as.map attributeKinds)) := by
    apply plain_commas
    intro part hpart
    obtain ⟨a, -, rfl⟩ := List.mem_map.mp hpart
    exact plain_attributeKinds a
  simpa [bracketed] using ⟨rfl, hcommas, rfl⟩

section Entries

variable {α : Type} {entry : Parse α} {P : α → Prop} {kinds : α → List Kind}

/-- A block of entries, with or without a semicolon after it. -/
theorem takes_entries {k : Keyword} (hk : isPlain (.keyword k) = true)
    (hentry : Takes entry fun ks a _ => Writable ks → P a ∧ Agree ks (kinds a)) :
    TakesAt (.keyword k) (entries entry fuel) fun ks as _ => Writable ks →
      (∀ a ∈ as, P a) ∧ Agree ks (.keyword k :: Kind.braced (as.flatMap kinds)) := by
  have hlist := takes_upTo (.symbol .rbrace) hentry (fuel + 1)
  refine .take (by simp) (.expect (.bindRest hlist fun as => .expect (.eat ?_ ?_)))
  · refine .pure fun rest ks hks h => ?_
    obtain ⟨has, hagree⟩ := hks h.tail.tail.left
    have hclose : Agree [.symbol .rbrace, .symbol .semicolon] [.symbol .rbrace] :=
      .cons rfl (.consLeft rfl .nil)
    exact ⟨has, .cons hk (.cons rfl (hagree.append hclose))⟩
  · refine .pure fun rest ks hks h => ?_
    obtain ⟨has, hagree⟩ := hks h.tail.tail.left
    exact ⟨has, .cons hk (.cons rfl (hagree.concat rfl))⟩

end Entries

section Declarations

variable (hnames : names.registry = Registry.standard)
include hnames

/-- A type and a name, which most declarations have in them. -/
theorem takes_declares {α : Type} {f : Ty → String × Span → Parse α}
    {R : List Kind → α → List Kind → Prop}
    (h : ∀ t name span, Takes (f t (name, span)) fun ls a rest => ∀ ks,
      (Writable ks → Declares names name t ∧ Agree ks (t.kinds ++ [.ident name])) →
        R (ks ++ ls) a rest) :
    Takes (do
      let t ← type names
      let p ← identifier
      f t p) R := by
  refine .bind (takes_type hnames) fun ts t ht => .identifier fun name span => ?_
  refine (h t name span).mono fun ls a rest ha => ?_
  have hks := ha (ts ++ [.ident name]) fun hw => ?_
  · simpa using hks
  · simp only [Kind.writable_append, Kind.writable_cons, Kind.spellable_ident] at hw
    obtain ⟨htype, hagree⟩ := ht hw.1
    exact ⟨⟨hw.2.1, htype⟩, hagree.concat rfl⟩

/-- A field of a structure is declared with a type that can be read again. -/
theorem takes_structField : Takes (structField names) fun ks f _ => Writable ks →
    Declares names f.name f.type ∧ Agree ks f.kinds := by
  refine .identifier fun name span => .expect (.bind (takes_type hnames) fun ts t ht => ?_)
  refine .expect (.pure fun _ hw => ?_)
  simp only [Kind.writable_append, Kind.writable_cons, Kind.spellable_ident] at hw
  obtain ⟨htype, hagree⟩ := ht hw.2.2.1
  exact ⟨⟨hw.1, htype⟩, .cons rfl (.cons rfl (hagree.concat rfl))⟩

/-- A structure that is read can be printed and read again. -/
theorem takes_struct (start : Span) :
    TakesAt (.keyword .struct) (struct names fuel start) fun ks s _ =>
      Writable ks → ∃ p d, s = .struct p d ∧ Legible names .file s ∧ Agree ks s.kinds := by
  have hlist := takes_upTo (.symbol .rbrace) (takes_structField hnames) (fuel + 1)
  have hend (name : String) (fields : List StructField) : Takes (do
      let _ ← eat .semicolon
      return Stmt.struct (← spanFrom start) ⟨name, fields⟩) fun ks s _ =>
        Agree ks [] ∧ ∃ p, s = .struct p ⟨name, fields⟩ :=
    .eat (.spanFrom fun p => .pure fun _ => ⟨.consLeft rfl .nil, p, rfl⟩)
      (.spanFrom fun p => .pure fun _ => ⟨.nil, p, rfl⟩)
  refine .take (by simp) (.identifier fun name span => .expect ?_)
  refine .bindRest hlist fun fields => .expect ((hend name fields).mono ?_)
  rintro ls s rest ⟨hagree', p, rfl⟩ ks hks h
  have h' := h.tail
  obtain ⟨hname, -⟩ := Kind.writable_cons.mp h'
  obtain ⟨hfields, hagree⟩ := hks h'.tail.tail.left
  have hclose : Agree (.symbol .rbrace :: ls) [.symbol .rbrace] := .cons rfl hagree'
  exact ⟨p, _, rfl, .struct hname hfields, .struct name (.cons rfl (hagree.append hclose))⟩

/-- The attributes, the type and the name of an entry. -/
theorem takes_entryHead : Takes (entryHead names fuel) fun ks head _ => Writable ks →
    (∀ a ∈ head.1.list, Fits a.arguments) ∧ Declares names head.2.2 head.2.1 ∧
      Agree ks (head.2.1.kinds ++ [.ident head.2.2]) := by
  refine .bind (takes_attributes fuel) fun bs as has => takes_declares hnames fun t name span => ?_
  refine .pure fun _ ks hks hw => ?_
  rw [List.append_nil] at hw ⊢
  obtain ⟨hdeclares, hagree⟩ := hks (Kind.writable_append.mp hw).2
  exact ⟨has.2, hdeclares, hagree.left has.1⟩

/-- An entry of an interface can be printed and read again. The other entries are alike. -/
theorem takes_interfaceEntry : Takes (interfaceEntry names fuel) fun ks v _ => Writable ks →
    v.Legible names ∧ Agree ks v.kinds := by
  refine .bind (takes_entryHead hnames) fun hs head hhead => .expect ?_
  refine .checked fun slot hslot => .spanFrom fun p => .pure fun _ hw => ?_
  obtain ⟨hfits, hdeclares, hagree⟩ := hhead (Kind.writable_append.mp hw).1
  refine ⟨⟨hdeclares, Attributes.location_lt hfits hslot⟩, ?_⟩
  have hright := (hagree.concat (k := .symbol .semicolon) rfl).right
      (plain_bracketed slot.attributes)
  simpa [InterfaceVariable.kinds] using hright

theorem takes_externalEntry : Takes (externalEntry names fuel) fun ks v _ => Writable ks →
    v.Legible names ∧ Agree ks v.kinds := by
  refine .bind (takes_entryHead hnames) fun hs head hhead => .expect ?_
  refine .checked fun binding hbinding => .spanFrom fun p => .pure fun _ hw => ?_
  obtain ⟨hfits, hdeclares, hagree⟩ := hhead (Kind.writable_append.mp hw).1
  obtain ⟨hset, hbinding⟩ := Attributes.binding_lt hfits hbinding
  refine ⟨⟨hdeclares, hset, hbinding⟩, ?_⟩
  refine Agree.right (plain_bracketed _) ?_
  simpa using hagree.concat (k := .symbol .semicolon) rfl

theorem takes_optionEntry : Takes (optionEntry names fuel) fun ks d _ => Writable ks →
    d.Legible names ∧ Agree ks d.kinds := by
  refine .bind (takes_entryHead hnames) fun hs head hhead => .checked fun _ _ => ?_
  have hend (value : Option Expr) : Takes (do
      expect .semicolon
      return (⟨head.2.2, head.2.1, value, ← spanFrom head.1.start.span⟩ : OptionDeclaration))
      fun ks d _ => ks = [.symbol .semicolon] ∧ ∃ p, d = ⟨head.2.2, head.2.1, value, p⟩ :=
    .expect (.spanFrom fun p => .pure fun _ => ⟨rfl, p, rfl⟩)
  refine .eat ?_ ?_
  · refine .bind (takes_expression hnames fuel) fun es e he => (hend (some e)).mono ?_
    rintro _ d rest ⟨rfl, p, rfl⟩ hw
    simp only [Kind.writable_append, Kind.writable_cons] at hw
    obtain ⟨-, hdeclares, hagree⟩ := hhead hw.1
    obtain ⟨hlegible, hagree'⟩ := he hw.2.2.1
    refine ⟨⟨hdeclares, ?_⟩, ?_⟩
    · rintro x ⟨⟩
      exact hlegible
    · simpa [OptionDeclaration.kinds, Expr.kindsAfter] using
        hagree.append (.cons (k := .symbol .eq) rfl (hagree'.concat (k := .symbol .semicolon) rfl))
  · refine (hend none).mono ?_
    rintro _ d rest ⟨rfl, p, rfl⟩ hw
    obtain ⟨-, hdeclares, hagree⟩ := hhead (Kind.writable_append.mp hw).1
    refine ⟨⟨hdeclares, (by simp)⟩, ?_⟩
    simpa [OptionDeclaration.kinds, Expr.kindsAfter] using
      hagree.concat (k := .symbol .semicolon) rfl

theorem takes_constEntry : Takes (constEntry names fuel) fun ks d _ => Writable ks →
    d.Legible names ∧ Agree ks d.kinds := by
  refine .bind (takes_entryHead hnames) fun hs head hhead => .checked fun _ _ => .expect ?_
  refine .bind (takes_expression hnames fuel) fun es e he => .expect ?_
  refine .spanFrom fun p => .pure fun _ hw => ?_
  simp only [Kind.writable_append, Kind.writable_cons] at hw
  obtain ⟨-, hdeclares, hagree⟩ := hhead hw.1
  obtain ⟨hlegible, hagree'⟩ := he hw.2.2.1
  refine ⟨⟨hdeclares, hlegible⟩, ?_⟩
  simpa [ConstDeclaration.kinds] using
    hagree.append (.cons (k := .symbol .eq) rfl (hagree'.concat (k := .symbol .semicolon) rfl))

theorem takes_parameter : Takes (parameter names) fun ks p _ => Writable ks →
    Declares names p.name p.type ∧ Agree ks p.kinds := by
  refine .look fun start => (takes_declares hnames fun t name span => ?_).at_ _
  refine .spanFrom fun p => .pure fun _ ks hks hw => ?_
  rw [List.append_nil] at hw ⊢
  exact hks hw

/-- The parameters of a function in their parentheses. -/
theorem takes_parameters {α : Type} {f : List Parameter → Parse α}
    {R : List Kind → α → List Kind → Prop}
    (h : ∀ ps, Takes (f ps) fun ls a rest => ∀ ks,
      (Writable ks → (∀ p ∈ ps, Declares names p.name p.type) ∧
        Agree ks (argumentList (ps.map Parameter.kinds))) → R (ks ++ ls) a rest) :
    Takes (do
      expect .lparen
      let ps ←
        if (← kind) = .symbol .rparen then pure []
        else separated (parameter names) fuel
      expect .rparen
      f ps) R := by
  have hend (bs : List Kind) (ps : List Parameter) (hbs : Writable bs →
      (∀ p ∈ ps, Declares names p.name p.type) ∧ Agree bs (commas (ps.map Parameter.kinds))) :
      Takes (do
        expect .rparen
        f ps) fun ls a rest => R (.symbol .lparen :: (bs ++ ls)) a rest := by
    refine .expect ((h ps).mono fun ls a rest hR => ?_)
    have hks := hR (.symbol .lparen :: (bs ++ [.symbol .rparen])) fun hw => ?_
    · simpa using hks
    · simp only [Kind.writable_append, Kind.writable_cons] at hw
      obtain ⟨hps, hagree⟩ := hbs hw.2.1
      exact ⟨hps, .cons rfl (hagree.concat rfl)⟩
  refine .expect (.kind fun k => .ite (fun _ => Takes.at_ ?_ _) fun _ => Takes.at_ ?_ _)
  · exact hend [] [] fun _ => ⟨(by simp), .nil⟩
  · refine .bind (takes_separated (takes_parameter hnames) _) fun bs ps hps => hend bs ps ?_
    obtain ⟨parts, -, rfl, rfl, hall⟩ := hps
    intro hw
    rw [Kind.writable_commas] at hw
    have hpart (q : List Kind × Parameter) (hq : q ∈ parts) :=
      hall q hq (hw q.1 (List.mem_map_of_mem hq))
    refine ⟨?_, ?_⟩
    · intro p hp
      obtain ⟨q, hq, rfl⟩ := List.mem_map.mp hp
      exact (hpart q hq).1
    · rw [List.map_map]
      exact agree_commas fun q hq => (hpart q hq).2

/-- A function that is read can be printed and read again, with its entry point. -/
theorem takes_function {as : Attributes} (hfits : ∀ a ∈ as.list, Fits a.arguments) (t : Ty)
    (name : String) : Takes (function names fuel as t name) fun ks s _ =>
      Writable ks → ∃ p f items, s = .function p f items ∧ f.name = name ∧
        f.returnType = t ∧ (∀ q ∈ f.parameters, Declares names q.name q.type) ∧
        (∀ e, f.entry = some e → e.Legible) ∧ (∀ i ∈ items, Legible names .body i) ∧
        Agree ks (argumentList (f.parameters.map Parameter.kinds) ++
          Kind.braced (kindsList items)) := by
  refine .checked fun entry hentry => takes_parameters hnames fun ps => ?_
  refine .bindRest (takes_braced (understands_statement hnames fuel) fuel) fun items => ?_
  refine .spanFrom fun p => .pure fun rest ls hls ks hks h => ?_
  simp only [List.append_nil] at hls h ⊢
  obtain ⟨hps, hagree⟩ := hks h.left
  obtain ⟨hitems, hagree'⟩ := hls h.right
  refine ⟨p, _, items, rfl, rfl, rfl, hps, ?_, hitems, hagree.append hagree'⟩
  rintro e rfl
  exact Attributes.legible_entry hfits hentry

end Declarations

/-- The parts of a path are names. -/
theorem takes_libraryParts (fuel : Nat) : Takes (libraryParts fuel) fun ks parts _ =>
    Writable ks → (∀ part ∈ parts, isName part = true) ∧
      ∀ part, Agree (.ident part :: ks) (dottedKinds (part :: parts)) := by
  induction fuel with
  | zero => exact .spent
  | succ fuel ih =>
      refine .eat (.identifier fun part _ => .bind ih fun ks parts hparts => ?_) ?_
      · refine .pure fun _ hw => ?_
        rw [List.append_nil] at hw ⊢
        simp only [Kind.writable_cons, Kind.spellable_ident] at hw
        obtain ⟨hnames, hagree⟩ := hparts hw.2.2
        refine ⟨?_, fun first => .cons rfl (.dot (hagree part))⟩
        intro p hp
        rcases List.mem_cons.mp hp with rfl | hp
        · exact hw.2.1
        · exact hnames p hp
      · exact .pure fun _ _ => ⟨(by simp), fun part => .cons rfl .nil⟩

/-- A directive that is read can be printed and read again. -/
theorem takes_library (start : Span) : TakesAt (.keyword .include) (library fuel start)
    fun ks s _ => Writable ks →
      ∃ p path, s = .library p path ∧ Legible names .file s ∧ Agree ks s.kinds := by
  refine .take (by simp) (.identifier fun part _ => .bind (takes_libraryParts _) ?_)
  intro ks parts hparts
  refine .expect (.spanFrom fun p => .pure fun _ hw => ?_)
  simp only [Kind.writable_append, Kind.writable_cons, Kind.spellable_ident] at hw
  obtain ⟨hnames, hagree⟩ := hparts hw.2.2.1
  refine ⟨p, _, rfl, .library (List.cons_ne_nil _ _) ?_, .cons rfl ((hagree part).concat rfl)⟩
  intro p hp
  rcases List.mem_cons.mp hp with rfl | hp
  · exact hw.2.1
  · exact hnames p hp

/-- What is known of a declaration that is read after its attributes. -/
def ReadItem (names : Names) (ks : List Kind) (s : Stmt) (rest : List Kind) : Prop :=
  ReadFrom names .file ks s rest ∧ s.isBranch = false

theorem ReadItem.of_legible {ks rest : List Kind} {s : Stmt} (hlegible : Legible names .file s)
    (htakes : s.takesElse = false) (hbranch : s.isBranch = false) (hagree : Agree ks s.kinds) :
    ReadItem names ks s rest :=
  ⟨⟨hlegible, by simp [htakes], by simp [hbranch], hagree⟩, hbranch⟩

/-- A block of entries as a declaration. -/
theorem understands_entries {α : Type} {entry : Parse α} {P : α → Prop} {kinds : α → List Kind}
    {k : Keyword} (hk : isPlain (.keyword k) = true) {start : Span} {make : Span → List α → Stmt}
    (hentry : Takes entry fun ks a _ => Writable ks → P a ∧ Agree ks (kinds a))
    (hlegible : ∀ p as, (∀ a ∈ as, P a) → Legible names .file (make p as))
    (htakes : ∀ p as, (make p as).takesElse = false)
    (hbranch : ∀ p as, (make p as).isBranch = false)
    (hkinds : ∀ p as, (make p as).kinds = .keyword k :: Kind.braced (as.flatMap kinds)) :
    TakesAt (.keyword k) (do
      let as ← entries entry fuel
      return make (← spanFrom start) as) fun ks s rest => Writable ks →
        ReadItem names ks s rest := by
  refine .bindRest (takes_entries hk hentry) fun as => .spanFrom fun p => ?_
  refine .pure fun rest ks has h => ?_
  simp only [List.append_nil] at has h ⊢
  obtain ⟨has, hagree⟩ := has h
  exact .of_legible (hlegible p as has) (htakes p as) (hbranch p as) (hkinds p as ▸ hagree)

section Items

variable (hnames : names.registry = Registry.standard)
include hnames

/-- Every item that is read can be printed and read again. -/
theorem understands_item (fuel : Nat) : Understands names .file (item names fuel) := by
  induction fuel with
  | zero => exact .spent
  | succ fuel ih =>
      refine .bind (takes_attributes fuel) fun bs as has => .look fun t => ?_
      suffices hitem : TakesAt t.kind _ fun ks s rest =>
          Writable ks → ReadItem names ks s rest by
        refine hitem.mono fun ks s rest hs h => ?_
        obtain ⟨⟨hlegible, hends, -, hagree⟩, hbranch⟩ := hs h.right
        exact ⟨hlegible, hends, by simp [hbranch], hagree.left has.1⟩
      split
      · rename_i hk
        rw [hk]
        refine .checked fun _ _ => (takes_struct hnames _).mono ?_
        intro ks s rest hs h
        obtain ⟨p, d, rfl, hlegible, hagree⟩ := hs h
        exact .of_legible hlegible rfl rfl hagree
      · rename_i hk
        rw [hk]
        exact .checked fun _ _ => understands_entries rfl (takes_interfaceEntry hnames)
          (fun _ _ => .inputs) (fun _ _ => rfl) (fun _ _ => rfl) fun _ _ => rfl
      · rename_i hk
        rw [hk]
        exact .checked fun _ _ => understands_entries rfl (takes_interfaceEntry hnames)
          (fun _ _ => .outputs) (fun _ _ => rfl) (fun _ _ => rfl) fun _ _ => rfl
      · rename_i hk
        rw [hk]
        exact .checked fun _ _ => understands_entries rfl (takes_externalEntry hnames)
          (fun _ _ => .externals) (fun _ _ => rfl) (fun _ _ => rfl) fun _ _ => rfl
      · rename_i hk
        rw [hk]
        exact .checked fun _ _ => understands_entries rfl (takes_optionEntry hnames)
          (fun _ _ => .options) (fun _ _ => rfl) (fun _ _ => rfl) fun _ _ => rfl
      · rename_i hk
        rw [hk]
        refine .cursor fun c => .ite (fun _ => .checked fun _ _ => ?_) fun _ => .checked fun _ _ =>
          ?_
        · exact understands_entries rfl (takes_constEntry hnames) (fun _ _ => .consts)
            (fun _ _ => rfl) (fun _ _ => rfl) fun _ _ => rfl
        · refine ((takes_variableDeclaration hnames fuel).mono fun ks s rest hs h => ?_).at_ _
          obtain ⟨p, d, rfl, hd, hagree⟩ := hs h
          exact .of_legible (.var hd) rfl rfl (by simpa [Stmt.kinds] using hagree)
      · refine .checked fun _ _ => ?_
        refine ((takes_optional hnames (takes_braced ih fuel) fuel fuel).mono ?_).at_ _
        intro ks s rest hs h
        obtain ⟨hread, u, c, b, o, rfl⟩ := hs h
        exact ⟨hread, rfl⟩
      · rename_i hk
        rw [hk]
        refine .checked fun _ _ => (@takes_library names fuel _).mono fun ks s rest hs h => ?_
        obtain ⟨p, path, rfl, hlegible, hagree⟩ := hs h
        exact .of_legible hlegible rfl rfl hagree
      · refine (takes_declares hnames fun t name span => ?_).at_ _
        refine .kind fun k => .ite (fun _ => Takes.at_ ?_ _) fun _ => Takes.at_ ?_ _
        · refine (takes_function hnames has.2 t name).mono fun ls s rest hs ks hks h => ?_
          obtain ⟨p, f, items, rfl, rfl, rfl, hparameters, hentry, hitems, hagree'⟩ := hs h.right
          obtain ⟨hdeclares, hagree⟩ := hks h.left
          refine .of_legible (.function ⟨hdeclares, hparameters, hentry⟩ hitems) rfl rfl ?_
          have hplain : Plain (entryKinds f.entry) := by
            cases f.entry with
            | none => exact plain_nil
            | some e => exact plain_bracketed _
          simpa [Stmt.kinds, Signature.kinds] using (hagree.append hagree').right hplain
        · refine .checked fun _ _ => ?_
          refine (takes_finishVariable hnames fuel _ false t name).mono fun ls s rest hs ks hks h =>
            ?_
          obtain ⟨hdeclares, hagree⟩ := hks h.left
          obtain ⟨p, init, rfl, hinit, hagree'⟩ := hs h.right
          refine .of_legible (.var ⟨hdeclares, hinit⟩) rfl rfl ?_
          simpa [Stmt.kinds, VariableDeclaration.kinds] using hagree.append hagree'
      · exact (Takes.unexpected _).at_ _

/-- All declarations are read, and they are legible. -/
theorem takes_file (fuel : Nat) : Takes (file names fuel) fun ks s rest => Writable ks →
    rest.headD .eof = .eof ∧ ∃ p items, s = .block p items ∧
      (∀ i ∈ items, Legible names .file i) ∧ Agree ks (kindsList items) := by
  have hlist := takes_upTo .eof ((understands_item hnames fuel).mono fun ks s rest hs h =>
    (⟨(hs h).legible, (hs h).agree⟩ : Legible names .file s ∧ Agree ks s.kinds)) (fuel + 1)
  refine .look fun start => Takes.at_ (.bindRest hlist fun items => .kind fun k => ?_) _
  have hend (p : Span) (rest : List Kind) (hrest : rest.headD .eof = .eof) (ks : List Kind)
      (hks : Writable ks → (∀ i ∈ items, Legible names .file i) ∧
        Agree ks (items.flatMap Stmt.kinds)) (h : Writable (ks ++ [])) :
      rest.headD .eof = .eof ∧ ∃ p' items', Stmt.block p items = .block p' items' ∧
        (∀ i ∈ items', Legible names .file i) ∧ Agree (ks ++ []) (kindsList items') := by
    rw [List.append_nil] at h ⊢
    obtain ⟨hitems, hagree⟩ := hks h
    exact ⟨hrest, p, items, rfl, hitems, by rwa [Stmt.kindsList_eq_flatMap]⟩
  refine .ite (fun hk => ?_) fun _ => (Takes.unexpected _).at_ _
  subst hk
  split
  · exact .pure (hend _)
  · exact .spanFrom fun p => .pure (hend p)

end Items

/-- What a file is read to is made of legible declarations, which stand for all its tokens. -/
theorem legible_of_parseTokens {tokens : List Token} {tree : Stmt} {ls : List Kind}
    (hkinds : tokens.map Token.kind = ls ++ [.eof]) (hw : Writable ls)
    (h : parseTokens tokens Registry.standard = .ok tree) :
    ∃ p items, tree = .block p items ∧
      (∀ i ∈ items, Legible (Names.ofTokens Registry.standard tokens) .file i) ∧
      Agree ls (kindsList items) := by
  obtain ⟨⟨tree, c⟩, hrun, hout⟩ := Except.bind_eq_ok_iff.mp h
  cases hout
  obtain ⟨ks, hks, heof, hfile⟩ := takes_file rfl _ _ _ _ hrun
  have hall : ls ++ [.eof] = ks ++ c.kinds := hkinds.symm.trans hks
  -- No end of file is among the tokens taken, so they are all or some of the others.
  obtain ⟨more, rfl, hrest⟩ : ∃ more, ls = ks ++ more ∧ c.kinds = more ++ [.eof] := by
    rcases List.append_eq_append_iff.mp hall with ⟨taken, rfl, htaken⟩ | ⟨more, hls, hrest⟩
    · cases taken with
      | nil => exact ⟨[], by simp, by simpa using htaken.symm⟩
      | cons k taken =>
          obtain ⟨rfl, -⟩ := List.cons.inj htaken
          exact absurd (by simp) heof
    · exact ⟨more, hls, hrest⟩
  obtain ⟨hwks, hwmore⟩ := Kind.writable_append.mp hw
  obtain ⟨hend, p, items, rfl, hitems, hagree⟩ := hfile hwks
  cases more with
  | nil => exact ⟨p, items, rfl, hitems, by simpa using hagree⟩
  | cons k more =>
      obtain rfl : k = .eof := by simpa [hrest] using hend
      exact (Kind.writable_cons.mp hwmore).1.elim

end Parse

end Shading
