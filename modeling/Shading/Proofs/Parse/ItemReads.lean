import Shading.Proofs.Parse.ItemLegible
import Shading.Proofs.Parse.StmtReads

/-!
# Legible files are read back

The tokens that a legible declaration is printed with are read as it, before every token that
may stand after it; a semicolon may not, since one after a closing brace is taken with it.
-/

namespace Shading

namespace Parse

open Stmt (Place Legible EndsBefore kindsList)

variable {α β : Type} {names : Names} {fuel : Nat}

/-- The second token at the cursor. -/
theorem Reads.cursor {f : Cursor → Parse β} {before after : List Kind} {Q : β → Prop}
    (h : ∀ c : Cursor, c.nextKind = (before.drop 1).headD .eof → Reads (f c) before after Q) :
    Reads (get >>= f) before after Q := by
  intro c hc
  refine h c ?_ c hc
  rw [← hc, Cursor.kinds, ← List.map_drop, Cursor.nextKind]
  cases c.rest.drop 1 <;> rfl

/-- A field is read back from its kinds. -/
theorem reads_structField {f : StructField} (hf : Declares names f.name f.type)
    (rest : List Kind) : Reads (structField names) (f.kinds ++ rest) rest (· = f) := by
  simp only [StructField.kinds, List.cons_append, List.append_assoc, List.nil_append]
  refine .identifier fun span => .expect (.bind (reads_type hf.type (by simp)) ?_)
  rintro _ rfl
  exact .expect (.pure rfl)

section Entries

variable {entry : Parse α} {kinds : α → List Kind} {erase : α → α} {as : List α}
  (hentry : ∀ a ∈ as, (kinds a).length ≤ fuel → ∀ rest, Reads entry (kinds a ++ rest) rest
    fun b => erase b = erase a)
  (hhead : ∀ a ∈ as, ∃ k ks, kinds a = k :: ks ∧ k ≠ .symbol .rbrace ∧ k ≠ .eof)
  (hlength : (as.flatMap kinds).length ≤ fuel)
include hentry hhead hlength

/-- Declarations up to a closing brace. -/
theorem reads_lines (rest : List Kind) :
    Reads (upTo (.symbol .rbrace) entry (fuel + 1))
      (as.flatMap kinds ++ .symbol .rbrace :: rest) (.symbol .rbrace :: rest)
      fun bs => bs.map erase = as.map erase := by
  have hcount : as.length ≤ (as.flatMap kinds).length := by
    apply length_le_flatMap
    intro a ha
    obtain ⟨k, ks, hks, -⟩ := hhead a ha
    simp [hks]
  refine reads_upTo (.inl rfl) (by omega) hhead ?_
  rintro xs a ys rfl
  refine hentry a (by simp) ?_ _
  simp only [List.flatMap_append, List.flatMap_cons, List.length_append] at hlength
  omega

/-- A block of entries, with no semicolon after it. -/
theorem reads_entries {k : Keyword} {rest : List Kind}
    (hrest : rest.headD .eof ≠ .symbol .semicolon) :
    Reads (entries entry fuel) (.keyword k :: (Kind.braced (as.flatMap kinds) ++ rest)) rest
      fun bs => bs.map erase = as.map erase := by
  simp only [Kind.braced, List.cons_append, List.append_assoc, List.nil_append]
  refine .take (by simp) (.expect (.bind (reads_lines hentry hhead hlength rest) fun bs hbs => ?_))
  exact .expect (.eat_other hrest (.pure hbs))

omit hentry hhead hlength in
/-- The entries of a block are fewer tokens than the block. -/
theorem length_of_block {k : Keyword}
    (h : (.keyword k :: Kind.braced (as.flatMap kinds)).length ≤ fuel + 1) :
    (as.flatMap kinds).length ≤ fuel := by
  simp only [Kind.braced, List.length_cons, List.length_append] at h
  omega

/-- A block of entries as a declaration. -/
theorem reads_block {k : Keyword} {make : Span → List α → Stmt}
    (hmake : ∀ p bs, (make p bs).eraseSpans = make .dummy (bs.map erase)) {rest : List Kind}
    (hrest : rest.headD .eof ≠ .symbol .semicolon) (start p : Span) :
    Reads (do
      let bs ← entries entry fuel
      return make (← spanFrom start) bs)
      (.keyword k :: (Kind.braced (as.flatMap kinds) ++ rest)) rest
      fun s => s.eraseSpans = (make p as).eraseSpans := by
  refine .bind (reads_entries hentry hhead hlength hrest) fun bs hbs => .spanFrom fun q => .pure ?_
  rw [hmake, hmake, hbs]

end Entries

section Declarations

variable {rest : List Kind}

/-- The tokens are read as the attributes, before any that do not start more of them. -/
def ReadsAttributes (fuel : Nat) (front : List Kind)
    (as : List (String × List AttributeArgument)) : Prop :=
  ∀ tail : List Kind, tail.headD .eof ≠ .symbol .lbracket →
    Reads (attributes fuel) (front ++ tail) tail fun x => x.list.map view = as

theorem readsAttributes_nil : ReadsAttributes fuel [] [] := fun _ htail =>
  (reads_noAttributes htail).mono fun x hx => by simp [hx]

theorem readsAttributes_bracketed {as : List (String × List AttributeArgument)} (hne : as ≠ [])
    (hfits : ∀ a ∈ as, Fits a.2) (hfuel : (bracketed as).length ≤ fuel) :
    ReadsAttributes fuel (bracketed as) as := fun _ htail =>
  reads_attributes hne hfits hfuel htail

/-- The attributes, the type and the name of an entry. -/
theorem reads_entryHead {front : List Kind} {as : List (String × List AttributeArgument)}
    (has : ReadsAttributes fuel front as) {name : String} {t : Ty} (h : Declares names name t)
    (rest : List Kind) :
    Reads (entryHead names fuel) (front ++ (t.kinds ++ .ident name :: rest)) rest
      fun head => head.1.list.map view = as ∧ head.2 = (t, name) := by
  refine .bind (has _ (by simp [Ty.kinds])) fun x hx => ?_
  exact reads_declares h fun _ => .pure ⟨hx, rfl⟩

/-- The same without attributes. -/
theorem reads_plainHead {name : String} {t : Ty} (h : Declares names name t) (rest : List Kind) :
    Reads (entryHead names fuel) (t.kinds ++ .ident name :: rest) rest
      fun head => head.1.list = [] ∧ head.2 = (t, name) :=
  (reads_entryHead readsAttributes_nil h rest).mono fun _ hhead =>
    ⟨List.map_eq_nil_iff.mp hhead.1, hhead.2⟩

/-- An entry of an interface is read back, up to spans. The other entries are alike. -/
theorem reads_interfaceEntry {v : InterfaceVariable} (hv : v.Legible names)
    (hfuel : v.kinds.length ≤ fuel) (rest : List Kind) :
    Reads (interfaceEntry names fuel) (v.kinds ++ rest) rest fun w => w.erased = v.erased := by
  have hne : v.slot.attributes ≠ [] := by
    cases v.slot <;> simp [Slot.attributes]
  have hfits : ∀ a ∈ v.slot.attributes, Fits a.2 := by
    have hlocation := hv.location
    cases hslot : v.slot with
    | location n => simpa [Slot.attributes, Fits] using hlocation n hslot
    | builtin b => simp [Slot.attributes, Fits]
  simp only [InterfaceVariable.kinds, List.length_append] at hfuel
  have hattributes : ReadsAttributes fuel (bracketed v.slot.attributes) v.slot.attributes :=
    readsAttributes_bracketed hne hfits (by omega)
  simp only [InterfaceVariable.kinds, List.append_assoc, List.cons_append, List.nil_append]
  refine .bind (reads_entryHead hattributes hv.declares _) fun head hhead => .expect ?_
  refine .checked (Attributes.slot_eq hhead.1) (.spanFrom fun p => .pure ?_)
  simp [InterfaceVariable.erased, hhead.2]

theorem reads_externalEntry {v : ExternalVariable} (hv : v.Legible names)
    (hfuel : v.kinds.length ≤ fuel) (rest : List Kind) :
    Reads (externalEntry names fuel) (v.kinds ++ rest) rest fun w => w.erased = v.erased := by
  have hfits : ∀ a ∈ v.attributes, Fits a.2 := by
    have hset := hv.set
    have hbinding := hv.binding
    cases hstorage : v.storage <;>
      simpa [ExternalVariable.attributes, Fits, hstorage] using ⟨hset, hbinding⟩
  simp only [ExternalVariable.kinds, List.length_append] at hfuel
  have hattributes : ReadsAttributes fuel (bracketed v.attributes) v.attributes :=
    readsAttributes_bracketed (by simp [ExternalVariable.attributes]) hfits (by omega)
  simp only [ExternalVariable.kinds, List.append_assoc, List.cons_append, List.nil_append]
  refine .bind (reads_entryHead hattributes hv.declares _) fun head hhead => .expect ?_
  refine .checked (Attributes.binding_eq hhead.1) (.spanFrom fun p => .pure ?_)
  simp [ExternalVariable.erased, hhead.2]

theorem reads_optionEntry {d : OptionDeclaration} (hd : d.Legible names)
    (hfuel : d.kinds.length ≤ fuel) (rest : List Kind) :
    Reads (optionEntry names fuel) (d.kinds ++ rest) rest fun x => x.erased = d.erased := by
  simp only [OptionDeclaration.kinds, List.append_assoc, List.cons_append, List.nil_append]
  refine .bind (reads_plainHead hd.declares _) fun head hhead => ?_
  refine .checked (Attributes.none_eq hhead.1) ?_
  have hend {value : Option Expr} (hvalue : value.map Expr.erased = d.default.map Expr.erased) :
      Reads (do
        expect .semicolon
        return (⟨head.2.2, head.2.1, value, ← spanFrom head.1.start.span⟩ : OptionDeclaration))
        (.symbol .semicolon :: rest) rest fun x => x.erased = d.erased :=
    .expect (.spanFrom fun p => .pure (by simp [OptionDeclaration.erased, hhead.2, hvalue]))
  cases hdefault : d.default with
  | none => exact .eat_other (by simp [Expr.kindsAfter]) (hend (by simp [hdefault]))
  | some e =>
      have hlength : e.kinds.length ≤ fuel := by
        simp only [OptionDeclaration.kinds, hdefault, Expr.kindsAfter, List.length_append,
          List.length_cons] at hfuel
        omega
      refine .eat (.bind (reads_expression (hd.default e hdefault) hlength rfl rest) ?_)
      exact fun e' he' => hend (by simp [hdefault, he'])

theorem reads_constEntry {d : ConstDeclaration} (hd : d.Legible names)
    (hfuel : d.kinds.length ≤ fuel) (rest : List Kind) :
    Reads (constEntry names fuel) (d.kinds ++ rest) rest fun x => x.erased = d.erased := by
  have hlength : d.value.kinds.length ≤ fuel := by
    simp only [ConstDeclaration.kinds, List.length_append, List.length_cons] at hfuel
    omega
  simp only [ConstDeclaration.kinds, List.append_assoc, List.cons_append, List.nil_append]
  refine .bind (reads_plainHead hd.declares _) fun head hhead => ?_
  refine .checked (Attributes.none_eq hhead.1) (.expect ?_)
  refine .bind (reads_expression hd.value hlength rfl rest) fun e he => .expect ?_
  exact .spanFrom fun p => .pure (by simp [ConstDeclaration.erased, hhead.2, he])

theorem reads_parameter {p : Parameter} (hp : Declares names p.name p.type) (rest : List Kind) :
    Reads (parameter names) (p.kinds ++ rest) rest fun q => q.erased = p.erased := by
  simp only [Parameter.kinds, List.append_assoc, List.cons_append, List.nil_append]
  refine .look fun start _ => reads_declares hp fun _ => .spanFrom fun s => .pure rfl

/-- The parameters of a function in their parentheses. -/
theorem reads_parameters {ps : List Parameter} (hps : ∀ p ∈ ps, Declares names p.name p.type)
    (hfuel : (argumentList (ps.map Parameter.kinds)).length ≤ fuel + 1)
    {f : List Parameter → Parse α} {before after : List Kind} {Q : α → Prop}
    (hf : ∀ qs : List Parameter, qs.map Parameter.erased = ps.map Parameter.erased →
      Reads (f qs) before after Q) :
    Reads (do
      expect .lparen
      let ps ←
        if (← kind) = .symbol .rparen then pure []
        else separated (parameter names) (fuel + 1)
      expect .rparen
      f ps) (argumentList (ps.map Parameter.kinds) ++ before) after Q := by
  cases ps with
  | nil =>
      refine .expect (.kind ?_)
      rw [if_pos (by rfl)]
      refine Reads.bind (P := (· = [])) (.pure rfl) ?_
      rintro _ rfl
      exact .expect (hf [] rfl)
  | cons p ps =>
      have hpos : ∀ ks ∈ (p :: ps).map Parameter.kinds, 0 < ks.length := by
        intro ks hks
        obtain ⟨q, -, rfl⟩ := List.mem_map.mp hks
        simp [Parameter.kinds]
      have hcount := count_le_commas hpos
      simp only [argumentList, List.length_append, List.length_cons,
        List.length_map] at hfuel hcount
      have hlist : Reads (separated (parameter names) (fuel + 1))
          (commas ((p :: ps).map Parameter.kinds) ++ .symbol .rparen :: before)
          (.symbol .rparen :: before)
          fun qs => qs.map Parameter.erased = (p :: ps).map Parameter.erased := by
        refine reads_separated (by simp) (List.cons_ne_nil p ps) (by simp; omega) ?_ ?_
        · exact fun q hq tail => reads_parameter (hps q hq) _
        · exact fun q hq => reads_parameter (hps q hq) _
      have hhead : (commas ((p :: ps).map Parameter.kinds) ++ .symbol .rparen :: before).headD .eof
          ≠ .symbol .rparen := by
        cases ps <;> simp [commas, Parameter.kinds, Ty.kinds]
      simp only [argumentList, List.cons_append, List.append_assoc, List.nil_append]
      refine .expect (.kind ?_)
      rw [if_neg hhead]
      exact .bind hlist fun qs hqs => .expect (hf qs hqs)

theorem readsAttributes_entry {entry : Option EntryPoint} (h : ∀ e, entry = some e → e.Legible)
    (hfuel : (entryKinds entry).length ≤ fuel) :
    ReadsAttributes fuel (entryKinds entry) ((entry.map EntryPoint.attributes).getD []) := by
  cases entry with
  | none => exact readsAttributes_nil
  | some e =>
      have hfits : ∀ a ∈ e.attributes, Fits a.2 := by
        have hsizes := (h e rfl).sizes
        cases hworkgroup : e.workgroup with
        | none => simp [EntryPoint.attributes, hworkgroup, Fits]
        | some g =>
            have hlt : ∀ n ∈ [g.x, g.y, g.z], n < arraySizeBound :=
              fun n hn => (hsizes g hworkgroup n hn).2
            simpa [EntryPoint.attributes, hworkgroup, Fits, or_imp, forall_and] using hlt
      exact readsAttributes_bracketed (by simp [EntryPoint.attributes]) hfits hfuel

/-- The entry point of a function is read back from its attributes. -/
theorem entry_of_attributes {entry : Option EntryPoint} (h : ∀ e, entry = some e → e.Legible)
    {as : Attributes} (has : as.list.map view = (entry.map EntryPoint.attributes).getD []) :
    as.entry = .ok entry := by
  cases entry with
  | none => exact Attributes.entry_none (List.map_eq_nil_iff.mp has)
  | some e => exact Attributes.entry_eq (h e rfl) has

/-- The parameters and the body of a function. -/
theorem reads_function {f : Signature} (hf : f.Legible names) {items : List Stmt}
    (hitems : ∀ i ∈ items, Legible names .body i) {as : Attributes}
    (has : as.list.map view = (f.entry.map EntryPoint.attributes).getD [])
    (hparameters : (argumentList (f.parameters.map Parameter.kinds)).length ≤ fuel + 1)
    (hlength : (kindsList items).length ≤ fuel) (rest : List Kind) :
    Reads (function names fuel as f.returnType f.name)
      (argumentList (f.parameters.map Parameter.kinds) ++
        (Kind.braced (kindsList items) ++ rest)) rest
      fun s => s.eraseSpans = .function .dummy f.erased (items.map Stmt.eraseSpans) := by
  refine .checked (entry_of_attributes hf.entry has) ?_
  refine reads_parameters hf.parameters hparameters fun ps hps => ?_
  refine .bind (reads_braced (restores_statement fuel) hitems hlength rest) fun body hbody => ?_
  exact .spanFrom fun s => .pure (by simp [Signature.erased, hps, hbody])

theorem dottedKinds_cons (part : String) (parts : List String) :
    dottedKinds (part :: parts) =
      .ident part :: parts.flatMap fun p => [.symbol .dot, .ident p] := by
  induction parts generalizing part with
  | nil => rfl
  | cons p ps ih => simp [dottedKinds, ih p]

/-- The parts of a path are read to the last dot. -/
theorem reads_libraryParts {parts : List String}
    (hfuel : parts.length ≤ fuel) (hrest : rest.headD .eof ≠ .symbol .dot) :
    Reads (libraryParts (fuel + 1)) (parts.flatMap (fun p => [.symbol .dot, .ident p]) ++ rest) rest
      (· = parts) := by
  induction parts generalizing fuel with
  | nil => exact .eat_other hrest (.pure rfl)
  | cons p ps ih =>
      obtain ⟨fuel, rfl⟩ : ∃ n, fuel = n + 1 :=
        ⟨fuel - 1, by simp only [List.length_cons] at hfuel; omega⟩
      refine .eat (.identifier fun span => .bind (ih (by simpa using hfuel)) ?_)
      rintro _ rfl
      exact .pure rfl

/-- A directive is read back from its kinds. -/
theorem reads_library {path : List String} (hne : path ≠ []) (start : Span)
    (hfuel : (dottedKinds path).length ≤ fuel) (rest : List Kind) :
    Reads (library fuel start)
      (.keyword .include :: (dottedKinds path ++ .symbol .semicolon :: rest)) rest
      fun s => s.eraseSpans = .library .dummy path := by
  obtain ⟨part, parts, rfl⟩ := List.exists_cons_of_ne_nil hne
  rw [dottedKinds_cons] at hfuel ⊢
  have hparts : parts.length ≤ (parts.flatMap fun p => [Kind.symbol .dot, .ident p]).length :=
    length_le_flatMap (by simp)
  have hcount : parts.length ≤ fuel := by
    simp only [List.length_cons] at hfuel
    omega
  refine .take (by simp) (.identifier fun span => .bind (reads_libraryParts hcount (by simp)) ?_)
  rintro _ rfl
  exact .expect (.spanFrom fun s => .pure rfl)

/-- A structure is read back from its kinds. -/
theorem reads_struct {d : StructDeclaration} (hd : ∀ f ∈ d.fields, Declares names f.name f.type)
    (start : Span) (hfuel : (d.fields.flatMap StructField.kinds).length ≤ fuel)
    (hrest : rest.headD .eof ≠ .symbol .semicolon) :
    Reads (struct names fuel start) (.keyword .struct :: .ident d.name ::
      (Kind.braced (d.fields.flatMap StructField.kinds) ++ rest)) rest
      fun s => s.eraseSpans = .struct .dummy d := by
  have hlines : Reads (upTo (.symbol .rbrace) (structField names) (fuel + 1))
      (d.fields.flatMap StructField.kinds ++ .symbol .rbrace :: rest) (.symbol .rbrace :: rest)
      fun fields => fields.map id = d.fields.map id :=
    reads_lines (fun f hf _ tail => reads_structField (hd f hf) tail)
      (fun f _ => ⟨_, _, rfl, by simp, by simp⟩) hfuel rest
  simp only [Kind.braced, List.cons_append, List.append_assoc, List.nil_append]
  refine .take (by simp) (.identifier fun span => .expect (.bind hlines fun fields hfields => ?_))
  refine .expect (.eat_other hrest (.spanFrom fun s => .pure ?_))
  obtain rfl : fields = d.fields := by simpa using hfields
  simp

end Declarations

section Items

/-- A declaration without attributes, by its first token. -/
theorem Reads.withoutAttributes {f : Attributes → Token → Parse β} {k : Kind}
    {before after : List Kind} {Q : β → Prop} (hk : k ≠ .symbol .lbracket)
    (h : ∀ (as : Attributes) (s : Span) (p : Position), as.list = [] →
      Reads (f as ⟨k, s, p⟩) (k :: before) after Q) :
    Reads (do
      let as ← attributes fuel
      let t ← Parse.look
      f as t) (k :: before) after Q := by
  refine .bind (reads_noAttributes hk) fun as has => .look fun t ht => ?_
  obtain ⟨first, s, p⟩ := t
  obtain rfl : first = k := ht
  exact h as s p has

/-- A function with the attributes before it. -/
theorem reads_functionItem {p : Span} {f : Signature} (hf : f.Legible names) {items : List Stmt}
    (hitems : ∀ i ∈ items, Legible names .body i)
    (hlength : (Stmt.function p f items).kinds.length ≤ fuel + 1) (rest : List Kind) :
    Reads (item names (fuel + 1)) ((Stmt.function p f items).kinds ++ rest) rest
      fun s => s.eraseSpans = .function .dummy f.erased (items.map Stmt.eraseSpans) := by
  simp only [Stmt.kinds, Signature.kinds, Kind.braced, List.length_append, List.length_cons]
    at hlength
  have hparameters : (argumentList (f.parameters.map Parameter.kinds)).length ≤ fuel + 1 := by omega
  simp only [Stmt.kinds, Signature.kinds, List.append_assoc, List.cons_append]
  have hfront : (entryKinds f.entry).length ≤ fuel := by omega
  have hattributes := readsAttributes_entry hf.entry hfront
  refine .bind (hattributes _ (by simp [Ty.kinds])) fun as has => .look fun t ht => ?_
  obtain ⟨first, sp, position⟩ := t
  obtain rfl : first = .ident f.returnType.baseName := ht
  refine reads_declares hf.declares fun _ => .kind ?_
  rw [if_pos (headD_argumentList _ _)]
  exact reads_function hf hitems has hparameters (by omega) rest

/-- A variable of a file, with or without the word `const` before it. -/
theorem reads_variableItem {d : VariableDeclaration} (hd : d.Legible names)
    (hlength : d.kinds.length ≤ fuel + 1) (rest : List Kind) :
    Reads (item names (fuel + 1)) (d.kinds ++ rest) rest
      fun s => s.eraseSpans = .var .dummy d.erased := by
  cases hconst : d.isConst with
  | true =>
      have hread := reads_variableDeclaration hd hlength rest
      simp only [VariableDeclaration.kinds, hconst, if_true, List.cons_append, List.nil_append,
        List.append_assoc] at hread ⊢
      refine .withoutAttributes (by simp) fun as _ _ has => .cursor fun c hc => ?_
      rw [if_neg (by rw [hc]; simp [Ty.kinds])]
      exact .checked (Attributes.none_eq has) hread
  | false =>
      have hfuel : (Expr.kindsAfter [.symbol .eq] d.initializer).length ≤ fuel := by
        simp only [VariableDeclaration.kinds, List.length_append, List.length_cons] at hlength
        omega
      have hread (start : Span) := reads_finishVariable hd hfuel start rest
      simp only [hconst] at hread
      simp only [VariableDeclaration.kinds, hconst, Bool.false_eq_true, if_false, List.nil_append,
        List.append_assoc, List.cons_append]
      refine .withoutAttributes (by simp) fun as _ _ has => ?_
      refine reads_declares hd.declares fun _ => .kind ?_
      rw [if_neg (by cases d.initializer <;> simp [Expr.kindsAfter])]
      exact .checked (Attributes.none_eq has) (hread as.start.span)

/-- Every legible declaration is read back from the tokens it is printed with. -/
theorem restores_item (fuel : Nat) : Restores names .file fuel (item names fuel) := by
  induction fuel with
  | zero =>
      intro s hs hlength
      exact absurd (List.length_eq_zero_iff.mp (Nat.le_zero.mp hlength)) hs.kinds_ne_nil
  | succ fuel ih =>
      intro s hs hlength rest hrest
      have hitems (is : List Stmt) (his : ∀ i ∈ is, Legible names .file i)
          (hlength : (kindsList is).length ≤ fuel) (rest : List Kind) :=
        reads_braced ih his hlength rest
      cases s with
      | struct p d =>
          cases hs with
          | struct hname hfields =>
              simp only [Stmt.kinds, Kind.braced, List.length_cons, List.length_append] at hlength
              refine .withoutAttributes (by simp) fun as _ _ has => ?_
              refine .checked (Attributes.none_eq has) ?_
              rw [Stmt.erased_struct]
              exact reads_struct hfields as.start.span (by omega) hrest.semicolon
      | inputs p entries =>
          cases hs with
          | inputs hall =>
              have hfuel : (entries.flatMap InterfaceVariable.kinds).length ≤ fuel :=
                  length_of_block hlength
              refine .withoutAttributes (by simp) fun as _ _ has => ?_
              refine .checked (Attributes.none_eq has) ?_
              exact reads_block (fun v hv => reads_interfaceEntry (hall v hv))
                (fun v _ => ⟨_, _, rfl, by simp, by simp⟩) hfuel (by simp) hrest.semicolon _ p
      | outputs p entries =>
          cases hs with
          | outputs hall =>
              have hfuel : (entries.flatMap InterfaceVariable.kinds).length ≤ fuel :=
                  length_of_block hlength
              refine .withoutAttributes (by simp) fun as _ _ has => ?_
              refine .checked (Attributes.none_eq has) ?_
              exact reads_block (fun v hv => reads_interfaceEntry (hall v hv))
                (fun v _ => ⟨_, _, rfl, by simp, by simp⟩) hfuel (by simp) hrest.semicolon _ p
      | externals p entries =>
          cases hs with
          | externals hall =>
              have hfuel : (entries.flatMap ExternalVariable.kinds).length ≤ fuel :=
                  length_of_block hlength
              refine .withoutAttributes (by simp) fun as _ _ has => ?_
              refine .checked (Attributes.none_eq has) ?_
              exact reads_block (fun v hv => reads_externalEntry (hall v hv))
                (fun v _ => ⟨_, _, rfl, by simp, by simp⟩) hfuel (by simp) hrest.semicolon _ p
      | options p entries =>
          cases hs with
          | options hall =>
              have hfuel : (entries.flatMap OptionDeclaration.kinds).length ≤ fuel :=
                  length_of_block hlength
              refine .withoutAttributes (by simp) fun as _ _ has => ?_
              refine .checked (Attributes.none_eq has) ?_
              exact reads_block (fun d hd => reads_optionEntry (hall d hd))
                (fun d _ => ⟨_, _, rfl, by simp, by simp⟩) hfuel (by simp) hrest.semicolon _ p
      | consts p entries =>
          cases hs with
          | consts hall =>
              have hfuel : (entries.flatMap ConstDeclaration.kinds).length ≤ fuel :=
                  length_of_block hlength
              refine .withoutAttributes (by simp) fun as _ _ has => .cursor fun c hc => ?_
              rw [if_pos (show c.nextKind = .symbol .lbrace from hc)]
              refine .checked (Attributes.none_eq has) ?_
              exact reads_block (fun d hd => reads_constEntry (hall d hd))
                (fun d _ => ⟨_, _, rfl, by simp, by simp⟩) hfuel (by simp) hrest.semicolon _ p
      | function p f body =>
          cases hs with
          | function hf hbody =>
              rw [Stmt.erased_function]
              exact reads_functionItem hf hbody hlength rest
      | library p path =>
          cases hs with
          | library hne hpath =>
              simp only [Stmt.kinds, List.length_cons, List.length_append] at hlength
              simp only [Stmt.kinds, List.cons_append, List.append_assoc, List.nil_append]
              refine .withoutAttributes (by simp) fun as s _ has => ?_
              refine .checked (Attributes.none_eq has) ?_
              exact reads_library hne s (by omega) rest
      | var p d =>
          cases hs with
          | var hd =>
              rw [Stmt.erased_var]
              exact reads_variableItem hd hlength rest
      | optional p c b o =>
          refine .withoutAttributes (by simp) fun as _ _ has => ?_
          refine .checked (Attributes.none_eq has) ?_
          exact reads_optional hitems hs hlength hlength rest hrest
      | branch _ _ _ | forLoop _ _ _ _ _ | whileLoop _ _ _ | doWhile _ _ _ | expr _ _
      | leaveLoop _ | nextRound _ | ret _ _ | discard _ | block _ _ => cases hs

/-- A file is read back from the tokens of its declarations. -/
theorem reads_file {items : List Stmt} (hitems : ∀ i ∈ items, Legible names .file i)
    (hfuel : (kindsList items).length ≤ fuel) :
    Reads (file names fuel) (kindsList items ++ [.eof]) [.eof]
      fun s => s.eraseSpans = .block .dummy (items.map Stmt.eraseSpans) := by
  rw [Stmt.kindsList_eq_flatMap] at hfuel ⊢
  have hcount := length_le_flatMap fun i hi => (hitems i hi).kinds_ne_nil
  have hlist : Reads (upTo .eof (item names fuel) (fuel + 1))
      (items.flatMap Stmt.kinds ++ [.eof]) [.eof]
      fun is => is.map Stmt.eraseSpans = items.map Stmt.eraseSpans := by
    refine reads_upTo (.inl rfl) (by omega) ?_ ?_
    · intro i hi
      obtain ⟨k, ks, hks, hk, -⟩ := (hitems i hi).eq_cons
      simp only [Stmt.closers, List.mem_cons, List.not_mem_nil, or_false, not_or] at hk
      exact ⟨k, ks, hks, hk.1, hk.1⟩
    · rintro xs i ys rfl
      refine restores_item fuel i (hitems i (by simp)) ?_ _ ?_
      · simp only [List.flatMap_append, List.flatMap_cons, List.length_append] at hfuel
        omega
      · exact Stmt.endsBefore_items (fun j hj => hitems j (by simp [hj])) (by simp) (by simp)
  refine .look fun start _ => .bind hlist fun is his => .kind ?_
  rw [if_pos (by rfl)]
  cases is with
  | nil => exact .pure (by simp [← his])
  | cons i is => exact .spanFrom fun p => .pure (by simp [← his])

end Items

end Parse

end Shading
