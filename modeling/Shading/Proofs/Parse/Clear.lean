import Shading.Proofs.Parse.Located
import Shading.Proofs.Parse.Progress
import Shading.Proofs.Parse.TypeNames
import Shading.Proofs.Print.Clear
import Shading.Proofs.Token.Spellable

/-!
# Names of a parsed tree

A name in a parsed tree is that of a token or of a type that the registry knows, or a word of
the language. So a tree that is read from tokens without pairs has none, if no known type is
named with one.
-/

namespace Shading

open Kind (AllClear)
open Piece (spell)

variable {H : Prop}

namespace Expr

theorem piecesList_eq_map (es : List Expr) : piecesList es = es.map pieces := by
  induction es with
  | nil => rfl
  | cons e es ih => rw [piecesList, ih, List.map_cons]

mutual

/-- Erased trees have the same names. -/
theorem allClear_erased (e : Expr) :
    AllClear H (spell e.erased.pieces) ↔ AllClear H (spell e.pieces) := by
  cases e with
  | constant _ _ | ref _ _ => exact Iff.rfl
  | index _ base place => simp [pieces, allClear_erased base, allClear_erased place]
  | field _ base name | swizzle _ base selection => simp [pieces, allClear_erased base]
  | assign _ op target value => simp [pieces, allClear_erased target, allClear_erased value]
  | unary _ op operand => simp [pieces, allClear_erased operand]
  | binary _ op left right => simp [pieces, allClear_erased left, allClear_erased right]
  | call _ name args | builtin _ f args | cast _ target args =>
      simp [pieces, allClear_erasedList args]
  | ternary _ c t f => simp [pieces, allClear_erased c, allClear_erased t, allClear_erased f]

theorem allClear_erasedList (es : List Expr) :
    (∀ ps ∈ piecesList (es.map erased), AllClear H (spell ps)) ↔
      ∀ ps ∈ piecesList es, AllClear H (spell ps) := by
  cases es with
  | nil => exact Iff.rfl
  | cons e es => simp [piecesList, allClear_erased e, allClear_erasedList es]

end

end Expr

namespace Parse

variable {α β : Type} {m : Parse α} {names : Names} {P : α → Prop} {Q : β → Prop}

/-- Read from tokens without pairs, the value has the property. -/
def Draws (H : Prop) (m : Parse α) (P : α → Prop) : Prop :=
  ∀ c a c', AllClear H c.kinds → m c = .ok (a, c') → P a ∧ AllClear H c'.kinds

namespace Draws

/-- What is left of the tokens has no pairs, whatever was read. -/
theorem of_advances (hm : Advances m) (h : ∀ c a c', AllClear H c.kinds → m c = .ok (a, c') → P a) :
    Draws H m P := by
  intro c a c' hc hrun
  obtain ⟨taken, hrest, -⟩ := hm c a c' hrun
  refine ⟨h c a c' hc hrun, ?_⟩
  rw [Cursor.kinds, hrest, List.map_append, Kind.allClear_append] at hc
  exact hc.2

theorem of_fails (h : ∀ c a c', m c ≠ .ok (a, c')) : Draws H m P := fun c a c' _ hrun =>
  absurd hrun (h c a c')

theorem failAt (t : Token) (fault : ParseFault) : Draws H (Parse.failAt t fault) P :=
  of_fails fun _ _ _ hrun => by cases hrun

theorem unexpected (expected : Expected) : Draws H (Parse.unexpected expected) P :=
  of_fails fun _ _ _ hrun => by cases hrun

theorem spent : Draws H Parse.spent P := of_fails fun _ _ _ hrun => by cases hrun

theorem pure {a : α} (h : P a) : Draws H (Pure.pure a) P := by
  intro c b c' hc hrun
  cases hrun
  exact ⟨h, hc⟩

/-- The second step is drawn from what the first one drew. -/
theorem bind {f : α → Parse β} (hm : Draws H m P) (hf : ∀ a, P a → Draws H (f a) Q) :
    Draws H (m >>= f) Q := by
  intro c b c' hc hrun
  obtain ⟨a, mid, ha, hb⟩ := StateT.bind_eq_ok_iff.mp hrun
  obtain ⟨hP, hmid⟩ := hm c a mid hc ha
  exact hf a hP mid b c' hmid hb

/-- A step of which any value will do. -/
theorem step {f : α → Parse β} (hm : Local m m) (hf : ∀ a, Draws H (f a) Q) :
    Draws H (m >>= f) Q :=
  (of_advances (P := fun _ => True) hm.advances fun _ _ _ _ _ => trivial).bind fun a _ => hf a

theorem ite {c : Prop} [Decidable c] {m' : Parse α} (hm : c → Draws H m P)
    (hm' : ¬c → Draws H m' P) : Draws H (if c then m else m') P := by
  split
  · exact hm ‹_›
  · exact hm' ‹_›

/-- Each item of the list is drawn. -/
theorem upTo (hm : Draws H m P) (stop : Kind) (fuel : Nat) :
    Draws H (Parse.upTo stop m fuel) fun as => ∀ a ∈ as, P a := by
  induction fuel with
  | zero => exact spent
  | succ fuel ih =>
      refine step .kind fun k => ite (fun _ => pure (by simp)) fun _ => ?_
      exact hm.bind fun a ha => ih.bind fun as has => pure (List.forall_mem_cons.mpr ⟨ha, has⟩)

theorem separated (hm : Draws H m P) (fuel : Nat) :
    Draws H (Parse.separated m fuel) fun as => ∀ a ∈ as, P a := by
  induction fuel with
  | zero => exact spent
  | succ fuel ih =>
      refine hm.bind fun a ha => step (.eat .comma) fun b => ite (fun _ => ?_)
        fun _ => pure (by simpa using ha)
      exact ih.bind fun as has => pure (List.forall_mem_cons.mpr ⟨ha, has⟩)

/-- The rule for the token at the cursor. -/
theorem look {f : Token → Parse β} (h : ∀ t, t.kind.IsClear H → Draws H (f t) Q) :
    Draws H (Parse.look >>= f) Q := by
  intro c b c' hc hrun
  refine h c.current ?_ c b c' hc hrun
  rw [Cursor.current_kind]
  cases hks : c.kinds with
  | nil => exact trivial
  | cons k ks => exact hc k (by simp [hks])

theorem get {f : Cursor → Parse β} (h : ∀ c, Draws H (f c) Q) :
    Draws H (MonadState.get >>= f) Q := fun c => h c c

/-- The name is the text of a token. -/
theorem identifier : Draws H Parse.identifier fun p => Clear H p.1 := by
  refine look fun t ht => ?_
  split
  · rename_i name hname
    rw [hname] at ht
    exact step .take fun _ => pure ht
  · exact unexpected _

theorem braced {item : Parse Stmt} {P : Stmt → Prop} (hitem : Draws H item P) (fuel : Nat) :
    Draws H (Parse.braced item fuel) fun ss => ∀ s ∈ ss, P s :=
  step (.expect _) fun _ => (hitem.upTo _ _).bind fun _ h => step (.expect _) fun _ => pure h

end Draws

/-- Known types have names without pairs. -/
def ClearTypes (H : Prop) (names : Names) : Prop :=
  ∀ name t, names.type? name = some t → Clear H t.baseName

/-- The names of structs are texts of tokens. -/
theorem clear_structNames {tokens : List Token} (h : AllClear H (tokens.map Token.kind)) :
    ∀ name ∈ Names.structNames tokens, Clear H name := by
  induction tokens using Names.structNames.induct with
  | case1 span position t rest name hname ih =>
      rw [Names.structNames, hname]
      simp only [List.map_cons, Kind.allClear_cons, hname] at h
      refine List.forall_mem_cons.mpr ⟨h.2.1, ih ?_⟩
      simpa [hname] using h.2
  | case2 span position t rest hname ih =>
      rw [Names.structNames]
      split
      · rename_i name heq
        exact absurd heq (hname name)
      · exact ih (Kind.allClear_cons.mp h).2
  | case3 t rest hnot ih =>
      rw [Names.structNames]
      · exact ih (Kind.allClear_cons.mp h).2
      · exact hnot
  | case4 => simp [Names.structNames]

/-- A type is known from the registry or from a struct that the tokens name. -/
theorem clearTypes_ofTokens {registry : Registry} {tokens : List Token}
    (hregistry : ∀ name t, registry.type? name = some t → Clear H t.baseName)
    (htokens : AllClear H (tokens.map Token.kind)) : ClearTypes H (.ofTokens registry tokens) := by
  intro name t htype
  unfold Names.type? at htype
  split at htype
  · rename_i u hu
    cases htype
    exact hregistry name _ hu
  · split at htype
    · rename_i hstruct
      cases htype
      exact clear_structNames htokens name hstruct
    · cases htype

section Types

/-- Brackets do not change the name of the type. -/
theorem draws_arraySuffix {base : Ty} (h : Clear H base.baseName) :
    Draws H (arraySuffix base) fun t => Clear H t.baseName := by
  refine .of_advances (Local.arraySuffix base).advances fun c t c' _ hrun => ?_
  obtain ⟨-, -, -, dims, -, rfl⟩ := takes_arraySuffix base c t c' hrun
  exact (Ty.baseName_arrayOf dims base).symm ▸ h

variable (hnames : ClearTypes H names)

include hnames

/-- A type is named by a token, whatever the name stands for. -/
theorem draws_type : Draws H (type names) fun t => Clear H t.baseName := by
  refine .look fun t _ => ?_
  split
  · split
    · rename_i base htype
      exact .step .take fun _ => draws_arraySuffix (hnames _ base htype)
    · exact .failAt _ _
  · exact .unexpected _

/-- An expression that is derived from clear tokens is printed with clear tokens. -/
theorem Derives.allClear {level : Precedence} {ks : List Kind} {e : Expr}
    (h : Derives names level ks e) (hks : AllClear H ks) : AllClear H (spell e.pieces) := by
  have harguments {parts : List (List Kind × Expr)}
      (ih : ∀ p ∈ parts, AllClear H p.1 → AllClear H (spell p.2.pieces))
      (hparts : ∀ ks ∈ parts.map Prod.fst, AllClear H ks) :
      ∀ ps ∈ Expr.piecesList (parts.map Prod.snd), AllClear H (spell ps) := by
    rw [Expr.piecesList_eq_map]
    intro ps hps
    simp only [List.map_map, List.mem_map, Function.comp_apply] at hps
    obtain ⟨p, hp, rfl⟩ := hps
    exact ih p hp (hparts p.1 (List.mem_map_of_mem hp))
  induction h with
  | tighter h ih => exact ih hks
  | assign hop ht hv iht ihv =>
      simp only [Kind.allClear_append, Kind.allClear_cons] at hks
      simpa [Expr.pieces] using ⟨iht hks.1, ihv hks.2.2⟩
  | ternary hc ht hf ihc iht ihf =>
      simp only [Kind.allClear_append, Kind.allClear_cons] at hks
      simpa [Expr.pieces] using ⟨ihc hks.1, iht hks.2.2.1, ihf hks.2.2.2.2⟩
  | binary hop hl hr ihl ihr =>
      simp only [Kind.allClear_append, Kind.allClear_cons] at hks
      simpa [Expr.pieces] using ⟨ihl hks.1, ihr hks.2.2⟩
  | unary hop h ih =>
      simpa [Expr.pieces] using ih (Kind.allClear_cons.mp hks).2
  | plus h ih => exact ih (Kind.allClear_cons.mp hks).2
  | minInt => simp [Expr.pieces]
  | index hb hp ihb ihp =>
      simp only [Kind.allClear_append, Kind.allClear_cons] at hks
      simpa [Expr.pieces] using ⟨ihb hks.1, ihp hks.2.2.1⟩
  | @swizzle bs b name selection hb hname ihb =>
      have hword : Clear H selection.text := .of_isInline (isInline_swizzle _)
      simpa [Expr.pieces] using ⟨ihb (Kind.allClear_append.mp hks).1, hword⟩
  | field hb hname ihb =>
      obtain ⟨hbase, hmember⟩ := Kind.allClear_append.mp hks
      simpa [Expr.pieces] using ⟨ihb hbase, by simpa using hmember⟩
  | literal h => simp [Expr.pieces]
  | parens h ih =>
      simp only [Kind.allClear_append, Kind.allClear_cons] at hks
      exact ih hks.2.1
  | ref htype => simpa [Expr.pieces] using hks
  | call htype hfunction hargs ih =>
      simp only [Kind.allClear_cons, Kind.allClear_argumentList] at hks
      simpa [Expr.pieces] using ⟨hks.1, harguments ih hks.2⟩
  | @builtin name f parts htype hfunction hargs ih =>
      simp only [Kind.allClear_cons, Kind.allClear_argumentList] at hks
      have hword : Clear H f.name := .of_isInline (isInline_builtin f)
      simpa [Expr.pieces] using ⟨hword, harguments ih hks.2⟩
  | @cast name base bs dims parts htype hdims hargs ih =>
      simp only [Kind.allClear_cons, Kind.allClear_append, Kind.allClear_argumentList] at hks
      have htarget : Clear H (dims.foldr (fun size t => .array t size) base : Ty).baseName :=
        (Ty.baseName_arrayOf dims base).symm ▸ hnames name base htype
      simpa [Expr.pieces] using ⟨htarget, harguments ih hks.2.2⟩

/-- Expressions are drawn from the tokens that they are derived by. -/
theorem draws_expression (fuel : Nat) :
    Draws H (expression names fuel) fun e => AllClear H (spell e.pieces) := by
  refine .of_advances (Production.expression fuel).advances fun c e c' hc hrun => ?_
  obtain ⟨ks, hks, -, hderives⟩ := sound_expression names fuel c e c' hrun
  rw [hks, Kind.allClear_append] at hc
  exact e.allClear_erased.mp (Derives.allClear hnames hderives hc.1)

theorem draws_condition (fuel : Nat) :
    Draws H (condition names fuel) fun e => AllClear H (spell e.pieces) :=
  .step (.expect _) fun _ => (draws_expression hnames fuel).bind fun _ he =>
    .step (.expect _) fun _ => .pure he

/-- An expression that may be left out is drawn where there is one. -/
theorem draws_expressionUnless (fuel : Nat) (close : Symbol) :
    Draws H (expressionUnless names fuel close) fun e =>
      AllClear H (spell (Expr.piecesAfter [] e)) := by
  refine .step .kind fun _ => .ite (fun _ => .pure (by simp [Expr.piecesAfter])) fun _ => ?_
  exact (draws_expression hnames fuel).bind fun _ he => .pure (by simpa [Expr.piecesAfter] using he)

/-- An initializer or a default, if there is one. -/
theorem draws_after {α : Type} {f : Option Expr → Parse α} {P : α → Prop} (fuel : Nat)
    (h : ∀ e, AllClear H (spell (Expr.piecesAfter [.symbol .eq] e)) → Draws H (f e) P) :
    Draws H (do
      let e ←
        if ← eat .eq then
          let e ← expression names fuel
          pure (some e)
        else pure none
      f e) P := by
  refine .step (.eat _) fun b => .ite (fun _ => ?_) fun _ => ?_
  · refine (draws_expression hnames fuel).bind fun e he => ?_
    exact (Draws.pure (P := fun o => o = some e) rfl).bind fun o ho =>
      h o (ho ▸ by simpa [Expr.piecesAfter] using he)
  · exact (Draws.pure (P := fun o => o = none) rfl).bind fun o ho =>
      h o (ho ▸ by simp [Expr.piecesAfter])

/-- A variable is drawn if its type and its name are. -/
theorem draws_finishVariable (fuel : Nat) (start : Span) (isConst : Bool) {t : Ty} {name : String}
    (ht : Clear H t.baseName) (hname : Clear H name) :
    Draws H (finishVariable names fuel start isConst t name) fun s =>
      AllClear H (spell s.pieces) := by
  refine draws_after hnames fuel fun e he => ?_
  refine .step (.expect _) fun _ => .step (.spanFrom _) fun _ => .pure ?_
  have hconst : AllClear H (if isConst then [.keyword .const] else []) := by
    cases isConst <;> simp
  simpa [Stmt.pieces, VariableDeclaration.pieces] using ⟨hconst, ht, hname, he⟩

theorem draws_variableDeclaration (fuel : Nat) :
    Draws H (variableDeclaration names fuel) fun s => AllClear H (spell s.pieces) :=
  .step .look fun _ => .step (.eatKeyword _) fun _ => (draws_type hnames).bind fun _ ht =>
    Draws.identifier.bind fun _ hname => draws_finishVariable hnames fuel _ _ ht hname

end Types

section Statements

theorem draws_optionalBody {items : Parse (List Stmt)}
    (hitems : Draws H items fun ss => ∀ s ∈ ss, AllClear H (spell s.pieces)) :
    Draws H (optionalBody items) fun s => AllClear H (spell s.pieces) :=
  .step .look fun _ => hitems.bind fun _ h => .step (.spanFrom _) fun _ =>
    .pure (by simpa [Stmt.pieces, Stmt.piecesList_eq_flatMap] using h)

variable (hnames : ClearTypes H names)

include hnames

section Arms

variable {inner : Parse Stmt} (hinner : Draws H inner fun s => AllClear H (spell s.pieces))

include hinner

theorem draws_arm (fuel : Nat) :
    Draws H (arm names inner fuel) fun a =>
      AllClear H (spell a.1.pieces) ∧ AllClear H (spell a.2.pieces) :=
  (draws_condition hnames fuel).bind fun _ hc => hinner.bind fun _ hs => .pure ⟨hc, hs⟩

theorem draws_moreArms (fuel n : Nat) :
    Draws H (moreArms names inner fuel n) fun r =>
      AllClear H (spell (Stmt.piecesArms [.keyword .else, .keyword .if] r.1)) ∧
        AllClear H (spell (Stmt.piecesElse r.2)) := by
  induction n with
  | zero => exact .spent
  | succ n ih =>
      refine .step (.eatKeyword _) fun _ => .ite (fun _ => ?_) fun _ =>
        .pure (by simp [Stmt.piecesArms, Stmt.piecesElse])
      refine .step (.eatKeyword _) fun _ => .ite (fun _ => ?_) fun _ => ?_
      · refine (draws_arm hnames hinner fuel).bind fun a ha => ih.bind fun r hr => .pure ⟨?_, hr.2⟩
        simpa [Stmt.piecesArms] using ⟨ha.1, ha.2, hr.1⟩
      · exact hinner.bind fun s hs => .pure (by simpa [Stmt.piecesArms, Stmt.piecesElse] using hs)

theorem draws_forLoop (fuel : Nat) :
    Draws H (forLoop names inner fuel) fun s => AllClear H (spell s.pieces) := by
  have hinit : Draws H (forInit names fuel) fun init =>
      AllClear H (spell (Stmt.piecesInit init)) := by
    refine .step (.eat _) fun _ => .ite (fun _ => .pure (by simp [Stmt.piecesInit])) fun _ => ?_
    refine .step .kind fun _ => .step (.atDeclaration (alike_refl names)) fun _ =>
      .ite (fun _ => ?_) fun _ => ?_
    · refine (draws_variableDeclaration hnames fuel).bind fun s hs => .pure ?_
      rw [Stmt.piecesInit, Piece.spell_append, Kind.allClear_append]
      refine ⟨hs, ?_⟩
      split <;> simp
    · refine .step .look fun _ => (draws_expression hnames fuel).bind fun e he => ?_
      refine .step (.expect _) fun _ => .step (.spanFrom _) fun _ => .pure ?_
      simpa [Stmt.piecesInit, Stmt.pieces, Stmt.endsClause] using he
  refine .step .look fun _ => .step .take fun _ => .step (.expect _) fun _ => ?_
  refine hinit.bind fun init hinit => ?_
  refine (draws_expressionUnless hnames fuel _).bind fun test htest => .step (.expect _) fun _ => ?_
  refine (draws_expressionUnless hnames fuel _).bind fun step hstep => .step (.expect _) fun _ => ?_
  refine hinner.bind fun body hbody => .step (.spanFrom _) fun _ => .pure ?_
  simpa [Stmt.pieces] using ⟨hinit, htest, hstep, hbody⟩

end Arms

theorem draws_optional {items : Parse (List Stmt)}
    (hitems : Draws H items fun ss => ∀ s ∈ ss, AllClear H (spell s.pieces)) (fuel n : Nat) :
    Draws H (optional names items fuel n) fun s => AllClear H (spell s.pieces) := by
  have hbody := draws_optionalBody hitems
  induction n with
  | zero => exact .spent
  | succ n ih =>
      have hsome {s : Stmt} (hs : AllClear H (spell s.pieces)) :
          Draws H (Pure.pure (some s) : Parse (Option Stmt)) fun o =>
            AllClear H (spell (Stmt.piecesElse o)) :=
        .pure (by simpa [Stmt.piecesElse] using hs)
      unfold optional
      dsimp only
      refine .step .look fun _ => .step (.expectKeyword _) fun _ => ?_
      refine (draws_condition hnames fuel).bind fun c hc => hbody.bind fun body hb => ?_
      have hoptional {b : Span} {otherwise : Option Stmt}
          (ho : AllClear H (spell (Stmt.piecesElse otherwise))) :
          AllClear H (spell (Stmt.optional b c body otherwise).pieces) := by
        simpa [Stmt.pieces] using ⟨hc, hb, ho⟩
      refine .step (.eatKeyword _) fun _ => .ite (fun _ => ?_) fun _ => ?_
      · refine .step .kind fun _ => .ite (fun _ => ih.bind fun s hs => ?_) fun _ =>
          hbody.bind fun s hs => ?_
        · exact (hsome hs).bind fun o ho => .step (.spanFrom _) fun _ => .pure (hoptional ho)
        · exact (hsome hs).bind fun o ho => .step (.spanFrom _) fun _ => .pure (hoptional ho)
      · exact (Draws.pure (P := fun o => o = none) rfl).bind fun o ho =>
          .step (.spanFrom _) fun _ => .pure (hoptional (by simp [ho, Stmt.piecesElse]))

/-- Every form of a statement is drawn if its parts are. -/
theorem draws_statement (fuel : Nat) :
    Draws H (statement names fuel) fun s => AllClear H (spell s.pieces) := by
  induction fuel with
  | zero => exact .spent
  | succ fuel ih =>
      have hcondition := draws_condition hnames fuel
      unfold statement
      dsimp only
      refine .step .look fun start => ?_
      split
      · refine (ih.braced fuel).bind fun items h => .step (.spanFrom _) fun _ => .pure ?_
        simpa [Stmt.pieces, Stmt.piecesList_eq_flatMap] using h
      · refine .step .take fun _ => (draws_arm hnames ih fuel).bind fun a ha => ?_
        refine (draws_moreArms hnames ih fuel _).bind fun r hr => .step (.spanFrom _) fun _ =>
          .pure ?_
        simpa [Stmt.pieces, Stmt.piecesArms, and_assoc] using ⟨ha.1, ha.2, hr⟩
      · exact draws_forLoop hnames ih fuel
      · refine .step .take fun _ => hcondition.bind fun c hc => ih.bind fun body hb => ?_
        exact .step (.spanFrom _) fun _ => .pure (by simpa [Stmt.pieces] using ⟨hc, hb⟩)
      · refine .step .take fun _ => ih.bind fun body hb => .step (.expectKeyword _) fun _ => ?_
        refine hcondition.bind fun c hc => .step (.expect _) fun _ => ?_
        exact .step (.spanFrom _) fun _ => .pure (by simpa [Stmt.pieces] using ⟨hb, hc⟩)
      · exact .step .take fun _ => .step (.expect _) fun _ => .step (.spanFrom _) fun _ =>
          .pure (by simp [Stmt.pieces, Stmt.kinds])
      · exact .step .take fun _ => .step (.expect _) fun _ => .step (.spanFrom _) fun _ =>
          .pure (by simp [Stmt.pieces, Stmt.kinds])
      · exact .step .take fun _ => .step (.expect _) fun _ => .step (.spanFrom _) fun _ =>
          .pure (by simp [Stmt.pieces, Stmt.kinds])
      · refine .step .take fun _ => (draws_expressionUnless hnames fuel _).bind fun e he => ?_
        refine .step (.expect _) fun _ => .step (.spanFrom _) fun _ => .pure ?_
        simpa [Stmt.pieces] using he
      · exact draws_optional hnames (ih.braced fuel) fuel fuel
      · exact draws_variableDeclaration hnames fuel
      · refine .step (.atDeclaration (alike_refl names)) fun _ => .ite
          (fun _ => draws_variableDeclaration hnames fuel) fun _ => ?_
        refine (draws_expression hnames fuel).bind fun e he => .step (.expect _) fun _ => ?_
        exact .step (.spanFrom _) fun _ => .pure (by simpa [Stmt.pieces] using he)

end Statements

section Attributes

/-- The attributes of a slot are printed with words of the language. -/
theorem allClear_slot (s : Slot) : AllClear H (bracketed s.attributes) := by
  cases s with
  | location n =>
      have hname : Clear H "location" := .of_isInline (by decide)
      simpa [bracketed, Slot.attributes, attributeKinds, AttributeArgument.kind, commas] using hname
  | builtin b =>
      have hname : Clear H "builtin" := .of_isInline (by decide)
      have hargument : Clear H b.name := .of_isInline (by cases b <;> decide)
      simpa [bracketed, Slot.attributes, attributeKinds, AttributeArgument.kind, commas]
        using ⟨hname, hargument⟩

/-- The attributes of an external variable are printed with words of the language. -/
theorem allClear_binding (v : ExternalVariable) : AllClear H (bracketed v.attributes) := by
  have hset : Clear H "set" := .of_isInline (by decide)
  have hbinding : Clear H "binding" := .of_isInline (by decide)
  have hstorage : Clear H "storage" := .of_isInline (by decide)
  unfold ExternalVariable.attributes
  split
  · simpa [bracketed, attributeKinds, AttributeArgument.kind, commas]
      using ⟨hset, hbinding, hstorage⟩
  · simpa [bracketed, attributeKinds, AttributeArgument.kind, commas] using ⟨hset, hbinding⟩

/-- The attributes of an entry are printed with words of the language. -/
theorem allClear_entry (e : Option EntryPoint) : AllClear H (entryKinds e) := by
  cases e with
  | none => simp [entryKinds]
  | some e =>
      have hentry : Clear H "entry" := .of_isInline (by decide)
      have hstage : Clear H e.stage.name := .of_isInline (by cases e.stage <;> decide)
      have hworkgroup : Clear H "workgroup" := .of_isInline (by decide)
      rw [entryKinds, EntryPoint.attributes]
      split
      · simpa [bracketed, attributeKinds, AttributeArgument.kind, commas]
          using ⟨hentry, hstage, hworkgroup⟩
      · simpa [bracketed, attributeKinds, AttributeArgument.kind, commas] using ⟨hentry, hstage⟩

end Attributes

section Items

variable (hnames : ClearTypes H names)

include hnames

theorem draws_structField : Draws H (structField names) fun f => AllClear H f.kinds :=
  Draws.identifier.bind fun _ hname => .step (.expect _) fun _ => (draws_type hnames).bind
    fun _ ht => .step (.expect _) fun _ => .pure (by simpa [StructField.kinds] using ⟨hname, ht⟩)

theorem draws_struct (fuel : Nat) (start : Span) :
    Draws H (struct names fuel start) fun s => AllClear H (spell s.pieces) := by
  refine .step .take fun _ => Draws.identifier.bind fun p hname => .step (.expect _) fun _ => ?_
  refine ((draws_structField hnames).upTo _ _).bind fun fields hfields => ?_
  refine .step (.expect _) fun _ => .step (.eat _) fun _ => .step (.spanFrom _) fun _ => .pure ?_
  simpa [Stmt.pieces, Stmt.kinds] using ⟨hname, hfields⟩

/-- The type and the name of an entry are texts of tokens. -/
theorem draws_entryHead (fuel : Nat) :
    Draws H (entryHead names fuel) fun r => Clear H r.2.1.baseName ∧ Clear H r.2.2 :=
  .step (local_attributes fuel) fun _ => (draws_type hnames).bind fun _ ht =>
    Draws.identifier.bind fun _ hname => .pure ⟨ht, hname⟩

theorem draws_interfaceEntry (fuel : Nat) :
    Draws H (interfaceEntry names fuel) fun v => AllClear H v.kinds := by
  refine (draws_entryHead hnames fuel).bind fun r hr => .step (.expect _) fun _ => ?_
  refine .step (.checked _) fun slot => .step (.spanFrom _) fun _ => .pure ?_
  simpa [InterfaceVariable.kinds] using ⟨allClear_slot slot, hr⟩

theorem draws_externalEntry (fuel : Nat) :
    Draws H (externalEntry names fuel) fun v => AllClear H v.kinds := by
  refine (draws_entryHead hnames fuel).bind fun r hr => .step (.expect _) fun _ => ?_
  refine .step (.checked _) fun out => .step (.spanFrom _) fun _ => .pure ?_
  simpa [ExternalVariable.kinds] using ⟨allClear_binding _, hr⟩

theorem draws_optionEntry (fuel : Nat) :
    Draws H (optionEntry names fuel) fun o => AllClear H (spell o.pieces) := by
  refine (draws_entryHead hnames fuel).bind fun r hr => .step (.checked _) fun _ => ?_
  refine draws_after hnames fuel fun e he => .step (.expect _) fun _ => ?_
  refine .step (.spanFrom _) fun _ => .pure ?_
  simpa [OptionDeclaration.pieces] using ⟨hr.1, hr.2, he⟩

theorem draws_constEntry (fuel : Nat) :
    Draws H (constEntry names fuel) fun c => AllClear H (spell c.pieces) := by
  refine (draws_entryHead hnames fuel).bind fun r hr => .step (.checked _) fun _ => ?_
  refine .step (.expect _) fun _ => (draws_expression hnames fuel).bind fun e he => ?_
  refine .step (.expect _) fun _ => .step (.spanFrom _) fun _ => .pure ?_
  simpa [ConstDeclaration.pieces] using ⟨hr.1, hr.2, he⟩

omit hnames in
theorem draws_entries {entry : Parse α} (hentry : Draws H entry P) (fuel : Nat) :
    Draws H (entries entry fuel) fun as => ∀ a ∈ as, P a :=
  .step .take fun _ => .step (.expect _) fun _ => (hentry.upTo _ _).bind fun _ h =>
    .step (.expect _) fun _ => .step (.eat _) fun _ => .pure h

theorem draws_parameter : Draws H (parameter names) fun q => AllClear H q.kinds :=
  .step .look fun _ => (draws_type hnames).bind fun _ ht => Draws.identifier.bind fun _ hname =>
    .step (.spanFrom _) fun _ => .pure (by simpa [Parameter.kinds] using ⟨ht, hname⟩)

/-- A function is drawn if its type and its name are. -/
theorem draws_function (fuel : Nat) (as : Attributes) {t : Ty} {name : String}
    (ht : Clear H t.baseName) (hname : Clear H name) :
    Draws H (function names fuel as t name) fun s => AllClear H (spell s.pieces) := by
  unfold function
  dsimp only
  refine .step (.checked _) fun entry => .step (.expect _) fun _ => .step .kind fun _ => ?_
  have hrest {qs : List Parameter} (hqs : ∀ q ∈ qs, AllClear H q.kinds) :
      Draws H (do
        expect .rparen
        let body ← braced (statement names fuel) fuel
        return Stmt.function (← spanFrom as.start.span) ⟨name, qs, t, entry⟩ body) fun s =>
          AllClear H (spell s.pieces) := by
    refine .step (.expect _) fun _ => ((draws_statement hnames fuel).braced fuel).bind
      fun body hbody => .step (.spanFrom _) fun _ => .pure ?_
    simpa [Stmt.pieces, Stmt.piecesList_eq_flatMap, Signature.kinds, and_assoc]
      using ⟨allClear_entry entry, ht, hname, hqs, hbody⟩
  refine .ite (fun _ => ?_) fun _ => ?_
  · exact (Draws.pure (P := fun qs => qs = []) rfl).bind fun qs hqs => hrest (by simp [hqs])
  · exact ((draws_parameter hnames).separated _).bind fun qs hqs => hrest hqs

omit hnames in
theorem draws_library (fuel : Nat) (start : Span) :
    Draws H (library fuel start) fun s => AllClear H (spell s.pieces) := by
  have hparts (n : Nat) : Draws H (libraryParts n) fun parts => ∀ part ∈ parts, Clear H part := by
    induction n with
    | zero => exact .spent
    | succ n ih =>
        refine .step (.eat _) fun _ => .ite (fun _ => ?_) fun _ => .pure (by simp)
        exact Draws.identifier.bind fun p hp => ih.bind fun ps hps =>
          .pure (List.forall_mem_cons.mpr ⟨hp, hps⟩)
  refine .step .take fun _ => Draws.identifier.bind fun p hp => (hparts _).bind fun ps hps => ?_
  refine .step (.expect _) fun _ => .step (.spanFrom _) fun _ => .pure ?_
  simpa [Stmt.pieces, Stmt.kinds] using ⟨hp, hps⟩

/-- Every form of a declaration is drawn if its parts are. -/
theorem draws_item (fuel : Nat) :
    Draws H (item names fuel) fun s => AllClear H (spell s.pieces) := by
  induction fuel with
  | zero => exact .spent
  | succ fuel ih =>
      unfold item
      dsimp only
      refine .step (local_attributes fuel) fun as => .step .look fun t => ?_
      split
      · exact .step (.checked _) fun _ => draws_struct hnames fuel _
      · refine .step (.checked _) fun _ => (draws_entries (draws_interfaceEntry hnames fuel)
          fuel).bind fun vs h => .step (.spanFrom _) fun _ => .pure ?_
        simpa [Stmt.pieces, Stmt.kinds] using h
      · refine .step (.checked _) fun _ => (draws_entries (draws_interfaceEntry hnames fuel)
          fuel).bind fun vs h => .step (.spanFrom _) fun _ => .pure ?_
        simpa [Stmt.pieces, Stmt.kinds] using h
      · refine .step (.checked _) fun _ => (draws_entries (draws_externalEntry hnames fuel)
          fuel).bind fun vs h => .step (.spanFrom _) fun _ => .pure ?_
        simpa [Stmt.pieces, Stmt.kinds] using h
      · refine .step (.checked _) fun _ => (draws_entries (draws_optionEntry hnames fuel)
          fuel).bind fun os h => .step (.spanFrom _) fun _ => .pure ?_
        simpa [Stmt.pieces] using h
      · refine .get fun _ => .ite (fun _ => ?_) fun _ => ?_
        · refine .step (.checked _) fun _ => (draws_entries (draws_constEntry hnames fuel)
            fuel).bind fun cs h => .step (.spanFrom _) fun _ => .pure ?_
          simpa [Stmt.pieces] using h
        · exact .step (.checked _) fun _ => draws_variableDeclaration hnames fuel
      · exact .step (.checked _) fun _ => draws_optional hnames (ih.braced fuel) fuel fuel
      · exact .step (.checked _) fun _ => draws_library fuel _
      · refine (draws_type hnames).bind fun t ht => Draws.identifier.bind fun p hp => ?_
        refine .step .kind fun _ => .ite (fun _ => draws_function hnames fuel as ht hp) fun _ => ?_
        exact .step (.checked _) fun _ => draws_finishVariable hnames fuel _ _ ht hp
      · exact .unexpected _

/-- A file is drawn item by item. -/
theorem draws_file (fuel : Nat) :
    Draws H (file names fuel) fun s => AllClear H (spell s.filePieces) := by
  refine .step .look fun _ => ((draws_item hnames fuel).upTo _ _).bind fun items h => ?_
  refine .step .kind fun _ => .ite (fun _ => ?_) fun _ => .unexpected _
  split
  · exact .pure (by simp [Stmt.filePieces, Stmt.items, Stmt.piecesList])
  · refine .step (.spanFrom _) fun _ => .pure ?_
    simpa [Stmt.filePieces, Stmt.items, Stmt.piecesList_eq_flatMap] using h

end Items

end Parse

/-- The names of a parsed tree have no pairs, if those of the tokens and of the known types
have none. -/
theorem allClear_of_parseTokens {tokens : List Token} {registry : Registry} {tree : Stmt}
    (hregistry : ∀ name t, registry.type? name = some t → Clear H t.baseName)
    (htokens : AllClear H (tokens.map Token.kind)) (h : parseTokens tokens registry = .ok tree) :
    AllClear H (spell tree.filePieces) := by
  obtain ⟨⟨s, c⟩, hfile, hs⟩ := Except.bind_eq_ok_iff.mp h
  cases hs
  have hnames := Parse.clearTypes_ofTokens hregistry htokens
  have hstart : AllClear H (Cursor.ofTokens tokens).kinds := htokens
  exact (Parse.draws_file hnames _ _ _ _ hstart hfile).1

section Sources

/-- A name breaks no line. -/
theorem isInline_of_isName {name : String} (h : Lexer.isName name = true) :
    isInline name = true := by
  unfold Lexer.isName at h
  split at h
  · cases h
  · rename_i c cs hchars
    simp only [Bool.and_eq_true, List.all_eq_true] at h
    obtain ⟨⟨hstart, hrest⟩, -⟩ := h
    have hword : ∀ d ∈ c :: cs, Lexer.isWordChar d = true :=
      List.forall_mem_cons.mpr ⟨by simp [Lexer.isWordChar, hstart], hrest⟩
    rw [isInline_iff, hchars]
    intro d hd
    constructor <;> rintro rfl <;> exact absurd (hword _ hd) (by decide)

/-- What the lexer reads has no pairs: a name is letters and digits. -/
theorem allClear_tokenize {source : String} {tokens : List Token}
    (h : tokenize source = .ok tokens) : AllClear H (tokens.map Token.kind) := by
  obtain ⟨ks, hks, hspellable⟩ := spellable_tokenize h
  rw [hks, Kind.allClear_append]
  refine ⟨fun k hk => ?_, by simp [AllClear, Kind.IsClear]⟩
  cases k with
  | ident name => exact .of_isInline (isInline_of_isName (hspellable _ hk))
  | _ => exact trivial

/-- Leaving out the end of a file keeps the order of its tokens. -/
theorem withoutEof_sublist (tokens : List Token) : (withoutEof tokens).Sublist tokens := by
  unfold withoutEof
  split
  · split
    · exact List.dropLast_sublist tokens
    · exact List.Sublist.refl tokens
  · exact List.Sublist.refl tokens

namespace Libraries

variable {ls : Libraries} {stack : List String} {origin : Origin} {all : List Token}
  {included : List String} {rest : List Token}

/-- The tokens after a directive are the end of those that it stood in. -/
theorem suffix_of_next_directive {name : String} {place : Span × Position} {after : List Token}
    (h : next origin all rest = .directive name place after) : after <:+ rest := by
  cases rest with
  | nil => cases h
  | cons t rest =>
      rw [next] at h
      split at h
      · split at h
        · rename_i parts semicolon after' hpath
          cases h
          obtain ⟨-, -, path, -, rfl⟩ := directivePath_eq_ok_iff.mp hpath
          exact ⟨t :: (path ++ [semicolon]), by simp⟩
        · cases h
      · cases h

/-- Splicing adds what the lexer reads in libraries. -/
theorem Run.allClear {r : Outcome} (h : Run ls stack origin all included rest r)
    (hrest : AllClear H (rest.map Token.kind)) :
    Except.Gives (fun out => AllClear H (out.1.map Token.kind)) r := by
  have hprepend {front : List Token} {r : Outcome} (hfront : AllClear H (front.map Token.kind))
      (hr : Except.Gives (fun out => AllClear H (out.1.map Token.kind)) r) :
      Except.Gives (fun out => AllClear H (out.1.map Token.kind)) (prepend front r) := by
    cases hr with
    | error _ => exact .error trivial
    | ok hr => exact .ok (by simpa using ⟨hfront, hr⟩)
  have hafter {name : String} {place : Span × Position} {origin : Origin}
      {all rest after : List Token} (hnext : next origin all rest = .directive name place after)
      (hrest : AllClear H (rest.map Token.kind)) : AllClear H (after.map Token.kind) := by
    obtain ⟨front, rfl⟩ := suffix_of_next_directive hnext
    rw [List.map_append, Kind.allClear_append] at hrest
    exact hrest.2
  induction h with
  | done => exact .ok (by simp)
  | own hnext _ ih =>
      obtain ⟨-, rfl⟩ := next_eq_own hnext
      obtain ⟨ht, hrest⟩ := Kind.allClear_cons.mp hrest
      exact hprepend (by simpa [kind_placeToken] using ht) (ih hrest)
  | malformed | cycle | missing | broken => exact .error trivial
  | again hnext _ _ _ ih => exact ih (hafter hnext hrest)
  | enter hnext _ _ htokens _ _ ihlibrary ihafter =>
      obtain ⟨source, ts, -, hts, rfl⟩ := (tokens_eq_ok_iff _ ls).mp htokens
      have hlibrary : AllClear H ((withoutEof ts).map Token.kind) := fun k hk =>
        allClear_tokenize hts k (((withoutEof_sublist ts).map Token.kind).subset hk)
      cases ihlibrary hlibrary with
      | ok hinner => exact hprepend hinner (ihafter (hafter hnext hrest))

/-- Splicing only adds tokens of libraries, whose texts have been read the same way. -/
theorem allClear_splice {tokens out : List Token} (htokens : AllClear H (tokens.map Token.kind))
    (h : ls.splice tokens = .ok out) : AllClear H (out.map Token.kind) := by
  obtain ⟨⟨all, included⟩, hexpand, hout⟩ := Except.bind_eq_ok_iff.mp h
  cases hout
  have hgives := ((run_iff ls tokens _).mpr rfl).allClear htokens
  rw [hexpand] at hgives
  cases hgives with
  | ok hall => exact hall

end Libraries

end Sources

end Shading
