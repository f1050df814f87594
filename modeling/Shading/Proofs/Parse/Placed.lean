import Shading.Proofs.Options.Placement
import Shading.Proofs.Parse.Legible

/-!
# Where declarations and statements stand

A file holds declarations and a function holds statements, with variables and optional blocks
in either. Choosing a permutation leaves everything in its place and no optional block.
Option blocks are items of lists: they are neither the body of an optional block nor its
alternative.

That what is read is placed so follows the combinators that productions are made of: whatever a
production reads, from any cursor, is of some kind.
-/

namespace Shading

namespace Stmt

/-- Every part of a statement stands where it may. Optional blocks stand among the rest only
until a permutation is chosen. -/
inductive Placed (chosen : Bool) : Place → Stmt → Prop
  | var {place : Place} {b : Span} {d : VariableDeclaration} : Placed chosen place (.var b d)
  | block {place : Place} {b : Span} {items : List Stmt}
      (hitems : ∀ s ∈ items, Placed chosen place s) : Placed chosen place (.block b items)
  | optional {place : Place} {b : Span} {c : Expr} {body : Stmt} {otherwise : Option Stmt}
      (hopen : chosen = false) (hbody : Placed chosen place body) (hlist : body.isOptions = false)
      (hother : ∀ s ∈ otherwise, Placed chosen place s)
      (hlists : ∀ s ∈ otherwise, s.isOptions = false) :
      Placed chosen place (.optional b c body otherwise)
  | branch {b : Span} {arms : List (Expr × Stmt)} {otherwise : Option Stmt}
      (harms : ∀ a ∈ arms, Placed chosen .body a.2)
      (hother : ∀ s ∈ otherwise, Placed chosen .body s) :
      Placed chosen .body (.branch b arms otherwise)
  | forLoop {b : Span} {init : Option Stmt} {condition step : Option Expr} {body : Stmt}
      (hinit : ∀ s ∈ init, Placed chosen .body s) (hbody : Placed chosen .body body) :
      Placed chosen .body (.forLoop b init condition step body)
  | whileLoop {b : Span} {c : Expr} {body : Stmt} (hbody : Placed chosen .body body) :
      Placed chosen .body (.whileLoop b c body)
  | doWhile {b : Span} {body : Stmt} {c : Expr} (hbody : Placed chosen .body body) :
      Placed chosen .body (.doWhile b body c)
  | expr {b : Span} {e : Expr} : Placed chosen .body (.expr b e)
  | leaveLoop {b : Span} : Placed chosen .body (.leaveLoop b)
  | nextRound {b : Span} : Placed chosen .body (.nextRound b)
  | discard {b : Span} : Placed chosen .body (.discard b)
  | ret {b : Span} {value : Option Expr} : Placed chosen .body (.ret b value)
  | struct {b : Span} {d : StructDeclaration} : Placed chosen .file (.struct b d)
  | inputs {b : Span} {vs : List InterfaceVariable} : Placed chosen .file (.inputs b vs)
  | outputs {b : Span} {vs : List InterfaceVariable} : Placed chosen .file (.outputs b vs)
  | externals {b : Span} {vs : List ExternalVariable} : Placed chosen .file (.externals b vs)
  | options {b : Span} {ds : List OptionDeclaration} : Placed chosen .file (.options b ds)
  | consts {b : Span} {ds : List ConstDeclaration} : Placed chosen .file (.consts b ds)
  | function {b : Span} {f : Signature} {body : List Stmt}
      (hbody : ∀ s ∈ body, Placed chosen .body s) : Placed chosen .file (.function b f body)
  | library {b : Span} {path : List String} : Placed chosen .file (.library b path)

/-- Option blocks stand in a list of statements where each of them may. -/
theorem listListed_of_forall {ss : List Stmt}
    (h : ∀ s ∈ ss, s.isOptions = true ∨ s.OptionsListed) : listListed ss := by
  induction ss with
  | nil => trivial
  | cons s rest ih =>
      exact ⟨h s List.mem_cons_self, ih fun t ht => h t (List.mem_cons_of_mem _ ht)⟩

theorem armsListed_of_forall {arms : List (Expr × Stmt)}
    (h : ∀ a ∈ arms, a.2.OptionsListed) : armsListed arms := by
  induction arms with
  | nil => trivial
  | cons a rest ih =>
      exact ⟨h a List.mem_cons_self, ih fun t ht => h t (List.mem_cons_of_mem _ ht)⟩

theorem optionListed_of_forall {s : Option Stmt} (h : ∀ t ∈ s, t.OptionsListed) :
    optionListed s := by
  cases s with
  | none => trivial
  | some s => exact h s rfl

theorem Placed.isOptions_eq_false {chosen : Bool} {s : Stmt} (h : s.Placed chosen .body) :
    s.isOptions = false := by
  cases h <;> rfl

/-- Where everything is in its place, option blocks stand in lists only. -/
theorem Placed.optionsListed {chosen : Bool} {place : Place} {s : Stmt}
    (h : s.Placed chosen place) : s.isOptions = true ∨ s.OptionsListed := by
  have hlisted {t : Stmt} (ht : t.isOptions = true ∨ t.OptionsListed)
      (hnot : t.isOptions = false) : t.OptionsListed :=
    ht.resolve_left (Bool.eq_false_iff.mp hnot)
  induction h with
  | options => exact .inl rfl
  | block _ ih | function _ ih => exact .inr (listListed_of_forall ih)
  | optional _ _ hlist _ hlists ihbody ihother =>
      exact .inr ⟨hlisted ihbody hlist,
        optionListed_of_forall fun s hs => hlisted (ihother s hs) (hlists s hs)⟩
  | branch harms hother iharms ihother =>
      exact .inr ⟨armsListed_of_forall fun a ha =>
        hlisted (iharms a ha) (harms a ha).isOptions_eq_false,
        optionListed_of_forall fun s hs => hlisted (ihother s hs) (hother s hs).isOptions_eq_false⟩
  | forLoop hinit hbody ihinit ihbody =>
      exact .inr ⟨optionListed_of_forall fun s hs =>
        hlisted (ihinit s hs) (hinit s hs).isOptions_eq_false,
        hlisted ihbody hbody.isOptions_eq_false⟩
  | whileLoop hbody ih | doWhile hbody ih =>
      have hinner := hlisted ih hbody.isOptions_eq_false
      exact .inr hinner
  | _ => exact .inr trivial

end Stmt

namespace Parse

section Rules

variable {α β : Type} {m : Parse α} {P : α → Prop} {Q : β → Prop}

/-- Whatever the production reads has the property. -/
def Yields (m : Parse α) (P : α → Prop) : Prop := ∀ c a c', m c = .ok (a, c') → P a

namespace Yields

theorem trivial (m : Parse α) : Yields m fun _ => True := fun _ _ _ _ => True.intro

theorem mono {P' : α → Prop} (hm : Yields m P) (h : ∀ a, P a → P' a) : Yields m P' :=
  fun c a c' hrun => h a (hm c a c' hrun)

theorem of_fails (h : ∀ c a c', m c ≠ .ok (a, c')) : Yields m P := fun c a c' hm =>
  absurd hm (h c a c')

theorem pure {a : α} (h : P a) : Yields (Pure.pure a) P := by
  intro c b c' hm
  cases hm
  exact h

/-- What the second step yields may rest on what the first one did. -/
theorem bind {f : α → Parse β} (hm : Yields m P) (hf : ∀ a, P a → Yields (f a) Q) :
    Yields (m >>= f) Q := by
  intro c b c' hrun
  obtain ⟨a, mid, ha, hb⟩ := StateT.bind_eq_ok_iff.mp hrun
  exact hf a (hm c a mid ha) mid b c' hb

/-- A step whose value does not matter. -/
theorem andThen {f : α → Parse β} (hf : ∀ a, Yields (f a) Q) : Yields (m >>= f) Q :=
  (trivial m).bind fun a _ => hf a

theorem ite {c : Prop} [Decidable c] {m' : Parse α} (hm : c → Yields m P)
    (hm' : ¬c → Yields m' P) : Yields (if c then m else m') P := by
  split
  · exact hm ‹_›
  · exact hm' ‹_›

theorem unexpected (expected : Expected) : Yields (Parse.unexpected expected) P :=
  of_fails fun _ _ _ h => by cases h

theorem spent : Yields Parse.spent P := of_fails fun _ _ _ h => by cases h

/-- Every item of a list is what its production yields. -/
theorem upTo (hm : Yields m P) (stop : Kind) (fuel : Nat) :
    Yields (Parse.upTo stop m fuel) fun as => ∀ a ∈ as, P a := by
  induction fuel with
  | zero => exact spent
  | succ fuel ih =>
      refine andThen fun k => ite (fun _ => pure (by simp)) fun _ => ?_
      refine hm.bind fun a ha => ih.bind fun as has => pure ?_
      intro b hb
      rcases List.mem_cons.mp hb with rfl | hb
      · exact ha
      · exact has b hb

theorem braced {item : Parse Stmt} {P : Stmt → Prop} (hitem : Yields item P) (fuel : Nat) :
    Yields (Parse.braced item fuel) fun ss => ∀ s ∈ ss, P s :=
  andThen fun _ => (hitem.upTo _ _).bind fun _ h => andThen fun _ => pure h

end Yields

end Rules

open Stmt

variable {names : Names} {place : Place}

section Arms

variable {inner : Parse Stmt} {P : Stmt → Prop}

theorem yields_arm (hinner : Yields inner P) (fuel : Nat) :
    Yields (arm names inner fuel) fun a => P a.2 :=
  .andThen fun _ => hinner.bind fun _ hs => .pure hs

theorem yields_moreArms (hinner : Yields inner P) (fuel n : Nat) :
    Yields (moreArms names inner fuel n) fun r =>
      (∀ a ∈ r.1, P a.2) ∧ ∀ s ∈ r.2, P s := by
  induction n with
  | zero => exact .spent
  | succ n ih =>
      refine .andThen fun _ => .ite (fun _ => .andThen fun _ => .ite (fun _ => ?_) fun _ => ?_)
        fun _ => .pure (by simp)
      · refine (yields_arm hinner fuel).bind fun a ha => ih.bind fun r hr => .pure ⟨?_, hr.2⟩
        intro b hb
        rcases List.mem_cons.mp hb with rfl | hb
        · exact ha
        · exact hr.1 b hb
      · exact hinner.bind fun s hs => .pure (by simpa using hs)

end Arms

/-- A declaration holds no option block. -/
theorem places_finishVariable (fuel : Nat) (start : Span) (isConst : Bool) (t : Ty)
    (name : String) :
    Yields (finishVariable names fuel start isConst t name) (Placed false place) := by
  unfold finishVariable
  dsimp only
  refine .andThen fun _ => .ite (fun _ => .andThen fun _ => ?_) fun _ => ?_
  · exact .andThen fun _ => .andThen fun _ => .andThen fun _ => .pure .var
  · exact .andThen fun _ => .andThen fun _ => .andThen fun _ => .pure .var

theorem places_variableDeclaration (fuel : Nat) :
    Yields (variableDeclaration names fuel) (Placed false place) :=
  .andThen fun _ => .andThen fun _ => .andThen fun _ => .andThen fun _ =>
    places_finishVariable fuel _ _ _ _

theorem places_forInit (fuel : Nat) :
    Yields (forInit names fuel) fun init => ∀ s ∈ init, Placed false .body s := by
  refine .andThen fun _ => .ite (fun _ => .pure (by simp)) fun _ => ?_
  refine .andThen fun _ => .andThen fun _ => .ite (fun _ => ?_) fun _ => ?_
  · exact (places_variableDeclaration fuel).bind fun s hs => .pure (by simpa using hs)
  · exact .andThen fun _ => .andThen fun _ => .andThen fun _ => .andThen fun _ =>
      .pure (by simpa using Placed.expr)

theorem places_forLoop {inner : Parse Stmt} (hinner : Yields inner (Placed false .body))
    (fuel : Nat) : Yields (forLoop names inner fuel) (Placed false .body) := by
  refine .andThen fun _ => .andThen fun _ => .andThen fun _ => ?_
  refine (places_forInit fuel).bind fun init hinit => ?_
  refine .andThen fun _ => .andThen fun _ => .andThen fun _ => .andThen fun _ => ?_
  exact hinner.bind fun body hbody => .andThen fun _ => .pure (.forLoop hinit hbody)

theorem places_optionalBody {items : Parse (List Stmt)}
    (hitems : Yields items fun ss => ∀ s ∈ ss, Placed false place s) :
    Yields (optionalBody items) fun s => Placed false place s ∧ s.isOptions = false :=
  .andThen fun _ => hitems.bind fun _ h => .andThen fun _ => .pure ⟨.block h, rfl⟩

theorem places_optional {items : Parse (List Stmt)}
    (hitems : Yields items fun ss => ∀ s ∈ ss, Placed false place s) (fuel n : Nat) :
    Yields (optional names items fuel n) fun s => Placed false place s ∧ s.isOptions = false := by
  induction n with
  | zero => exact .spent
  | succ n ih =>
      have hbody := places_optionalBody hitems
      have hsome {s : Stmt} (hs : Placed false place s ∧ s.isOptions = false) :
          Yields (Pure.pure (some s) : Parse (Option Stmt)) fun o =>
            ∀ t ∈ o, Placed false place t ∧ t.isOptions = false :=
        .pure (by simpa using hs)
      have hoptional {b : Span} {c : Expr} {body : Stmt} {otherwise : Option Stmt}
          (hb : Placed false place body ∧ body.isOptions = false)
          (ho : ∀ t ∈ otherwise, Placed false place t ∧ t.isOptions = false) :
          Placed false place (.optional b c body otherwise) :=
        .optional rfl hb.1 hb.2 (fun t ht => (ho t ht).1) fun t ht => (ho t ht).2
      unfold optional
      dsimp only
      refine .andThen fun _ => .andThen fun _ => .andThen fun _ => ?_
      refine hbody.bind fun body hb => .andThen fun _ => .ite (fun _ => ?_) fun _ => ?_
      · refine .andThen fun _ => .ite (fun _ => ih.bind fun s hs => ?_) fun _ =>
          hbody.bind fun s hs => ?_
        · exact (hsome hs).bind fun o ho => .andThen fun _ => .pure ⟨hoptional hb ho, rfl⟩
        · exact (hsome hs).bind fun o ho => .andThen fun _ => .pure ⟨hoptional hb ho, rfl⟩
      · exact (Yields.pure (P := fun o => o = none) rfl).bind fun o ho =>
            .andThen fun _ => .pure ⟨hoptional hb (by simp [ho]), rfl⟩

/-- A statement holds statements, variables and optional blocks only. -/
theorem places_statement (fuel : Nat) : Yields (statement names fuel) (Placed false .body) := by
  induction fuel with
  | zero => exact .spent
  | succ fuel ih =>
      unfold statement
      dsimp only
      refine .andThen fun start => ?_
      split
      · exact (ih.braced fuel).bind fun items h => .andThen fun _ => .pure (.block h)
      · refine .andThen fun _ => (yields_arm ih fuel).bind fun first hfirst => ?_
        refine (yields_moreArms ih fuel _).bind fun r hr => .andThen fun _ => .pure ?_
        refine .branch (fun a ha => ?_) hr.2
        rcases List.mem_cons.mp ha with rfl | ha
        · exact hfirst
        · exact hr.1 a ha
      · exact places_forLoop ih fuel
      · exact .andThen fun _ => .andThen fun _ => ih.bind fun body h => .andThen fun _ =>
          .pure (.whileLoop h)
      · refine .andThen fun _ => ih.bind fun body h => .andThen fun _ => .andThen fun _ => ?_
        exact .andThen fun _ => .andThen fun _ => .pure (.doWhile h)
      · exact .andThen fun _ => .andThen fun _ => .andThen fun _ => .pure .leaveLoop
      · exact .andThen fun _ => .andThen fun _ => .andThen fun _ => .pure .nextRound
      · exact .andThen fun _ => .andThen fun _ => .andThen fun _ => .pure .discard
      · exact .andThen fun _ => .andThen fun _ => .andThen fun _ => .andThen fun _ => .pure .ret
      · exact (places_optional (ih.braced fuel) fuel fuel).mono fun _ h => h.1
      · exact places_variableDeclaration fuel
      · refine .andThen fun _ => .ite (fun _ => places_variableDeclaration fuel) fun _ => ?_
        exact .andThen fun _ => .andThen fun _ => .andThen fun _ => .pure .expr

theorem places_struct (fuel : Nat) (start : Span) :
    Yields (struct names fuel start) (Placed false .file) := by
  refine .andThen fun _ => .andThen fun _ => .andThen fun _ => .andThen fun _ => ?_
  exact .andThen fun _ => .andThen fun _ => .andThen fun _ => .pure .struct

/-- The body of a function holds statements, and no option block among them. -/
theorem places_function (fuel : Nat) (as : Attributes) (t : Ty) (name : String) :
    Yields (function names fuel as t name) (Placed false .file) := by
  have hstatement : Yields (statement names fuel) (Placed false .body) := places_statement fuel
  have hbody := hstatement.braced fuel
  unfold function
  dsimp only
  refine .andThen fun _ => .andThen fun _ => .andThen fun _ => .ite (fun _ => ?_) fun _ => ?_
  · exact .andThen fun _ => .andThen fun _ => hbody.bind fun body h => .andThen fun _ =>
      .pure (.function h)
  · exact .andThen fun _ => .andThen fun _ => hbody.bind fun body h => .andThen fun _ =>
      .pure (.function h)

theorem places_library (fuel : Nat) (start : Span) :
    Yields (library fuel start) (Placed false .file) :=
  .andThen fun _ => .andThen fun _ => .andThen fun _ => .andThen fun _ => .andThen fun _ =>
    .pure .library

/-- An item is a declaration, and only the functions in it hold statements. -/
theorem places_item (fuel : Nat) : Yields (item names fuel) (Placed false .file) := by
  induction fuel with
  | zero => exact .spent
  | succ fuel ih =>
      unfold item
      dsimp only
      refine .andThen fun as => .andThen fun t => ?_
      split
      · exact .andThen fun _ => places_struct fuel _
      · exact .andThen fun _ => .andThen fun _ => .andThen fun _ => .pure .inputs
      · exact .andThen fun _ => .andThen fun _ => .andThen fun _ => .pure .outputs
      · exact .andThen fun _ => .andThen fun _ => .andThen fun _ => .pure .externals
      · exact .andThen fun _ => .andThen fun _ => .andThen fun _ => .pure .options
      · refine .andThen fun _ => .ite (fun _ => ?_) fun _ => ?_
        · exact .andThen fun _ => .andThen fun _ => .andThen fun _ => .pure .consts
        · exact .andThen fun _ => places_variableDeclaration fuel
      · exact .andThen fun _ => (places_optional (ih.braced fuel) fuel fuel).mono fun _ h => h.1
      · exact .andThen fun _ => places_library fuel _
      · refine .andThen fun _ => .andThen fun _ => .andThen fun _ => .ite (fun _ => ?_)
          fun _ => ?_
        · exact places_function fuel _ _ _
        · exact .andThen fun _ => places_finishVariable fuel _ _ _ _
      · exact .unexpected _

/-- The items of a file stand at file level. -/
theorem places_file (fuel : Nat) :
    Yields (file names fuel) fun s => Placed false .file s ∧ s.isOptions = false := by
  refine .andThen fun _ => ((places_item fuel).upTo _ _).bind fun items hitems => ?_
  refine .andThen fun _ => .ite (fun _ => ?_) fun _ => .unexpected _
  split
  · exact .pure ⟨.block (by simp), rfl⟩
  · exact .andThen fun _ => .pure ⟨.block hitems, rfl⟩

end Parse

section Parsed

variable {tokens : List Token} {registry : Registry} {tree : Stmt}

/-- A file that is parsed is no option block, and those in it stand in lists. -/
theorem placed_and_not_isOptions (h : parseTokens tokens registry = .ok tree) :
    tree.Placed false .file ∧ tree.isOptions = false := by
  obtain ⟨⟨s, c⟩, hfile, hs⟩ := Except.bind_eq_ok_iff.mp h
  cases hs
  exact Parse.places_file _ _ _ _ hfile

/-- In a parsed tree declarations stand in the file and statements in its functions. -/
theorem placed_of_parseTokens (h : parseTokens tokens registry = .ok tree) :
    tree.Placed false .file :=
  (placed_and_not_isOptions h).1

/-- In a parsed tree option blocks stand in lists only. -/
theorem optionsListed_of_parseTokens (h : parseTokens tokens registry = .ok tree) :
    tree.OptionsListed :=
  (placed_of_parseTokens h).optionsListed.resolve_left
    (Bool.eq_false_iff.mp (placed_and_not_isOptions h).2)

end Parsed

end Shading
