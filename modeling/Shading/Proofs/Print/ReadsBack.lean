import Shading.Proofs.Parse.Exact
import Shading.Proofs.Print.Expr
import Shading.Proofs.Syntax.ErasedNodes
import Shading.Proofs.Parse.Canonical
import Shading.Proofs.Token.Partition

/-!
# Expressions that are read back

An expression is printed with as few parentheses as its shape calls for, whatever the shape.
Where each of its names means what the tree says, the text is read back as the tree, places
apart; a struct with the name of a built-in function and a struct with the name of a type of
the dialect are the only names that mean something else.
-/

namespace Shading

open Lexer (isName Faultless)
open Kind (wrapped parenthesized Writable)
open Parse

/-- A value that a literal stands for, or the smallest integer. -/
def Constant.Denoted : Constant → Prop
  | .bool _ | .uint _ => True
  | .int i => 0 ≤ i ∨ i = Int32.minValue
  | .float x => x.isFinite = true ∧ x.isNegative = false

/-- A type of the dialect or a struct that is known, or arrays of one with sizes that have
literals. -/
structure Ty.Known (names : Names) (t : Ty) : Prop where
  base : (∃ name, names.registry.type? name = some t.base) ∨
    ∃ name ∈ names.structs, isName name = true ∧ t.base = .struct name
  sizes : ∀ n, .fixed n ∈ t.dims → n ≤ Number.intLimit

/-- One to four components of a vector. -/
structure Swizzle.Proper (selection : Swizzle) : Prop where
  nonempty : selection.components ≠ []
  length_le : selection.components.length ≤ 4
  lt_four : ∀ i ∈ selection.components, i < 4

namespace Expr

/-- Whether the expression is a constant that a number is printed for. -/
def isNumber : Expr → Bool
  | .constant _ (.bool _) => false
  | .constant _ _ => true
  | _ => false

/-- What the source language has a text for: its values have literals, its names are names and
stand for what their forms say, and no number has a member. -/
inductive Expressible (names : Names) : Expr → Prop
  | constant {s : Span} {value : Constant} (hvalue : value.Denoted) :
      Expressible names (.constant s value)
  | ref {s : Span} {name : String} (hname : isName name = true)
      (htype : names.type? name = none) : Expressible names (.ref s name)
  | index {s : Span} {base place : Expr} (hbase : Expressible names base)
      (hplace : Expressible names place) : Expressible names (.index s base place)
  | field {s : Span} {base : Expr} {name : String} (hbase : Expressible names base)
      (hnumber : base.isNumber = false) (hname : isName name = true)
      (hswizzle : Swizzle.ofName? name = none) : Expressible names (.field s base name)
  | swizzle {s : Span} {base : Expr} {selection : Swizzle} (hbase : Expressible names base)
      (hnumber : base.isNumber = false) (hselection : selection.Proper) :
      Expressible names (.swizzle s base selection)
  | assign {s : Span} {op : AssignOp} {target value : Expr} (htarget : Expressible names target)
      (hvalue : Expressible names value) : Expressible names (.assign s op target value)
  | unary {s : Span} {op : UnaryOp} {operand : Expr} (hoperand : Expressible names operand) :
      Expressible names (.unary s op operand)
  | binary {s : Span} {op : BinaryOp} {left right : Expr} (hleft : Expressible names left)
      (hright : Expressible names right) : Expressible names (.binary s op left right)
  | call {s : Span} {name : String} {args : List Expr} (hname : isName name = true)
      (htype : names.type? name = none) (hfunction : names.registry.function? name = none)
      (hargs : ∀ a ∈ args, Expressible names a) : Expressible names (.call s name args)
  | builtin {s : Span} {f : BuiltinFunction} {args : List Expr}
      (hargs : ∀ a ∈ args, Expressible names a) : Expressible names (.builtin s f args)
  | cast {s : Span} {target : Ty} {args : List Expr} (htarget : target.Known names)
      (hargs : ∀ a ∈ args, Expressible names a) : Expressible names (.cast s target args)
  | ternary {s : Span} {c t f : Expr} (hc : Expressible names c) (ht : Expressible names t)
      (hf : Expressible names f) : Expressible names (.ternary s c t f)

/-- The text of the expression is read back as the expression, places apart, up to the end of
the text. -/
def ReadsBack (names : Names) (e : Expr) : Prop :=
  ∃ text tokens, e.text .source = .ok text ∧ tokenize text = .ok tokens ∧
    ∀ fuel, tokens.length ≤ fuel → ∃ e' c,
      expression names fuel (Cursor.ofTokens tokens) = .ok (e', c) ∧ e'.erased = e.erased ∧
        c.kinds = [.eof]

end Expr

/-- Neither a struct takes the name of a built-in function that is called here, nor the dialect
the name of a struct that is constructed here. -/
def Node.Unshadowed (names : Names) : Node → Prop
  | .expr (.builtin _ f _) => f.name ∉ names.structs
  | .expr (.cast _ target _) => ∀ name ∈ target.structName?, names.registry.type? name = none
  | _ => True

instance (names : Names) : DecidablePred (Node.Unshadowed names)
  | .expr (.builtin _ f _) => inferInstanceAs (Decidable (f.name ∉ names.structs))
  | .expr (.cast _ target _) =>
    inferInstanceAs (Decidable (∀ name ∈ target.structName?, names.registry.type? name = none))
  | .expr (.constant _ _) | .expr (.ref _ _) | .expr (.index _ _ _) | .expr (.field _ _ _)
  | .expr (.assign _ _ _ _) | .expr (.unary _ _ _) | .expr (.binary _ _ _ _) | .expr (.call _ _ _)
  | .expr (.swizzle _ _ _) | .expr (.ternary _ _ _ _) | .stmt _ | .function _ | .type _ =>
    inferInstanceAs (Decidable True)

/-- Nothing in the expression is hidden by a struct of its name. -/
def Expr.Unshadowed (names : Names) (e : Expr) : Prop := ∀ n ∈ e.nodes, n.Unshadowed names

instance (names : Names) (e : Expr) : Decidable (e.Unshadowed names) :=
  inferInstanceAs (Decidable (∀ n ∈ e.nodes, n.Unshadowed names))

namespace SwizzleSet

theorem getD_mem_letters (set : SwizzleSet) : ∀ i < 4, set.letters.getD i '?' ∈ set.letters := by
  cases set <;> decide

theorem idxOf?_getD (set : SwizzleSet) :
    ∀ i < 4, set.letters.idxOf? (set.letters.getD i '?') = some i := by
  cases set <;> decide

/-- No letter is in two alphabets. -/
theorem find?_letters (set : SwizzleSet) :
    ∀ c ∈ set.letters, all.find? (·.letters.contains c) = some set := by
  have hall : set.letters.all (fun c => all.find? (·.letters.contains c) = some set) = true := by
    cases set <;> decide
  simpa only [List.all_eq_true, decide_eq_true_eq] using hall

/-- The letters of a set may start a word. -/
theorem isWordStart_of_mem_letters (set : SwizzleSet) :
    ∀ c ∈ set.letters, Lexer.isWordStart c = true := by
  have hall : set.letters.all Lexer.isWordStart = true := by cases set <;> decide
  exact List.all_eq_true.mp hall

theorem utf8Size_of_mem_letters (set : SwizzleSet) : ∀ c ∈ set.letters, c.utf8Size = 1 := by
  have hall : set.letters.all (·.utf8Size = 1) = true := by cases set <;> decide
  simpa only [List.all_eq_true, decide_eq_true_eq] using hall

/-- Every keyword has a letter that the alphabet lacks. -/
theorem exists_notMem_letters (set : SwizzleSet) :
    ∀ k ∈ Keyword.all, ∃ c ∈ k.text.toList, c ∉ set.letters := by
  have hall : Keyword.all.all (fun k => k.text.toList.any (· ∉ set.letters)) = true := by
    cases set <;> decide
  simpa only [List.all_eq_true, List.any_eq_true, decide_eq_true_eq] using hall

end SwizzleSet

namespace Swizzle

variable {selection : Swizzle}

/-- The letters of a selection come from its set. -/
theorem mem_letters_of_mem_text (h : selection.Proper) {c : Char}
    (hc : c ∈ selection.text.toList) : c ∈ selection.set.letters := by
  rw [text, String.toList_ofList] at hc
  obtain ⟨i, hi, rfl⟩ := List.mem_map.mp hc
  exact selection.set.getD_mem_letters i (h.lt_four i hi)

theorem exists_toList_text_eq_cons (h : selection.Proper) :
    ∃ c cs, selection.text.toList = c :: cs := by
  obtain ⟨i, is, hcomponents⟩ := List.exists_cons_of_ne_nil h.nonempty
  rw [text, String.toList_ofList, hcomponents]
  exact ⟨_, _, rfl⟩

/-- A proper selection is spelled as a name. -/
theorem isName_text (h : selection.Proper) : isName selection.text = true := by
  have hword {c : Char} (hc : c ∈ selection.text.toList) : Lexer.isWordStart c = true :=
    selection.set.isWordStart_of_mem_letters c (mem_letters_of_mem_text h hc)
  have hnone : Keyword.ofText? selection.text = none := by
    refine List.find?_eq_none.mpr fun k hk => ?_
    obtain ⟨c, hc, hother⟩ := selection.set.exists_notMem_letters k hk
    simp only [decide_eq_true_eq]
    intro heq
    exact hother (mem_letters_of_mem_text h (heq ▸ hc))
  obtain ⟨c, cs, htext⟩ := exists_toList_text_eq_cons h
  have hfirst : Lexer.isWordStart c = true := hword (by simp [htext])
  have hrest : cs.all Lexer.isWordChar = true := List.all_eq_true.mpr fun d hd =>
    Lexer.isWordChar_of_isWordStart (hword (by simp [htext, hd]))
  simp only [isName, htext, hfirst, hrest, hnone, Option.isNone_none, Bool.and_self]

/-- A selection has a letter for every component. -/
theorem utf8ByteSize_text (h : selection.Proper) :
    selection.text.utf8ByteSize = selection.components.length := by
  have hbytes {cs : List Char} (hcs : ∀ c ∈ cs, c ∈ selection.set.letters) :
      Lexer.byteLength cs = cs.length := by
    induction cs with
    | nil => rfl
    | cons c cs ih =>
        rw [Lexer.byteLength_cons, List.length_cons,
          selection.set.utf8Size_of_mem_letters c (hcs c (by simp)),
          ih fun d hd => hcs d (List.mem_cons_of_mem _ hd), Nat.add_comm]
  rw [utf8ByteSize_eq, hbytes fun c hc => mem_letters_of_mem_text h hc, text,
    String.toList_ofList, List.length_map]

/-- A swizzle is read from the word that it is printed as. -/
theorem ofName?_text (h : selection.Proper) : ofName? selection.text = some selection := by
  have hcomponents {is : List Nat} (his : ∀ i ∈ is, i < 4) :
      (is.map fun i => selection.set.letters.getD i '?').mapM selection.set.letters.idxOf?
        = some is := by
    induction is with
    | nil => rfl
    | cons i is ih =>
        rw [List.map_cons, List.mapM_cons, selection.set.idxOf?_getD i (his i (by simp)),
          ih fun j hj => his j (List.mem_cons_of_mem _ hj)]
        rfl
  have hsize : ¬4 < selection.text.utf8ByteSize := by
    rw [utf8ByteSize_text h]
    exact Nat.not_lt.mpr h.length_le
  obtain ⟨c, cs, htext⟩ := exists_toList_text_eq_cons h
  have hset := selection.set.find?_letters c (mem_letters_of_mem_text h (by simp [htext]))
  have hread := hcomponents h.lt_four
  rw [← String.toList_ofList (l := selection.components.map _)] at hread
  change selection.text.toList.mapM _ = _ at hread
  simp only [ofName?, htext, hsize, if_false, hset]
  rw [← htext, hread]
  rfl

end Swizzle

namespace Constant

/-- A constant that a literal denotes can be written. -/
theorem writable_kinds {c : Constant} (h : c.Denoted) : Writable c.kinds := by
  cases c with
  | bool b => simp [kinds]
  | int i => by_cases hi : i < 0 <;> simp [kinds, hi]
  | uint u => simp [kinds, Writable, Kind.Spellable]
  | float x => simpa [kinds, Writable, Kind.Spellable, Denoted] using h

/-- A constant that a literal denotes is derived from its kinds. -/
theorem derives_kinds {names : Names} {c : Constant} (h : c.Denoted) :
    Derives names .primary c.kinds (.constant .dummy c) := by
  cases c with
  | bool b => cases b <;> exact .literal rfl
  | uint u => exact .literal rfl
  | float x => exact .literal rfl
  | int i =>
      rcases h with hi | rfl
      · have hle : 0 ≤ i.toInt := Int32.le_iff_toInt_le.mp hi
        have hlt : i.toInt ≤ 2147483647 := i.toInt_le
        have hmax : i.toInt.natAbs ≤ intMax := by
          unfold intMax
          omega
        have hofNat : Int32.ofNat i.toInt.natAbs = i := by
          rw [← Int32.ofInt_eq_ofNat, Int.natAbs_of_nonneg hle, Int32.ofInt_toInt]
        have hpos : ¬i < 0 := Int32.not_lt.mpr hi
        simp only [kinds, hpos, if_false]
        exact .literal (by simp [literal?, hmax, hofNat])
      · exact .parens (Derives.minInt.weaken (Nat.zero_le _))

/-- The kinds of such a constant are read without a fault. -/
theorem faultless_kinds {c : Constant} (h : c.Denoted) : Faultless c.kinds := by
  cases c with
  | bool b => cases b <;> decide
  | uint u => simp [kinds, Faultless, Kind.isTooLarge]
  | float x => simp [kinds, Faultless, Kind.isTooLarge]
  | int i =>
      have hle : -2147483648 ≤ i.toInt := i.le_toInt
      have hlt : i.toInt ≤ 2147483647 := i.toInt_le
      have hsize : i.toInt.natAbs ≤ Number.intLimit := by
        unfold Number.intLimit
        omega
      by_cases hi : i < 0 <;>
        simp [kinds, hi, parenthesized, Faultless, Kind.isTooLarge, Kind.isNumber, hsize]

end Constant

namespace Ty.Known

variable {structs : List String} {t : Ty}

/-- A known type is read from the name that it is printed with, unless it is a struct whose name
the dialect takes. -/
theorem legible (h : t.Known ⟨.standard, structs⟩)
    (hstruct : ∀ name ∈ t.structName?, Registry.standard.type? name = none) :
    t.Legible ⟨.standard, structs⟩ := by
  have hsizes (n : Nat) (hn : .fixed n ∈ t.dims) : n < arraySizeBound := by
    have hle := h.sizes n hn
    unfold Number.intLimit at hle
    unfold arraySizeBound
    omega
  have hbaseName : t.baseName = t.base.baseName := by
    conv_lhs => rw [← t.arrayOf_dims_base, baseName_arrayOf]
  rcases h.base with ⟨name, hname⟩ | ⟨name, hname, hword, hbase⟩
  · obtain ⟨hword, hself, -⟩ := Registry.standard_type? hname
    refine ⟨hbaseName ▸ hword, ?_, hsizes⟩
    simp only [Names.type?, hbaseName, hself]
  · have hnone := hstruct name (by rw [← structName?_base, hbase]; rfl)
    refine ⟨?_, ?_, hsizes⟩
    · rwa [hbaseName, hbase]
    · rw [hbaseName, hbase]
      simp only [Names.type?, baseName, hnone, hname, if_true]

/-- The kinds of a type that is known are read without a fault. -/
theorem faultless_kinds {names : Names} (h : t.Known names) : Faultless t.kinds := by
  have hdims {dims : List ArraySize} (hsizes : ∀ n, .fixed n ∈ dims → n ≤ Number.intLimit) :
      Faultless (dims.flatMap ArraySize.kinds) := by
    induction dims with
    | nil => trivial
    | cons d dims ih =>
        have htail := ih fun n hn => hsizes n (List.mem_cons_of_mem _ hn)
        cases d with
        | implicit => simpa [ArraySize.kinds, Faultless, Kind.isTooLarge, Kind.isNumber] using htail
        | fixed n =>
            have hn : n ≤ Number.intLimit := hsizes n (by simp)
            simpa [ArraySize.kinds, Faultless, Kind.isTooLarge, Kind.isNumber, hn] using htail
  refine ⟨rfl, ?_, hdims h.sizes⟩
  simp [Kind.isNumber]

end Ty.Known

namespace Lexer.Faultless

variable {k : Kind} {ks ls : List Kind}

/-- Two parts are read without a fault where no number meets a dot between them. -/
theorem append (hks : Faultless ks) (hls : Faultless ls)
    (h : ∀ k ∈ ks.getLast?, k.isNumber = true → ls.head? ≠ some (.symbol .dot)) :
    Faultless (ks ++ ls) := by
  induction ks with
  | nil => exact hls
  | cons k ks ih =>
      obtain ⟨hsize, hdot, hrest⟩ := hks
      cases ks with
      | nil => exact ⟨hsize, h k (by simp), hls⟩
      | cons l ks => exact ⟨hsize, hdot, ih hrest (by simpa using h)⟩

/-- A symbol other than the point may follow with what comes after it. -/
theorem symbol {x : Symbol} (hks : Faultless ks) (hls : Faultless ls) (hx : x ≠ .dot) :
    Faultless (ks ++ .symbol x :: ls) := by
  refine hks.append ⟨rfl, nofun, hls⟩ fun _ _ _ => ?_
  simpa using hx

theorem close {x : Symbol} (hks : Faultless ks) (hx : x ≠ .dot) : Faultless (ks ++ [.symbol x]) :=
  hks.symbol trivial hx

theorem cons {x : Symbol} (hks : Faultless ks) : Faultless (.symbol x :: ks) := ⟨rfl, nofun, hks⟩

theorem parenthesized (hks : Faultless ks) : Faultless (Kind.parenthesized ks) :=
  .cons (hks.close (by decide))

/-- Parentheses add no fault. -/
theorem wrapped (hks : Faultless ks) (parens : Bool) : Faultless (Kind.wrapped parens ks) := by
  cases parens with
  | false => exact hks
  | true => exact hks.parenthesized

theorem argumentList {parts : List (List Kind)} (h : ∀ part ∈ parts, Faultless part) :
    Faultless (Parse.argumentList parts) := by
  have hcommas : Faultless (commas parts) := by
    induction parts with
    | nil => trivial
    | cons p ps ih =>
        have hp := h p (by simp)
        have hps := ih fun q hq => h q (List.mem_cons_of_mem _ hq)
        cases ps with
        | nil => exact hp
        | cons q qs => exact hp.symbol hps (by decide)
  exact hcommas.parenthesized

end Lexer.Faultless

namespace Expr

variable {names : Names} {e : Expr}

/-- What stands before a point is no number, unless it is a number in the tree too. -/
theorem isNumber_getLast_wrapped (h : e.isNumber = false) :
    ∀ k ∈ (wrapped (e.needsParens .postfixed false) e.kinds).getLast?, k.isNumber = false := by
  have hlast (ls : List Kind) {ks : List Kind} {k : Kind} (hks : ks = ls ++ [k])
      (hk : k.isNumber = false) : ∀ l ∈ ks.getLast?, l.isNumber = false := by
    intro l hl
    rw [hks, List.getLast?_concat] at hl
    cases hl
    exact hk
  have hparens (hweak : e.needsParens .postfixed false = true) :
      ∀ k ∈ (wrapped (e.needsParens .postfixed false) e.kinds).getLast?, k.isNumber = false := by
    rw [hweak]
    exact hlast (.symbol .lparen :: e.kinds) rfl rfl
  cases e with
  | constant _ value =>
      cases value with
      | bool b => exact hlast [] rfl rfl
      | int _ | uint _ | float _ => cases h
  | ref _ name => exact hlast [] rfl rfl
  | index _ base place =>
      exact hlast _ (List.append_assoc _ (.symbol .lbracket :: place.kinds) _).symm rfl
  | field _ base name | swizzle _ base selection =>
      exact hlast _ (List.append_assoc _ [Kind.symbol .dot] _).symm rfl
  | call _ name args | builtin _ f args =>
      exact hlast (.ident _ :: .symbol .lparen :: commas (kindsList args)) rfl rfl
  | cast _ target args =>
      exact hlast _ (List.append_assoc _ (.symbol .lparen :: commas (kindsList args)) _).symm rfl
  | assign _ op target value => exact hparens rfl
  | unary _ op operand => exact hparens rfl
  | binary _ op left right => exact hparens (by cases op <;> rfl)
  | ternary _ c t f => exact hparens rfl

/-- No number of an expressible tree is too large for a literal or runs into a point. -/
theorem Expressible.faultless (h : e.Expressible names) : Faultless e.kinds := by
  have hmember {base : Expr} {name : String} (hbase : Faultless base.kinds)
      (hnumber : base.isNumber = false) :
      Faultless (wrapped (base.needsParens .postfixed false) base.kinds ++
        [.symbol .dot, .ident name]) := by
    refine (hbase.wrapped _).append ⟨rfl, nofun, rfl, nofun, trivial⟩ fun k hk hnumeric => ?_
    rw [isNumber_getLast_wrapped hnumber k hk] at hnumeric
    cases hnumeric
  have hlist {args : List Expr} (hargs : ∀ a ∈ args, Faultless a.kinds) :
      Faultless (argumentList (kindsList args)) := by
    refine .argumentList fun part hpart => ?_
    rw [kindsList_eq_map] at hpart
    obtain ⟨a, ha, rfl⟩ := List.mem_map.mp hpart
    exact hargs a ha
  induction h with
  | constant hvalue => exact Constant.faultless_kinds hvalue
  | ref _ _ => exact ⟨rfl, nofun, trivial⟩
  | index _ _ ihbase ihplace =>
      exact (ihbase.wrapped _).symbol (ihplace.close (by decide)) (by decide)
  | field _ hnumber _ _ ih | swizzle _ hnumber _ ih => exact hmember ih hnumber
  | @assign _ op _ _ _ _ ihtarget ihvalue =>
      exact (ihtarget.wrapped _).symbol ihvalue (by cases op <;> decide)
  | unary _ ih => exact .cons (ih.wrapped _)
  | @binary _ op _ _ _ _ ihleft ihright =>
      exact (ihleft.wrapped _).symbol (ihright.wrapped _) (by cases op <;> decide)
  | call _ _ _ _ ihargs => exact ⟨rfl, nofun, hlist ihargs⟩
  | builtin _ ihargs => exact ⟨rfl, nofun, hlist ihargs⟩
  | cast htarget _ ihargs =>
      exact htarget.faultless_kinds.append (hlist ihargs) fun _ _ _ => by simp [argumentList]
  | ternary _ _ _ ihc iht ihf =>
      exact (ihc.wrapped _).symbol (iht.symbol (ihf.wrapped _) (by decide)) (by decide)

/-- The tokens of a part in parentheses derive it wherever it stands. -/
def Wrappable (names : Names) (e : Expr) : Prop :=
  ∃ ks, Writable ks ∧ Derives names .primary ks e.erased

/-- Arguments that can be wrapped are spelled and derived one by one. -/
theorem exists_parts {args : List Expr} (h : ∀ a ∈ args, Wrappable names a) :
    ∃ parts : List (List Kind × Expr), parts.map Prod.snd = args.map erased ∧
      (∀ part ∈ parts.map Prod.fst, Writable part) ∧
        ∀ p ∈ parts, Derives names .assign p.1 p.2 := by
  induction args with
  | nil => exact ⟨[], rfl, by simp, by simp⟩
  | cons a args ih =>
      obtain ⟨ks, hks, hderives⟩ := h a (by simp)
      obtain ⟨parts, hsnd, hwritable, hall⟩ := ih fun b hb => h b (List.mem_cons_of_mem _ hb)
      refine ⟨(ks, a.erased) :: parts, by simp [hsnd], ?_, ?_⟩
      · exact List.forall_mem_cons.mpr ⟨hks, hwritable⟩
      · intro p hp
        rcases List.mem_cons.mp hp with rfl | hp
        · exact hderives.weaken (Nat.zero_le _)
        · exact hall p hp

end Expr

/-- A builtin function is found by its name, which is that of no type. -/
theorem Registry.standard_builtin (f : BuiltinFunction) : isName f.name = true ∧
    standard.type? f.name = none ∧ standard.function? f.name = some f := by
  have hall : ∀ f ∈ BuiltinFunction.all, isName f.name = true ∧
      standard.type? f.name = none ∧ standard.function? f.name = some f := by
    decide +kernel
  exact hall f f.mem_all

namespace Expr

variable {structs : List String} {e : Expr}

theorem unshadowed_append {ns ms : List Node} {names : Names} :
    (∀ n ∈ ns ++ ms, n.Unshadowed names) ↔
      (∀ n ∈ ns, n.Unshadowed names) ∧ ∀ n ∈ ms, n.Unshadowed names := by
  simp [or_imp, forall_and]

theorem mem_nodesList {n : Node} {args : List Expr} :
    n ∈ nodesList args ↔ ∃ a ∈ args, n ∈ a.nodes := by
  induction args with
  | nil => simp [nodesList]
  | cons a args ih => simp [nodesList, ih]

/-- In parentheses throughout, an expressible tree is derived if nothing in it is shadowed. -/
theorem Expressible.wrappable (h : e.Expressible ⟨.standard, structs⟩)
    (hnodes : e.Unshadowed ⟨.standard, structs⟩) : e.Wrappable ⟨.standard, structs⟩ := by
  have hparens {level : Precedence} {ks : List Kind} {t : Expr}
      (hderives : Derives ⟨.standard, structs⟩ level ks t.erased) (hks : Writable ks) :
      t.Wrappable ⟨.standard, structs⟩ :=
    ⟨parenthesized ks, by simpa using hks, .parens (hderives.weaken (Nat.zero_le _))⟩
  have hlist {args : List Expr}
      (ih : ∀ a ∈ args, a.Unshadowed ⟨.standard, structs⟩ → a.Wrappable ⟨.standard, structs⟩)
      (hargs : ∀ n ∈ nodesList args, n.Unshadowed ⟨.standard, structs⟩) :
      ∃ parts : List (List Kind × Expr), parts.map Prod.snd = args.map erased ∧
        (∀ part ∈ parts.map Prod.fst, Writable part) ∧
        ∀ p ∈ parts, Derives ⟨.standard, structs⟩ .assign p.1 p.2 :=
    exists_parts fun a ha => ih a ha fun n hn => hargs n (mem_nodesList.mpr ⟨a, ha, hn⟩)
  induction h with
  | constant hvalue => exact ⟨_, Constant.writable_kinds hvalue, Constant.derives_kinds hvalue⟩
  | ref hname htype => exact ⟨[.ident _], by simpa [Kind.spellable_ident], .ref htype⟩
  | index _ _ ihbase ihplace =>
      simp only [Unshadowed, nodes, List.forall_mem_cons, unshadowed_append] at hnodes
      obtain ⟨bs, hbs, hbase⟩ := ihbase hnodes.2.1
      obtain ⟨ps, hps, hplace⟩ := ihplace hnodes.2.2
      have hderives := Derives.index (hbase.weaken (le_primary _)) (hplace.weaken (le_primary _))
      exact hparens (by simpa using hderives) (by simpa using ⟨hbs, hps⟩)
  | field _ _ hname hswizzle ih =>
      simp only [Unshadowed, nodes, List.forall_mem_cons] at hnodes
      obtain ⟨bs, hbs, hbase⟩ := ih hnodes.2
      have hderives := Derives.field (hbase.weaken (le_primary _)) hswizzle
      exact hparens (by simpa using hderives) (by simpa [Kind.spellable_ident] using ⟨hbs, hname⟩)
  | swizzle _ _ hselection ih =>
      simp only [Unshadowed, nodes, List.forall_mem_cons] at hnodes
      obtain ⟨bs, hbs, hbase⟩ := ih hnodes.2
      have hname := Swizzle.isName_text hselection
      have hderives :=
        Derives.swizzle (hbase.weaken (le_primary _)) (Swizzle.ofName?_text hselection)
      exact hparens (by simpa using hderives) (by simpa [Kind.spellable_ident] using ⟨hbs, hname⟩)
  | @assign _ op _ _ _ _ ihtarget ihvalue =>
      simp only [Unshadowed, nodes, List.forall_mem_cons, unshadowed_append] at hnodes
      obtain ⟨ts, hts, htarget⟩ := ihtarget hnodes.2.1
      obtain ⟨vs, hvs, hvalue⟩ := ihvalue hnodes.2.2
      have hderives := Derives.assign op.assignOp?_token (htarget.weaken (le_primary _))
        (hvalue.weaken (le_primary _))
      exact hparens (by simpa using hderives) (by simpa using ⟨hts, hvs⟩)
  | @unary _ op _ _ ih =>
      simp only [Unshadowed, nodes, List.forall_mem_cons] at hnodes
      obtain ⟨ks, hks, hoperand⟩ := ih hnodes.2
      have hderives := Derives.unary op.unaryOp?_token (hoperand.weaken (le_primary _))
      exact hparens (by simpa using hderives) (by simpa using hks)
  | @binary _ op _ _ _ _ ihleft ihright =>
      simp only [Unshadowed, nodes, List.forall_mem_cons, unshadowed_append] at hnodes
      obtain ⟨ls, hls, hleft⟩ := ihleft hnodes.2.1
      obtain ⟨rs, hrs, hright⟩ := ihright hnodes.2.2
      have hderives := Derives.binary op.binaryOp?_token (hleft.weaken (le_primary _))
        (hright.weaken (le_primary _))
      exact hparens (by simpa using hderives) (by simpa using ⟨hls, hrs⟩)
  | @call _ name _ hname htype hfunction _ ih =>
      simp only [Unshadowed, nodes, List.forall_mem_cons] at hnodes
      obtain ⟨parts, hsnd, hwritable, hall⟩ := hlist ih hnodes.2
      have hderives := Derives.call htype hfunction hall
      rw [hsnd] at hderives
      exact ⟨.ident name :: argumentList (parts.map Prod.fst),
        Kind.writable_cons.mpr ⟨hname, Kind.writable_argumentList.mpr hwritable⟩,
        by simpa using hderives⟩
  | @builtin _ f _ _ ih =>
      simp only [Unshadowed, nodes, List.forall_mem_cons] at hnodes
      obtain ⟨parts, hsnd, hwritable, hall⟩ := hlist ih hnodes.2
      obtain ⟨hname, hnone, hfunction⟩ := Registry.standard_builtin f
      have hstruct : f.name ∉ structs := hnodes.1
      have htype : Names.type? ⟨.standard, structs⟩ f.name = none := by
        simp only [Names.type?, hnone, hstruct, if_false]
      have hderives := Derives.builtin htype hfunction hall
      rw [hsnd] at hderives
      exact ⟨.ident f.name :: argumentList (parts.map Prod.fst),
        Kind.writable_cons.mpr ⟨hname, Kind.writable_argumentList.mpr hwritable⟩,
        by simpa using hderives⟩
  | @cast _ target _ htarget _ ih =>
      simp only [Unshadowed, nodes, List.forall_mem_cons] at hnodes
      obtain ⟨parts, hsnd, hwritable, hall⟩ := hlist ih hnodes.2.2
      have hlegible := htarget.legible hnodes.1
      have hderives := Derives.cast hlegible.type (brackets_of_sizes hlegible.sizes) hall
      change Derives _ _ _ (.cast .dummy (Ty.arrayOf target.dims target.base) _) at hderives
      rw [hsnd, Ty.arrayOf_dims_base] at hderives
      refine ⟨target.kinds ++ argumentList (parts.map Prod.fst), ?_,
        by simpa [Ty.kinds] using hderives⟩
      exact Kind.writable_append.mpr
        ⟨hlegible.writable, Kind.writable_argumentList.mpr hwritable⟩
  | ternary _ _ _ ihc iht ihf =>
      simp only [Unshadowed, nodes, List.forall_mem_cons, unshadowed_append] at hnodes
      obtain ⟨cs, hcs, hc⟩ := ihc hnodes.2.1.1
      obtain ⟨ts, hts, ht⟩ := iht hnodes.2.1.2
      obtain ⟨fs, hfs, hf⟩ := ihf hnodes.2.2
      have hderives := Derives.ternary (hc.weaken (le_primary _)) (ht.weaken (le_primary _))
        (hf.weaken (le_primary _))
      exact hparens (by simpa using hderives) (by simpa using ⟨hcs, hts, hfs⟩)

/-- An expression without shadowed names reads back. -/
theorem Expressible.readsBack (h : e.Expressible ⟨.standard, structs⟩)
    (hnodes : e.Unshadowed ⟨.standard, structs⟩) : e.ReadsBack ⟨.standard, structs⟩ := by
  obtain ⟨ks, hks, hderives⟩ := h.wrappable hnodes
  obtain ⟨hcanonical, hwritable, -⟩ := hderives.canonical rfl hks
  rw [kinds_erased] at hcanonical hwritable
  obtain ⟨text, htext, hphrase, -⟩ := operand_text e hwritable
  have hspells : Lexer.Spells [] text.toList e.kinds := hphrase [] (by simp)
  obtain ⟨tokens, htokens, hkinds⟩ :=
    Lexer.scan_of_spells hspells h.faultless _ (Nat.le_refl _) 0 Position.origin
  refine ⟨text, tokens, htext, htokens, fun fuel hfuel => ?_⟩
  have hlength : e.kinds.length ≤ fuel := by
    have heq := congrArg List.length hkinds
    simp only [List.length_map, List.length_append] at heq
    omega
  obtain ⟨e', c, hrun, hrest, he⟩ := readsAs_expression (hcanonical.weaken (Nat.zero_le _)) hlength
    [.eof] (ends_of_not_continues rfl _) (Cursor.ofTokens tokens) hkinds
  exact ⟨e', c, hrun, he, hrest⟩

end Expr

/-- Shadowing does not depend on spans. -/
theorem Node.unshadowed_erased {names : Names} (n : Node) :
    n.erased.Unshadowed names ↔ n.Unshadowed names := by
  cases n with
  | stmt _ | function _ | type _ => exact Iff.rfl
  | expr e => cases e <;> exact Iff.rfl

theorem Expr.unshadowed_erased {names : Names} (e : Expr) :
    e.erased.Unshadowed names ↔ e.Unshadowed names := by
  simp only [Unshadowed, nodes_erased, List.forall_mem_map, Node.unshadowed_erased]

/-- No type of the dialect is a struct. -/
theorem Registry.structName?_of_standard_type? {name : String} {t : Ty}
    (h : standard.type? name = some t) : t.structName? = none := by
  have hall : ∀ p ∈ standard.types, p.2.structName? = none := by decide +kernel
  exact hall _ (mem_of_lookup h)

namespace Parse

variable {structs : List String}

theorem unshadowed_list {names : Names} {parts : List (List Kind × Expr)}
    (h : ∀ p ∈ parts, p.2.Unshadowed names) :
    ∀ n ∈ Expr.nodesList (parts.map Prod.snd), n.Unshadowed names := by
  intro n hn
  obtain ⟨e, he, hn⟩ := Expr.mem_nodesList.mp hn
  obtain ⟨p, hp, rfl⟩ := List.mem_map.mp he
  exact h p hp n hn

/-- The grammar derives no tree with something shadowed in it. -/
theorem Derives.unshadowed {level : Precedence} {ks : List Kind} {e : Expr}
    (h : Derives ⟨.standard, structs⟩ level ks e) : e.Unshadowed ⟨.standard, structs⟩ := by
  induction h with
  | tighter _ ih | plus _ ih | parens _ ih => exact ih
  | assign _ _ _ ih ih' | binary _ _ _ ih ih' | index _ _ ih ih' =>
      exact List.forall_mem_cons.mpr ⟨trivial, Expr.unshadowed_append.mpr ⟨ih, ih'⟩⟩
  | ternary _ _ _ ihc iht ihf =>
      exact List.forall_mem_cons.mpr
        ⟨trivial, Expr.unshadowed_append.mpr ⟨Expr.unshadowed_append.mpr ⟨ihc, iht⟩, ihf⟩⟩
  | unary _ _ ih | swizzle _ _ ih | field _ _ ih => exact List.forall_mem_cons.mpr ⟨trivial, ih⟩
  | minInt | literal _ | ref _ => exact List.forall_mem_cons.mpr ⟨trivial, by simp⟩
  | call _ _ _ ih => exact List.forall_mem_cons.mpr ⟨trivial, unshadowed_list ih⟩
  | @builtin name f parts htype hfunction _ ih =>
      refine List.forall_mem_cons.mpr ⟨?_, unshadowed_list ih⟩
      obtain rfl := Registry.name_of_standard_function? hfunction
      intro hstruct
      simp [Names.type?, (Registry.standard_builtin f).2.1, hstruct] at htype
  | @cast name base bs dims parts htype _ _ ih =>
      refine List.forall_mem_cons.mpr ⟨?_, List.forall_mem_cons.mpr ⟨trivial, unshadowed_list ih⟩⟩
      intro other hother
      change other ∈ (Ty.arrayOf dims base).structName? at hother
      rw [← Ty.structName?_base, Ty.base_arrayOf, Ty.structName?_base] at hother
      unfold Names.type? at htype
      split at htype
      · rename_i t ht
        obtain rfl := Option.some.inj htype
        rw [Registry.structName?_of_standard_type? ht] at hother
        cases hother
      · rename_i hnone
        split at htype
        · obtain rfl := Option.some.inj htype
          cases hother
          exact hnone
        · cases htype

end Parse

namespace Expr

variable {structs : List String} {e : Expr}

/-- An expression that reads back has no shadowed name. -/
theorem ReadsBack.unshadowed (h : e.ReadsBack ⟨.standard, structs⟩) :
    e.Unshadowed ⟨.standard, structs⟩ := by
  obtain ⟨text, tokens, -, -, hread⟩ := h
  obtain ⟨e', c, hrun, he, -⟩ := hread _ (Nat.le_refl _)
  obtain ⟨ks, -, -, hderives⟩ := sound_expression _ _ _ _ _ hrun
  rw [he] at hderives
  exact (unshadowed_erased e).mp hderives.unshadowed

/-- An expressible tree of any shape is read back from its text, places apart, if and only if
nothing in it is shadowed. -/
theorem readsBack_iff_unshadowed (h : e.Expressible ⟨.standard, structs⟩) :
    e.ReadsBack ⟨.standard, structs⟩ ↔ e.Unshadowed ⟨.standard, structs⟩ :=
  ⟨ReadsBack.unshadowed, h.readsBack⟩

/-- Operands of every strength in places of every strength. -/
def nested : Expr :=
  .binary .dummy .mul
    (.ternary .dummy (.ref .dummy "a")
      (.assign .dummy .set (.ref .dummy "b") (.constant .dummy (.uint 3)))
      (.constant .dummy (.int Int32.minValue)))
    (.unary .dummy .neg (.unary .dummy .neg (.swizzle .dummy
      (.cast .dummy (.array (.struct "Light") (.fixed 2147483648))
        [.builtin .dummy .max [.ref .dummy "c"]]) ⟨[0, 1], .xyzw⟩)))

/-- Nested operators and signs read back, with the parentheses that are needed. -/
theorem nested_readsBack :
    nested.Expressible ⟨.standard, ["Light"]⟩ ∧ nested.Unshadowed ⟨.standard, ["Light"]⟩ ∧
      nested.text .source
        = .ok "(a ? b = 3u : (-2147483648)) * -(-Light[2147483648](max(c)).xy)" ∧
      nested.ReadsBack ⟨.standard, ["Light"]⟩ := by
  have hname {name : String} (hword : isName name = true)
      (htype : Names.type? ⟨.standard, ["Light"]⟩ name = none) :
      (Expr.ref .dummy name).Expressible ⟨.standard, ["Light"]⟩ := .ref hword htype
  have hexpressible : nested.Expressible ⟨.standard, ["Light"]⟩ := by
    refine .binary (.ternary (hname rfl rfl) (.assign (hname rfl rfl) (.constant trivial))
      (.constant (.inr rfl))) (.unary (.unary (.swizzle (.cast ?_ ?_) rfl ?_)))
    · exact ⟨.inr ⟨"Light", by simp, rfl, rfl⟩, by simp [Ty.dims, Number.intLimit]⟩
    · simp only [List.mem_singleton, forall_eq]
      exact .builtin (by simpa using hname rfl rfl)
    · exact ⟨by simp, by simp, by simp⟩
  have hunshadowed : nested.Unshadowed ⟨.standard, ["Light"]⟩ := by decide +kernel
  exact ⟨hexpressible, hunshadowed, rfl,
    (readsBack_iff_unshadowed hexpressible).mpr hunshadowed⟩

/-- `max(1, 2)` -/
def maximum : Expr :=
  .builtin .dummy .max [.constant .dummy (.int 1), .constant .dummy (.int 2)]

/-- `vec3(1)`, where `vec3` is a struct. -/
def column : Expr := .cast .dummy (.struct "vec3") [.constant .dummy (.int 1)]

/-- A struct with the name of a built-in function hides the function, and the dialect hides a
struct with the name of one of its types. -/
theorem shadowed_not_readsBack :
    (maximum.Expressible ⟨.standard, ["max"]⟩ ∧ ¬maximum.ReadsBack ⟨.standard, ["max"]⟩) ∧
      column.Expressible ⟨.standard, ["vec3"]⟩ ∧ ¬column.ReadsBack ⟨.standard, ["vec3"]⟩ := by
  have hnumber {names : Names} {i : Int32} (hi : 0 ≤ i) :
      (Expr.constant .dummy (.int i)).Expressible names := .constant (.inl hi)
  refine ⟨⟨.builtin ?_, fun h => ?_⟩, .cast ⟨?_, ?_⟩ ?_, fun h => ?_⟩
  · simpa using ⟨hnumber (by decide), hnumber (by decide)⟩
  · exact absurd h.unshadowed (by decide +kernel)
  · exact .inr ⟨"vec3", List.mem_cons_self, rfl, rfl⟩
  · simp [Ty.dims]
  · simpa using hnumber (by decide)
  · exact absurd h.unshadowed (by decide +kernel)

end Expr

end Shading
