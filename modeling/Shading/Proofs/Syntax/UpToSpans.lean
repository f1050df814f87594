import Mathlib.Tactic.Common
import Shading.Proofs.Syntax.Erased
import Shading.Syntax.Equality

/-!
# Equality up to spans

Two trees are equal up to spans when they have the same forms, names, operators, types and
literals, wherever they stand. This is read off the two trees side by side, and is the same as
equality of the trees without their spans.
-/

namespace Shading

namespace Expr

variable (eq : Constant → Constant → Bool)

mutual

/-- The expressions are equal but for their spans, with literals compared by an equality. -/
def equalUpToSpans : Expr → Expr → Bool
  | .constant _ v, .constant _ v' => eq v v'
  | .ref _ n, .ref _ n' => n == n'
  | .index _ b i, .index _ b' i' => equalUpToSpans b b' && equalUpToSpans i i'
  | .field _ b n, .field _ b' n' => equalUpToSpans b b' && n == n'
  | .assign _ op t v, .assign _ op' t' v' =>
    op == op' && equalUpToSpans t t' && equalUpToSpans v v'
  | .unary _ op e, .unary _ op' e' => op == op' && equalUpToSpans e e'
  | .binary _ op l r, .binary _ op' l' r' =>
    op == op' && equalUpToSpans l l' && equalUpToSpans r r'
  | .call _ n es, .call _ n' es' => n == n' && equalUpToSpansList es es'
  | .builtin _ f es, .builtin _ f' es' => f == f' && equalUpToSpansList es es'
  | .cast _ t es, .cast _ t' es' => t == t' && equalUpToSpansList es es'
  | .swizzle _ b w, .swizzle _ b' w' => equalUpToSpans b b' && w == w'
  | .ternary _ c t e, .ternary _ c' t' e' =>
    equalUpToSpans c c' && equalUpToSpans t t' && equalUpToSpans e e'
  | _, _ => false
termination_by structural e => e

def equalUpToSpansList : List Expr → List Expr → Bool
  | [], [] => true
  | e :: es, e' :: es' => equalUpToSpans e e' && equalUpToSpansList es es'
  | _, _ => false
termination_by structural es => es

end

def equalUpToSpansOption : Option Expr → Option Expr → Bool
  | none, none => true
  | some e, some e' => equalUpToSpans eq e e'
  | _, _ => false

mutual

/-- Two expressions are equal up to spans exactly where they are equal once their spans are erased.
-/
theorem equalUpToSpans_iff (a b : Expr) :
    equalUpToSpans (· == ·) a b = true ↔ a.erased = b.erased := by
  cases a with
  | constant s v => cases b <;> simp [equalUpToSpans]
  | ref s n => cases b <;> simp [equalUpToSpans]
  | index s base place =>
      cases b <;> simp [equalUpToSpans, equalUpToSpans_iff base, equalUpToSpans_iff place]
  | field s base n => cases b <;> simp [equalUpToSpans, equalUpToSpans_iff base]
  | assign s op target value =>
      cases b <;>
        simp [equalUpToSpans, equalUpToSpans_iff target, equalUpToSpans_iff value, and_assoc]
  | unary s op operand => cases b <;> simp [equalUpToSpans, equalUpToSpans_iff operand]
  | binary s op left right =>
      cases b <;>
        simp [equalUpToSpans, equalUpToSpans_iff left, equalUpToSpans_iff right, and_assoc]
  | call s n args => cases b <;> simp [equalUpToSpans, equalUpToSpansList_iff args]
  | builtin s f args => cases b <;> simp [equalUpToSpans, equalUpToSpansList_iff args]
  | cast s t args => cases b <;> simp [equalUpToSpans, equalUpToSpansList_iff args]
  | swizzle s base w => cases b <;> simp [equalUpToSpans, equalUpToSpans_iff base]
  | ternary s c t f =>
      cases b <;> simp [equalUpToSpans, equalUpToSpans_iff c, equalUpToSpans_iff t,
        equalUpToSpans_iff f, and_assoc]

theorem equalUpToSpansList_iff (as bs : List Expr) :
    equalUpToSpansList (· == ·) as bs = true ↔ as.map erased = bs.map erased := by
  cases as with
  | nil => cases bs <;> simp [equalUpToSpansList]
  | cons a as =>
      cases bs <;> simp [equalUpToSpansList, equalUpToSpans_iff a, equalUpToSpansList_iff as]

end

theorem equalUpToSpansOption_iff (a b : Option Expr) :
    equalUpToSpansOption (· == ·) a b = true ↔ a.map erased = b.map erased := by
  cases a <;> cases b <;> simp [equalUpToSpansOption, equalUpToSpans_iff]

mutual

/-- The equality that compares spans finds erased expressions alike exactly where they are equal up
to spans. -/
theorem same_erased (a b : Expr) :
    a.erased.same b.erased = equalUpToSpans Constant.same a b := by
  cases a with
  | constant s v =>
      cases b with
      | constant => simp [same, equalUpToSpans]
      | _ => rfl
  | ref s n =>
      cases b with
      | ref => simp [same, equalUpToSpans]
      | _ => rfl
  | index s base place =>
      cases b with
      | index => simp [same, equalUpToSpans, same_erased base, same_erased place]
      | _ => rfl
  | field s base n =>
      cases b with
      | field => simp [same, equalUpToSpans, same_erased base]
      | _ => rfl
  | assign s op target value =>
      cases b with
      | assign => simp [same, equalUpToSpans, same_erased target, same_erased value]
      | _ => rfl
  | unary s op operand =>
      cases b with
      | unary => simp [same, equalUpToSpans, same_erased operand]
      | _ => rfl
  | binary s op left right =>
      cases b with
      | binary => simp [same, equalUpToSpans, same_erased left, same_erased right]
      | _ => rfl
  | call s n args =>
      cases b with
      | call => simp [same, equalUpToSpans, sameList_erased args]
      | _ => rfl
  | builtin s f args =>
      cases b with
      | builtin => simp [same, equalUpToSpans, sameList_erased args]
      | _ => rfl
  | cast s t args =>
      cases b with
      | cast => simp [same, equalUpToSpans, sameList_erased args]
      | _ => rfl
  | swizzle s base w =>
      cases b with
      | swizzle => simp [same, equalUpToSpans, same_erased base]
      | _ => rfl
  | ternary s c t f =>
      cases b with
      | ternary => simp [same, equalUpToSpans, same_erased c, same_erased t, same_erased f]
      | _ => rfl

theorem sameList_erased (as bs : List Expr) :
    sameList (as.map erased) (bs.map erased) = equalUpToSpansList Constant.same as bs := by
  cases as with
  | nil => cases bs <;> simp [sameList, equalUpToSpansList]
  | cons a as => cases bs <;> simp [sameList, equalUpToSpansList, same_erased a, sameList_erased as]

end

theorem sameOption_erased (a b : Option Expr) :
    sameOption (a.map erased) (b.map erased) = equalUpToSpansOption Constant.same a b := by
  cases a <;> cases b <;> simp [sameOption, equalUpToSpansOption, same_erased]

end Expr

section Entries

variable (eq : Constant → Constant → Bool)

/-- Equality of inputs or outputs, wherever they stand. -/
def InterfaceVariable.equalUpToSpans (a b : InterfaceVariable) : Bool :=
  a.name == b.name && a.type == b.type && a.slot == b.slot

/-- Equality of external variables, wherever they stand. -/
def ExternalVariable.equalUpToSpans (a b : ExternalVariable) : Bool :=
  a.name == b.name && a.type == b.type && a.set == b.set && a.binding == b.binding &&
    a.storage == b.storage

/-- Equality of variable declarations, wherever their initializers stand. -/
def VariableDeclaration.equalUpToSpans (a b : VariableDeclaration) : Bool :=
  a.name == b.name && a.type == b.type && a.isConst == b.isConst &&
    Expr.equalUpToSpansOption eq a.initializer b.initializer

def OptionDeclaration.equalUpToSpans (a b : OptionDeclaration) : Bool :=
  a.name == b.name && a.type == b.type && Expr.equalUpToSpansOption eq a.default b.default

def ConstDeclaration.equalUpToSpans (a b : ConstDeclaration) : Bool :=
  a.name == b.name && a.type == b.type && a.value.equalUpToSpans eq b.value

def Parameter.equalUpToSpans (a b : Parameter) : Bool := a.name == b.name && a.type == b.type

/-- Equality of signatures, wherever their parameters stand. -/
def Signature.equalUpToSpans (a b : Signature) : Bool :=
  a.name == b.name && sameBy Parameter.equalUpToSpans a.parameters b.parameters &&
    a.returnType == b.returnType && a.entry == b.entry

end Entries

namespace Stmt

variable (eq : Constant → Constant → Bool)

mutual

/-- The statements are equal but for their spans, with literals compared by an equality. -/
def equalUpToSpans : Stmt → Stmt → Bool
  | .branch _ arms e, .branch _ arms' e' =>
    equalUpToSpansArms arms arms' && equalUpToSpansOption e e'
  | .forLoop _ i c t b, .forLoop _ i' c' t' b' =>
    equalUpToSpansOption i i' && Expr.equalUpToSpansOption eq c c' &&
      Expr.equalUpToSpansOption eq t t' && equalUpToSpans b b'
  | .whileLoop _ c b, .whileLoop _ c' b' => c.equalUpToSpans eq c' && equalUpToSpans b b'
  | .doWhile _ b c, .doWhile _ b' c' => equalUpToSpans b b' && c.equalUpToSpans eq c'
  | .var _ d, .var _ d' => d.equalUpToSpans eq d'
  | .struct _ d, .struct _ d' => d == d'
  | .inputs _ vs, .inputs _ vs' => sameBy InterfaceVariable.equalUpToSpans vs vs'
  | .outputs _ vs, .outputs _ vs' => sameBy InterfaceVariable.equalUpToSpans vs vs'
  | .externals _ vs, .externals _ vs' => sameBy ExternalVariable.equalUpToSpans vs vs'
  | .options _ ds, .options _ ds' => sameBy (OptionDeclaration.equalUpToSpans eq) ds ds'
  | .consts _ ds, .consts _ ds' => sameBy (ConstDeclaration.equalUpToSpans eq) ds ds'
  | .function _ f b, .function _ f' b' => f.equalUpToSpans f' && equalUpToSpansList b b'
  | .expr _ e, .expr _ e' => e.equalUpToSpans eq e'
  | .leaveLoop _, .leaveLoop _ => true
  | .nextRound _, .nextRound _ => true
  | .ret _ v, .ret _ v' => Expr.equalUpToSpansOption eq v v'
  | .discard _, .discard _ => true
  | .block _ b, .block _ b' => equalUpToSpansList b b'
  | .optional _ c b e, .optional _ c' b' e' =>
    c.equalUpToSpans eq c' && equalUpToSpans b b' && equalUpToSpansOption e e'
  | .library _ p, .library _ p' => p == p'
  | _, _ => false
termination_by structural s => s

def equalUpToSpansList : List Stmt → List Stmt → Bool
  | [], [] => true
  | a :: as, b :: bs => equalUpToSpans a b && equalUpToSpansList as bs
  | _, _ => false
termination_by structural ss => ss

def equalUpToSpansArms : List (Expr × Stmt) → List (Expr × Stmt) → Bool
  | [], [] => true
  | (c, a) :: as, (c', b) :: bs =>
    c.equalUpToSpans eq c' && equalUpToSpans a b && equalUpToSpansArms as bs
  | _, _ => false
termination_by structural arms => arms

def equalUpToSpansOption : Option Stmt → Option Stmt → Bool
  | none, none => true
  | some a, some b => equalUpToSpans a b
  | _, _ => false
termination_by structural s => s

end

end Stmt

/-- Lists that are compared entry by entry are equal when their entries without spans are. -/
theorem sameBy_iff {α : Type} {eq : α → α → Bool} {erased : α → α}
    (h : ∀ a b, eq a b = true ↔ erased a = erased b) (as bs : List α) :
    sameBy eq as bs = true ↔ as.map erased = bs.map erased := by
  induction as generalizing bs with
  | nil => cases bs <;> simp [sameBy]
  | cons a as ih => cases bs <;> simp [sameBy, h, ih]

/-- A comparison of lists erases as its comparison of elements does. -/
theorem sameBy_erased {α : Type} {eq same : α → α → Bool} {erased : α → α}
    (h : ∀ a b, same (erased a) (erased b) = eq a b) (as bs : List α) :
    sameBy same (as.map erased) (bs.map erased) = sameBy eq as bs := by
  induction as generalizing bs with
  | nil => cases bs <;> simp [sameBy]
  | cons a as ih => cases bs <;> simp [sameBy, h, ih]

/-- A variable of the interface is compared without its span. The other entries are alike. -/
theorem InterfaceVariable.equalUpToSpans_iff (a b : InterfaceVariable) :
    a.equalUpToSpans b = true ↔ a.erased = b.erased := by
  simp [equalUpToSpans, erased, and_assoc]

theorem ExternalVariable.equalUpToSpans_iff (a b : ExternalVariable) :
    a.equalUpToSpans b = true ↔ a.erased = b.erased := by
  simp [equalUpToSpans, erased, and_assoc]

theorem VariableDeclaration.equalUpToSpans_iff (a b : VariableDeclaration) :
    a.equalUpToSpans (· == ·) b = true ↔ a.erased = b.erased := by
  simp [equalUpToSpans, erased, and_assoc, Expr.equalUpToSpansOption_iff]

theorem OptionDeclaration.equalUpToSpans_iff (a b : OptionDeclaration) :
    a.equalUpToSpans (· == ·) b = true ↔ a.erased = b.erased := by
  simp [equalUpToSpans, erased, and_assoc, Expr.equalUpToSpansOption_iff]

theorem ConstDeclaration.equalUpToSpans_iff (a b : ConstDeclaration) :
    a.equalUpToSpans (· == ·) b = true ↔ a.erased = b.erased := by
  simp [equalUpToSpans, erased, and_assoc, Expr.equalUpToSpans_iff]

theorem Parameter.equalUpToSpans_iff (a b : Parameter) :
    a.equalUpToSpans b = true ↔ a.erased = b.erased := by
  simp [equalUpToSpans, erased]

theorem Signature.equalUpToSpans_iff (a b : Signature) :
    a.equalUpToSpans b = true ↔ a.erased = b.erased := by
  simp [equalUpToSpans, erased, and_assoc, sameBy_iff Parameter.equalUpToSpans_iff]

/-- The initializer is compared by the equality of constants, which a value that is no number
fails. -/
theorem VariableDeclaration.same_erased (a b : VariableDeclaration) :
    a.erased.same b.erased = a.equalUpToSpans Constant.same b := by
  simp [equalUpToSpans, same, erased, Expr.sameOption_erased]

theorem OptionDeclaration.same_erased (a b : OptionDeclaration) :
    a.erased.same b.erased = a.equalUpToSpans Constant.same b := by
  simp [equalUpToSpans, same, erased, Expr.sameOption_erased]

theorem ConstDeclaration.same_erased (a b : ConstDeclaration) :
    a.erased.same b.erased = a.equalUpToSpans Constant.same b := by
  simp [equalUpToSpans, same, erased, Expr.same_erased]

theorem Signature.beq_erased (a b : Signature) : (a.erased == b.erased) = a.equalUpToSpans b := by
  rw [Bool.eq_iff_iff, beq_iff_eq, equalUpToSpans_iff]

/-- Erased lists are equal where their elements are pairwise equal up to spans. -/
theorem map_erased_beq {α : Type} [DecidableEq α] {eq : α → α → Bool} {erased : α → α}
    (h : ∀ a b, eq a b = true ↔ erased a = erased b) (as bs : List α) :
    (as.map erased == bs.map erased) = sameBy eq as bs := by
  rw [Bool.eq_iff_iff, beq_iff_eq, sameBy_iff h]

namespace Stmt

mutual

/-- Two statements are equal up to spans exactly where they are equal once their spans are erased.
-/
theorem equalUpToSpans_iff (a b : Stmt) :
    equalUpToSpans (· == ·) a b = true ↔ a.eraseSpans = b.eraseSpans := by
  cases a with
  | branch p arms otherwise =>
      cases b <;>
        simp [equalUpToSpans, equalUpToSpansArms_iff arms, equalUpToSpansOption_iff otherwise]
  | forLoop p init condition step body =>
      cases b <;> simp [equalUpToSpans, equalUpToSpansOption_iff init,
        Expr.equalUpToSpansOption_iff, equalUpToSpans_iff body, and_assoc]
  | whileLoop p condition body =>
      cases b <;> simp [equalUpToSpans, Expr.equalUpToSpans_iff, equalUpToSpans_iff body]
  | doWhile p body condition =>
      cases b <;> simp [equalUpToSpans, Expr.equalUpToSpans_iff, equalUpToSpans_iff body]
  | var p d => cases b <;> simp [equalUpToSpans, VariableDeclaration.equalUpToSpans_iff]
  | struct p d => cases b <;> simp [equalUpToSpans]
  | inputs p vs =>
      cases b <;> simp [equalUpToSpans, sameBy_iff InterfaceVariable.equalUpToSpans_iff]
  | outputs p vs =>
      cases b <;> simp [equalUpToSpans, sameBy_iff InterfaceVariable.equalUpToSpans_iff]
  | externals p vs =>
      cases b <;> simp [equalUpToSpans, sameBy_iff ExternalVariable.equalUpToSpans_iff]
  | options p ds =>
      cases b <;> simp [equalUpToSpans, sameBy_iff OptionDeclaration.equalUpToSpans_iff]
  | consts p ds =>
      cases b <;> simp [equalUpToSpans, sameBy_iff ConstDeclaration.equalUpToSpans_iff]
  | function p f body =>
      cases b <;>
        simp [equalUpToSpans, Signature.equalUpToSpans_iff, equalUpToSpansList_iff body]
  | expr p e => cases b <;> simp [equalUpToSpans, Expr.equalUpToSpans_iff]
  | leaveLoop p => cases b <;> simp [equalUpToSpans]
  | nextRound p => cases b <;> simp [equalUpToSpans]
  | ret p value => cases b <;> simp [equalUpToSpans, Expr.equalUpToSpansOption_iff]
  | discard p => cases b <;> simp [equalUpToSpans]
  | block p items => cases b <;> simp [equalUpToSpans, equalUpToSpansList_iff items]
  | optional p condition body otherwise =>
      cases b <;> simp [equalUpToSpans, Expr.equalUpToSpans_iff, equalUpToSpans_iff body,
        equalUpToSpansOption_iff otherwise, and_assoc]
  | library p path => cases b <;> simp [equalUpToSpans]

theorem equalUpToSpansList_iff (as bs : List Stmt) :
    equalUpToSpansList (· == ·) as bs = true ↔ as.map eraseSpans = bs.map eraseSpans := by
  cases as with
  | nil => cases bs <;> simp [equalUpToSpansList]
  | cons a as =>
      cases bs <;> simp [equalUpToSpansList, equalUpToSpans_iff a, equalUpToSpansList_iff as]

theorem equalUpToSpansArms_iff (as bs : List (Expr × Stmt)) :
    equalUpToSpansArms (· == ·) as bs = true ↔ as.map erasedArm = bs.map erasedArm := by
  match as, bs with
  | [], [] | [], _ :: _ | _ :: _, [] => simp [equalUpToSpansArms]
  | (c, a) :: as, (c', b) :: bs =>
      simp [equalUpToSpansArms, erasedArm, Expr.equalUpToSpans_iff, equalUpToSpans_iff a,
        equalUpToSpansArms_iff as]

theorem equalUpToSpansOption_iff (a b : Option Stmt) :
    equalUpToSpansOption (· == ·) a b = true ↔ a.map eraseSpans = b.map eraseSpans := by
  cases a with
  | none => cases b <;> simp [equalUpToSpansOption]
  | some a => cases b <;> simp [equalUpToSpansOption, equalUpToSpans_iff a]

end

mutual

/-- The equality that compares spans finds erased statements alike exactly where they are equal up
to spans. -/
theorem same_eraseSpans (a b : Stmt) :
    a.eraseSpans.same b.eraseSpans = equalUpToSpans Constant.same a b := by
  cases a with
  | branch p arms otherwise =>
      cases b with
      | branch => simp [same, equalUpToSpans, sameArms_erased arms, sameOption_erased otherwise]
      | _ => rfl
  | forLoop p init condition step body =>
      cases b with
      | forLoop =>
          simp [same, equalUpToSpans, sameOption_erased init, Expr.sameOption_erased,
            same_eraseSpans body]
      | _ => rfl
  | whileLoop p condition body =>
      cases b with
      | whileLoop => simp [same, equalUpToSpans, Expr.same_erased, same_eraseSpans body]
      | _ => rfl
  | doWhile p body condition =>
      cases b with
      | doWhile => simp [same, equalUpToSpans, Expr.same_erased, same_eraseSpans body]
      | _ => rfl
  | var p d =>
      cases b with
      | var => simp [same, equalUpToSpans, VariableDeclaration.same_erased]
      | _ => rfl
  | struct p d =>
      cases b with
      | struct => simp [same, equalUpToSpans]
      | _ => rfl
  | inputs p vs =>
      cases b with
      | inputs => simp [same, equalUpToSpans, map_erased_beq InterfaceVariable.equalUpToSpans_iff]
      | _ => rfl
  | outputs p vs =>
      cases b with
      | outputs => simp [same, equalUpToSpans, map_erased_beq InterfaceVariable.equalUpToSpans_iff]
      | _ => rfl
  | externals p vs =>
      cases b with
      | externals => simp [same, equalUpToSpans, map_erased_beq ExternalVariable.equalUpToSpans_iff]
      | _ => rfl
  | options p ds =>
      cases b with
      | options => simp [same, equalUpToSpans, sameBy_erased OptionDeclaration.same_erased]
      | _ => rfl
  | consts p ds =>
      cases b with
      | consts => simp [same, equalUpToSpans, sameBy_erased ConstDeclaration.same_erased]
      | _ => rfl
  | function p f body =>
      cases b with
      | function => simp [same, equalUpToSpans, Signature.beq_erased, sameList_erased body]
      | _ => rfl
  | expr p e =>
      cases b with
      | expr => simp [same, equalUpToSpans, Expr.same_erased]
      | _ => rfl
  | leaveLoop p =>
      cases b with
      | leaveLoop => simp [same, equalUpToSpans]
      | _ => rfl
  | nextRound p =>
      cases b with
      | nextRound => simp [same, equalUpToSpans]
      | _ => rfl
  | ret p value =>
      cases b with
      | ret => simp [same, equalUpToSpans, Expr.sameOption_erased]
      | _ => rfl
  | discard p =>
      cases b with
      | discard => simp [same, equalUpToSpans]
      | _ => rfl
  | block p items =>
      cases b with
      | block => simp [same, equalUpToSpans, sameList_erased items]
      | _ => rfl
  | optional p condition body otherwise =>
      cases b with
      | optional =>
          simp [same, equalUpToSpans, Expr.same_erased, same_eraseSpans body,
            sameOption_erased otherwise]
      | _ => rfl
  | library p path =>
      cases b with
      | library => simp [same, equalUpToSpans]
      | _ => rfl

theorem sameList_erased (as bs : List Stmt) :
    sameList (as.map eraseSpans) (bs.map eraseSpans) = equalUpToSpansList Constant.same as bs := by
  cases as with
  | nil => cases bs <;> simp [sameList, equalUpToSpansList]
  | cons a as =>
      cases bs <;> simp [sameList, equalUpToSpansList, same_eraseSpans a, sameList_erased as]

theorem sameArms_erased (as bs : List (Expr × Stmt)) :
    sameArms (as.map erasedArm) (bs.map erasedArm) = equalUpToSpansArms Constant.same as bs := by
  match as, bs with
  | [], [] | [], _ :: _ | _ :: _, [] => simp [sameArms, equalUpToSpansArms]
  | (c, a) :: as, (c', b) :: bs =>
      simp [sameArms, equalUpToSpansArms, erasedArm, Expr.same_erased, same_eraseSpans a,
        sameArms_erased as]

theorem sameOption_erased (a b : Option Stmt) :
    sameOption (a.map eraseSpans) (b.map eraseSpans) = equalUpToSpansOption Constant.same a b := by
  cases a with
  | none => cases b <;> simp [sameOption, equalUpToSpansOption]
  | some a => cases b <;> simp [sameOption, equalUpToSpansOption, same_eraseSpans a]

end

end Stmt

namespace Expr

mutual

/-- Erasing twice erases nothing more. -/
@[simp] theorem erased_erased (e : Expr) : e.erased.erased = e.erased := by
  cases e with
  | constant s v | ref s n => rfl
  | index s base place => simp [erased_erased base, erased_erased place]
  | field s base n => simp [erased_erased base]
  | assign s op target value => simp [erased_erased target, erased_erased value]
  | unary s op operand => simp [erased_erased operand]
  | binary s op left right => simp [erased_erased left, erased_erased right]
  | call s n args => simp [map_erased_erased args]
  | builtin s f args => simp [map_erased_erased args]
  | cast s t args => simp [map_erased_erased args]
  | swizzle s base w => simp [erased_erased base]
  | ternary s c t f => simp [erased_erased c, erased_erased t, erased_erased f]

theorem map_erased_erased (es : List Expr) : es.map (erased ∘ erased) = es.map erased := by
  cases es with
  | nil => rfl
  | cons e es => simp [erased_erased e, map_erased_erased es]

end

@[simp] theorem erased_comp_erased : erased ∘ erased = erased := funext erased_erased

end Expr

namespace Stmt

mutual

/-- Erasing the spans of a statement twice erases nothing more. -/
@[simp] theorem eraseSpans_eraseSpans (s : Stmt) : s.eraseSpans.eraseSpans = s.eraseSpans := by
  cases s with
  | branch p arms otherwise =>
      simp [map_erasedArm_erasedArm arms, map_eraseSpans_eraseSpans_option otherwise]
  | forLoop p init condition step body =>
      simp [map_eraseSpans_eraseSpans_option init, eraseSpans_eraseSpans body]
  | whileLoop p condition body | doWhile p body condition => simp [eraseSpans_eraseSpans body]
  | function p f body =>
      simp [Signature.erased, Parameter.erased, map_eraseSpans_eraseSpans body]
  | block p items => simp [map_eraseSpans_eraseSpans items]
  | optional p condition body otherwise =>
      simp [eraseSpans_eraseSpans body, map_eraseSpans_eraseSpans_option otherwise]
  | var p d => simp [VariableDeclaration.erased]
  | inputs p vs | outputs p vs => simp [InterfaceVariable.erased]
  | externals p vs => simp [ExternalVariable.erased]
  | options p ds => simp [OptionDeclaration.erased]
  | consts p ds => simp [ConstDeclaration.erased]
  | _ => simp

theorem map_eraseSpans_eraseSpans (ss : List Stmt) :
    ss.map (eraseSpans ∘ eraseSpans) = ss.map eraseSpans := by
  cases ss with
  | nil => rfl
  | cons s ss => simp [eraseSpans_eraseSpans s, map_eraseSpans_eraseSpans ss]

theorem map_erasedArm_erasedArm (arms : List (Expr × Stmt)) :
    arms.map (erasedArm ∘ erasedArm) = arms.map erasedArm := by
  match arms with
  | [] => rfl
  | (c, s) :: rest => simp [erasedArm, eraseSpans_eraseSpans s, map_erasedArm_erasedArm rest]

theorem map_eraseSpans_eraseSpans_option (s : Option Stmt) :
    s.map (eraseSpans ∘ eraseSpans) = s.map eraseSpans := by
  cases s with
  | none => rfl
  | some s => simp [eraseSpans_eraseSpans s]

end

/-- Erasing the spans of a tree changes nothing else. -/
theorem equalUpToSpans_eraseSpans (s : Stmt) :
    equalUpToSpans (· == ·) s s.eraseSpans = true := by
  rw [equalUpToSpans_iff, eraseSpans_eraseSpans]

end Stmt

end Shading
