import Shading.Syntax.Relabel

/-!
# Trees without their places

How erasing the spans of a tree goes through its forms.
-/

namespace Shading

open Relabeler (eraseSpans)

namespace Expr

/-- The expression without its places. -/
def erased (e : Expr) : Expr := (e.relabel eraseSpans).run

/-- Relabelling runs through a list one expression at a time; erased, it is `List.map`. -/
theorem relabelList_eraseSpans (es : List Expr) :
    (relabelList eraseSpans es).run = es.map erased := by
  induction es with
  | nil => rfl
  | cons e es ih =>
      change (erased e :: (relabelList eraseSpans es).run) = _
      rw [ih, List.map_cons]

/-- An absent expression stays absent. -/
theorem relabelOption_eraseSpans (e : Option Expr) :
    (relabelOption eraseSpans e).run = e.map erased := by
  cases e <;> rfl

section Forms

variable (s : Span) (a b c : Expr)

/-- A constant keeps its value and loses its span. The other forms of expression are alike. -/
@[simp] theorem erased_constant (v : Constant) : (constant s v).erased = .constant .dummy v := rfl

/-- A name keeps its spelling. -/
@[simp] theorem erased_ref (n : String) : (ref s n).erased = .ref .dummy n := rfl

@[simp] theorem erased_index : (index s a b).erased = .index .dummy a.erased b.erased := rfl

/-- The name of a field is kept. -/
@[simp] theorem erased_field (n : String) : (field s a n).erased = .field .dummy a.erased n := rfl

@[simp] theorem erased_swizzle (w : Swizzle) :
    (swizzle s a w).erased = .swizzle .dummy a.erased w := rfl

@[simp] theorem erased_assign (op : AssignOp) :
    (assign s op a b).erased = .assign .dummy op a.erased b.erased := rfl

@[simp] theorem erased_unary (op : UnaryOp) :
    (unary s op a).erased = .unary .dummy op a.erased := rfl

@[simp] theorem erased_binary (op : BinaryOp) :
    (binary s op a b).erased = .binary .dummy op a.erased b.erased := rfl

@[simp] theorem erased_ternary :
    (ternary s a b c).erased = .ternary .dummy a.erased b.erased c.erased := rfl

/-- A call keeps the name of its function, and its arguments are erased one by one. -/
@[simp] theorem erased_call (n : String) (es : List Expr) :
    (call s n es).erased = .call .dummy n (es.map erased) := by
  rw [← relabelList_eraseSpans]
  rfl

@[simp] theorem erased_builtin (f : BuiltinFunction) (es : List Expr) :
    (builtin s f es).erased = .builtin .dummy f (es.map erased) := by
  rw [← relabelList_eraseSpans]
  rfl

/-- The type of a cast is kept. -/
@[simp] theorem erased_cast (t : Ty) (es : List Expr) :
    (cast s t es).erased = .cast .dummy t (es.map erased) := by
  rw [← relabelList_eraseSpans]
  rfl

end Forms

end Expr

/-- The entry of a block without its place. -/
def InterfaceVariable.erased (v : InterfaceVariable) : InterfaceVariable :=
  { v with span := .dummy }

/-- An external variable without its place. -/
def ExternalVariable.erased (v : ExternalVariable) : ExternalVariable :=
  { v with span := .dummy }

/-- An option without its place, and its default without its places. -/
def OptionDeclaration.erased (d : OptionDeclaration) : OptionDeclaration :=
  { d with span := .dummy, default := d.default.map Expr.erased }

/-- A constant without its place, and its value without its places. -/
def ConstDeclaration.erased (d : ConstDeclaration) : ConstDeclaration :=
  { d with span := .dummy, value := d.value.erased }

/-- A variable declaration without the places in its initializer. -/
def VariableDeclaration.erased (d : VariableDeclaration) : VariableDeclaration :=
  { d with initializer := d.initializer.map Expr.erased }

/-- A parameter without its place. -/
def Parameter.erased (p : Parameter) : Parameter := { p with span := .dummy }

/-- A signature without the places of its parameters. -/
def Signature.erased (f : Signature) : Signature :=
  { f with parameters := f.parameters.map Parameter.erased }

namespace Stmt

/-- The arm of a branch without its places. -/
def erasedArm (a : Expr × Stmt) : Expr × Stmt := (a.1.erased, a.2.eraseSpans)

/-- Statements of a list are erased one by one. -/
theorem relabelList_eraseSpans (ss : List Stmt) :
    (relabelList Relabeler.eraseSpans ss).run = ss.map Stmt.eraseSpans := by
  induction ss with
  | nil => rfl
  | cons s ss ih =>
      change (s.eraseSpans :: (relabelList Relabeler.eraseSpans ss).run) = _
      rw [ih, List.map_cons]

/-- The conditions and the bodies of a branch are erased. -/
theorem relabelArms_eraseSpans (arms : List (Expr × Stmt)) :
    (relabelArms Relabeler.eraseSpans arms).run = arms.map erasedArm := by
  induction arms with
  | nil => rfl
  | cons a arms ih =>
      change (erasedArm a :: (relabelArms Relabeler.eraseSpans arms).run) = _
      rw [ih, List.map_cons]

theorem relabelOption_eraseSpans (s : Option Stmt) :
    (relabelOption Relabeler.eraseSpans s).run = s.map Stmt.eraseSpans := by
  cases s <;> rfl

section Forms

variable (p : Span) (e : Expr) (s : Stmt) (o : Option Stmt)

/-- A branch is erased arm by arm. The other forms of statement are alike. -/
@[simp] theorem erased_branch (arms : List (Expr × Stmt)) :
    (branch p arms o).eraseSpans = .branch .dummy (arms.map erasedArm) (o.map eraseSpans) := by
  rw [← relabelArms_eraseSpans, ← relabelOption_eraseSpans]
  rfl

@[simp] theorem erased_forLoop (condition step : Option Expr) :
    (forLoop p o condition step s).eraseSpans = .forLoop .dummy (o.map eraseSpans)
      (condition.map Expr.erased) (step.map Expr.erased) s.eraseSpans := by
  rw [← relabelOption_eraseSpans, ← Expr.relabelOption_eraseSpans, ← Expr.relabelOption_eraseSpans]
  rfl

@[simp] theorem erased_whileLoop :
    (whileLoop p e s).eraseSpans = .whileLoop .dummy e.erased s.eraseSpans := rfl

@[simp] theorem erased_doWhile :
    (doWhile p s e).eraseSpans = .doWhile .dummy s.eraseSpans e.erased := rfl

/-- A variable loses the span of its type and those of its initializer. -/
@[simp] theorem erased_var (d : VariableDeclaration) :
    (var p d).eraseSpans = .var .dummy d.erased := by
  rw [VariableDeclaration.erased, ← Expr.relabelOption_eraseSpans]
  rfl

/-- A structure has no span beside that of the statement. -/
@[simp] theorem erased_struct (d : StructDeclaration) :
    (struct p d).eraseSpans = .struct .dummy d := by
  change struct .dummy { d with fields := (d.fields.mapM Relabeler.eraseSpans.structField).run } = _
  rw [List.idRun_mapM]
  exact congrArg (fun fields => struct .dummy { d with fields }) (List.map_id d.fields)

@[simp] theorem erased_inputs (entries : List InterfaceVariable) :
    (inputs p entries).eraseSpans = .inputs .dummy (entries.map InterfaceVariable.erased) := by
  change inputs .dummy (entries.mapM Relabeler.eraseSpans.interfaceVariable).run = _
  rw [List.idRun_mapM]
  rfl

@[simp] theorem erased_outputs (entries : List InterfaceVariable) :
    (outputs p entries).eraseSpans = .outputs .dummy (entries.map InterfaceVariable.erased) := by
  change outputs .dummy (entries.mapM Relabeler.eraseSpans.interfaceVariable).run = _
  rw [List.idRun_mapM]
  rfl

@[simp] theorem erased_externals (entries : List ExternalVariable) :
    (externals p entries).eraseSpans = .externals .dummy (entries.map ExternalVariable.erased) := by
  change externals .dummy (entries.mapM Relabeler.eraseSpans.externalVariable).run = _
  rw [List.idRun_mapM]
  rfl

@[simp] theorem erased_options (entries : List OptionDeclaration) :
    (options p entries).eraseSpans = .options .dummy (entries.map OptionDeclaration.erased) := by
  change options .dummy (entries.mapM Relabeler.eraseSpans.optionDeclaration).run = _
  rw [List.idRun_mapM]
  refine congrArg _ (List.map_congr_left fun d _ => ?_)
  rw [OptionDeclaration.erased, ← Expr.relabelOption_eraseSpans]
  rfl

@[simp] theorem erased_consts (entries : List ConstDeclaration) :
    (consts p entries).eraseSpans = .consts .dummy (entries.map ConstDeclaration.erased) := by
  change consts .dummy (entries.mapM Relabeler.eraseSpans.constDeclaration).run = _
  rw [List.idRun_mapM]
  rfl

/-- The signature and the body of a function are erased. -/
@[simp] theorem erased_function (f : Signature) (body : List Stmt) :
    (function p f body).eraseSpans = .function .dummy f.erased (body.map eraseSpans) := by
  change function .dummy { f with parameters :=
    (f.parameters.mapM Relabeler.eraseSpans.parameter).run }
    (relabelList Relabeler.eraseSpans body).run = _
  rw [List.idRun_mapM, relabelList_eraseSpans]
  rfl

@[simp] theorem erased_expr : (expr p e).eraseSpans = .expr .dummy e.erased := rfl

/-- A statement without parts loses its own span only. -/
@[simp] theorem erased_leaveLoop : (leaveLoop p).eraseSpans = .leaveLoop .dummy := rfl

@[simp] theorem erased_nextRound : (nextRound p).eraseSpans = .nextRound .dummy := rfl

@[simp] theorem erased_discard : (discard p).eraseSpans = .discard .dummy := rfl

@[simp] theorem erased_ret (value : Option Expr) :
    (ret p value).eraseSpans = .ret .dummy (value.map Expr.erased) := by
  rw [← Expr.relabelOption_eraseSpans]
  rfl

@[simp] theorem erased_block (items : List Stmt) :
    (block p items).eraseSpans = .block .dummy (items.map eraseSpans) := by
  rw [← relabelList_eraseSpans]
  rfl

/-- An optional is erased with both of its sides. -/
@[simp] theorem erased_optional :
    (optional p e s o).eraseSpans =
      .optional .dummy e.erased s.eraseSpans (o.map eraseSpans) := by
  rw [← relabelOption_eraseSpans]
  rfl

@[simp] theorem erased_library (path : List String) :
    (library p path).eraseSpans = .library .dummy path := rfl

end Forms

/-- The items of a tree are erased one by one. -/
theorem items_eraseSpans (s : Stmt) : s.eraseSpans.items = s.items.map eraseSpans := by
  cases s <;> simp [items]

end Stmt

/-- The same expression but for its places. -/
abbrev Expr.Alike (e e' : Expr) : Prop := e.erased = e'.erased

/-- The same statement but for its places. -/
abbrev Stmt.Alike (s s' : Stmt) : Prop := s.eraseSpans = s'.eraseSpans

end Shading
