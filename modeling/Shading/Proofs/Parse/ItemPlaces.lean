import Shading.Proofs.Parse.Places

/-!
# Reading declarations wherever they stand

Attributes are checked by their names and arguments, so that declarations and statements
are read alike from tokens of the same kinds.
-/

namespace Shading

namespace Attribute

/-- The attribute without its place. -/
def erased (a : Attribute) : Attribute := { a with span := .dummy, position := .nowhere }

variable (a : Attribute)

theorem parallel_noArguments : Except.Parallel Eq a.noArguments a.erased.noArguments :=
  .ite (fun _ => .ok rfl) fun _ => .error

theorem parallel_singleInt : Except.Parallel Eq a.singleInt a.erased.singleInt := by
  obtain ⟨name, arguments, span, position⟩ := a
  unfold singleInt erased
  dsimp only
  split
  · exact .ok rfl
  · exact .error

theorem parallel_singleName : Except.Parallel Eq a.singleName a.erased.singleName := by
  obtain ⟨name, arguments, span, position⟩ := a
  unfold singleName erased
  dsimp only
  split
  · exact .ok rfl
  · exact .error

/-- The sizes of a workgroup are told by the arguments alone. -/
theorem parallel_workgroup : Except.Parallel Eq a.workgroup a.erased.workgroup := by
  refine .ite (fun _ => .error) fun _ => ?_
  refine (Except.Parallel.mapM a.arguments fun argument => ?_).bindEq fun _ => .ok rfl
  split
  · exact .error
  · exact .ok rfl
  · exact .error

end Attribute

namespace Attributes

/-- The attributes without their places. -/
def erased (as : Attributes) : Attributes := ⟨as.list.map Attribute.erased, Token.eof⟩

variable (as : Attributes)

theorem find?_erased (name : String) :
    as.erased.find? name = (as.find? name).map Attribute.erased := List.find?_map

/-- What is refused is told by the names alone; the places only locate the error. -/
theorem parallel_checkFrom (allowed : List String) (target : AttributeTarget)
    (before : List String) (l : List Attribute) :
    Except.Parallel Eq (checkFrom allowed target before l)
      (checkFrom allowed target before (l.map Attribute.erased)) := by
  induction l generalizing before with
  | nil => exact .ok rfl
  | cons a rest ih =>
      exact .ite (fun _ => .error) fun _ => .ite (fun _ => .error) fun _ =>
        .ite (fun _ => .error) fun _ => ih _

theorem parallel_check (allowed : List String) (target : AttributeTarget) :
    Except.Parallel Eq (as.check allowed target) (as.erased.check allowed target) :=
  parallel_checkFrom allowed target [] as.list

theorem parallel_none (target : AttributeTarget) :
    Except.Parallel Eq (as.none target) (as.erased.none target) :=
  as.parallel_check [] target

/-- A slot is told by the attributes without their places. -/
theorem parallel_slot : Except.Parallel Eq as.slot as.erased.slot := by
  refine (as.parallel_check _ _).bindEq fun _ => ?_
  rw [find?_erased, find?_erased]
  cases as.find? "location" with
  | none =>
      cases as.find? "builtin" with
      | none => exact .error
      | some builtin =>
          refine builtin.parallel_singleName.bindEq fun name => ?_
          split
          · exact .ok rfl
          · exact .error
  | some location =>
      cases as.find? "builtin" with
      | none => exact location.parallel_singleInt.bindEq fun _ => .ok rfl
      | some builtin => exact .error

/-- The set, the binding and the storage are told by the attributes without their places. -/
theorem parallel_binding : Except.Parallel Eq as.binding as.erased.binding := by
  refine (as.parallel_check _ _).bindEq fun _ => ?_
  rw [find?_erased _ "set", find?_erased _ "binding", find?_erased _ "storage"]
  cases as.find? "binding" with
  | none =>
      cases as.find? "set" with
      | none => exact .error
      | some set => exact set.parallel_singleInt.bindEq fun _ => .error
  | some binding =>
      cases as.find? "storage" with
      | none =>
          have hbinding := binding.parallel_singleInt
          cases as.find? "set" with
          | none => exact hbinding.bindEq fun _ => .ok rfl
          | some set =>
              exact set.parallel_singleInt.bindEq fun _ => hbinding.bindEq fun _ => .ok rfl
      | some a =>
          have hflag {x : Nat × Nat × Bool} :
              Except.Parallel Eq (a.noArguments >>= fun _ => .ok x)
                (a.erased.noArguments >>= fun _ => .ok x) :=
            a.parallel_noArguments.bindEq fun _ => .ok rfl
          have hbinding := binding.parallel_singleInt
          cases as.find? "set" with
          | none => exact hbinding.bindEq fun _ => hflag
          | some set => exact set.parallel_singleInt.bindEq fun _ => hbinding.bindEq fun _ => hflag

theorem parallel_entryWorkgroup (stage : Stage) :
    Except.Parallel Eq (as.entryWorkgroup stage) (as.erased.entryWorkgroup stage) := by
  unfold entryWorkgroup
  rw [find?_erased]
  cases as.find? "workgroup" with
  | none => exact .ok rfl
  | some a => exact .ite (fun _ => a.parallel_workgroup.bindEq fun _ => .ok rfl) fun _ => .error

theorem parallel_entryOf (marker : Attribute) :
    Except.Parallel Eq (as.entryOf marker) (as.erased.entryOf marker.erased) := by
  refine marker.parallel_singleName.bindEq fun name => ?_
  split
  · exact .error
  · exact (as.parallel_entryWorkgroup _).bindEq fun _ => .ok rfl

/-- The entry point is told by the attributes without their places. -/
theorem parallel_entry : Except.Parallel Eq as.entry as.erased.entry := by
  refine (as.parallel_check _ _).bindEq fun _ => ?_
  rw [find?_erased, find?_erased, find?_erased]
  cases as.find? "entry" with
  | none =>
      cases as.find? "stage" with
      | none => cases as.find? "workgroup" with
        | none => exact .ok rfl
        | some a => exact .error
      | some marker => exact (as.parallel_entryOf marker).bindEq fun _ => .ok rfl
  | some marker =>
      cases as.find? "stage" with
      | none => exact (as.parallel_entryOf marker).bindEq fun _ => .ok rfl
      | some second => exact .error

end Attributes

namespace Parse

variable {names : Names}

section Attributes

theorem parallel_checked {α : Type} {result result' : Checked α}
    (h : Except.Parallel Eq result result') : Parallel Eq (checked result) (checked result') :=
  fun _ _ hc => h.bindEq fun _ => .ok ⟨rfl, hc⟩

theorem parallel_attributeArgument : Parallel Eq attributeArgument attributeArgument := by
  refine parallel_kind.bindEq fun k => ?_
  split
  · exact parallel_take.bindEq fun _ => .pure rfl
  · exact parallel_unexpected _

/-- An attribute is the same but for its places. -/
theorem parallel_oneAttribute (fuel : Nat) :
    Parallel (fun a a' => a.erased = a'.erased) (oneAttribute fuel) (oneAttribute fuel) := by
  refine parallel_look.bind fun t t' ht => parallel_identifier.bind fun p p' hp => ?_
  refine (parallel_eat _).bindEq fun _ => .ite (fun _ => ?_) fun _ => ?_
  · refine (parallel_separated (f := id) parallel_attributeArgument _).bind fun l l' hl => ?_
    refine (parallel_expect _).bindEq fun _ => (parallel_spanFrom _ _).bind fun _ _ _ => .pure ?_
    rw [List.map_id, List.map_id] at hl
    rw [Attribute.erased, Attribute.erased, hp, hl]
  · refine (parallel_spanFrom _ _).bind fun _ _ _ => .pure ?_
    rw [Attribute.erased, Attribute.erased, hp]

theorem parallel_attributeGroups (fuel : Nat) :
    Parallel (fun l l' => l.map Attribute.erased = l'.map Attribute.erased)
      (attributeGroups fuel) (attributeGroups fuel) := by
  induction fuel with
  | zero => exact parallel_spent
  | succ fuel ih =>
      refine (parallel_eat _).bindEq fun _ => .ite (fun _ => ?_) fun _ => .pure rfl
      refine (parallel_separated (parallel_oneAttribute fuel) _).bind fun group group' hg => ?_
      exact (parallel_expect _).bindEq fun _ => ih.bind fun l l' hl =>
        .pure (by rw [List.map_append, List.map_append, hg, hl])

/-- The attributes are the same but for their places. -/
theorem parallel_attributes (fuel : Nat) :
    Parallel (fun as as' => as.erased = as'.erased) (attributes fuel) (attributes fuel) :=
  parallel_look.bind fun _ _ _ => (parallel_attributeGroups _).bind fun _ _ h =>
    .pure (congrArg (Attributes.mk · _) h)

end Attributes

section Statements

variable {inner : Parse Stmt}

theorem parallel_condition (fuel : Nat) :
    Parallel Expr.Alike (condition names fuel) (condition names fuel) :=
  (parallel_expect _).bindEq fun _ => (parallel_expression fuel).bind fun _ _ he =>
    (parallel_expect _).bindEq fun _ => .pure he

/-- A statement that is read from its start to the last token taken. -/
theorem parallel_finish {start start' : Span} {make make' : Span → Stmt}
    (h : ∀ s s', (make s).Alike (make' s')) :
    Parallel Stmt.Alike (do return make (← spanFrom start))
      (do return make' (← spanFrom start')) :=
  (parallel_spanFrom _ _).bind fun s s' _ => .pure (h s s')

/-- A variable is the same but for its places. -/
theorem parallel_finishVariable (fuel : Nat) (start start' : Span) (isConst : Bool) (t : Ty)
    (name : String) :
    Parallel Stmt.Alike (finishVariable names fuel start isConst t name)
      (finishVariable names fuel start' isConst t name) := by
  unfold finishVariable
  dsimp only
  have hrest {value value' : Option Expr} (h : value.map Expr.erased = value'.map Expr.erased) :
      Parallel Stmt.Alike
        (do
          expect .semicolon
          return .var (← spanFrom start) ⟨name, t, isConst, value⟩)
        (do
          expect .semicolon
          return .var (← spanFrom start') ⟨name, t, isConst, value'⟩) :=
    (parallel_expect _).bindEq fun _ => parallel_finish fun _ _ => by
      rw [Stmt.Alike, Stmt.erased_var, Stmt.erased_var, VariableDeclaration.erased,
        VariableDeclaration.erased, h]
  refine (parallel_eat _).bindEq fun _ => .ite (fun _ => ?_) fun _ => hrest rfl
  refine (parallel_expression fuel).bind fun e e' he => ?_
  have hsome : (some e).map Expr.erased = (some e').map Expr.erased := congrArg some he
  exact hrest hsome

theorem parallel_variableDeclaration (fuel : Nat) :
    Parallel Stmt.Alike (variableDeclaration names fuel) (variableDeclaration names fuel) := by
  refine parallel_look.bind fun t t' _ => (parallel_eatKeyword _).bindEq fun _ =>
    parallel_type.bindEq fun _ => parallel_identifier.bind fun p p' hp => ?_
  dsimp only
  rw [hp]
  exact parallel_finishVariable _ _ _ _ _ _

theorem parallel_expressionUnless (fuel : Nat) (close : Symbol) :
    Parallel (fun e e' => e.map Expr.erased = e'.map Expr.erased)
      (expressionUnless names fuel close) (expressionUnless names fuel close) :=
  parallel_kind.bindEq fun _ => .ite (fun _ => .pure rfl) fun _ =>
    (parallel_expression fuel).bind fun _ _ he => .pure (congrArg some he)

theorem parallel_braced (hinner : Parallel Stmt.Alike inner inner) (fuel : Nat) :
    Parallel (fun ss ss' => ss.map Stmt.eraseSpans = ss'.map Stmt.eraseSpans)
      (braced inner fuel) (braced inner fuel) :=
  (parallel_expect _).bindEq fun _ => (parallel_upTo _ hinner _).bind fun _ _ h =>
    (parallel_expect _).bindEq fun _ => .pure h

theorem parallel_arm (hinner : Parallel Stmt.Alike inner inner) (fuel : Nat) :
    Parallel (fun a a' => Stmt.erasedArm a = Stmt.erasedArm a')
      (arm names inner fuel) (arm names inner fuel) :=
  (parallel_condition fuel).bind fun _ _ hc => hinner.bind fun _ _ hs =>
    .pure (congrArg₂ Prod.mk hc hs)

theorem parallel_moreArms (hinner : Parallel Stmt.Alike inner inner) (fuel n : Nat) :
    Parallel (fun r r' => r.1.map Stmt.erasedArm = r'.1.map Stmt.erasedArm ∧
        r.2.map Stmt.eraseSpans = r'.2.map Stmt.eraseSpans)
      (moreArms names inner fuel n) (moreArms names inner fuel n) := by
  induction n with
  | zero => exact parallel_spent
  | succ n ih =>
      refine (parallel_eatKeyword _).bindEq fun _ => .ite (fun _ => ?_) fun _ => .pure ⟨rfl, rfl⟩
      refine (parallel_eatKeyword _).bindEq fun _ => .ite (fun _ => ?_) fun _ => ?_
      · exact (parallel_arm hinner fuel).bind fun a a' ha => ih.bind fun r r' hr =>
          .pure ⟨congrArg₂ List.cons ha hr.1, hr.2⟩
      · exact hinner.bind fun s s' hs => .pure ⟨rfl, congrArg some hs⟩

theorem parallel_forInit (fuel : Nat) :
    Parallel (fun s s' => s.map Stmt.eraseSpans = s'.map Stmt.eraseSpans)
      (forInit names fuel) (forInit names fuel) := by
  refine (parallel_eat _).bindEq fun _ => .ite (fun _ => .pure rfl) fun _ =>
    parallel_kind.bindEq fun _ => parallel_atDeclaration.bindEq fun _ => .ite (fun _ => ?_) fun _ =>
      ?_
  · exact (parallel_variableDeclaration fuel).bind fun s s' hs => .pure (congrArg some hs)
  · refine parallel_look.bind fun t t' _ => (parallel_expression fuel).bind fun e e' he =>
      (parallel_expect _).bindEq fun _ => (parallel_spanFrom _ _).bind fun _ _ _ => .pure ?_
    exact congrArg (fun e => some (Stmt.expr .dummy e)) he

theorem parallel_forLoop (hinner : Parallel Stmt.Alike inner inner) (fuel : Nat) :
    Parallel Stmt.Alike (forLoop names inner fuel) (forLoop names inner fuel) := by
  refine parallel_look.bind fun t t' _ => parallel_take.bindEq fun _ =>
    (parallel_expect _).bindEq fun _ => (parallel_forInit fuel).bind fun init init' hinit => ?_
  refine (parallel_expressionUnless fuel _).bind fun test test' htest =>
    (parallel_expect _).bindEq fun _ =>
    (parallel_expressionUnless fuel _).bind fun step step' hstep =>
    (parallel_expect _).bindEq fun _ => hinner.bind fun body body' hbody =>
      parallel_finish fun s s' => ?_
  rw [Stmt.Alike, Stmt.erased_forLoop, Stmt.erased_forLoop, hinit, htest, hstep, hbody]

theorem parallel_optionalBody {items : Parse (List Stmt)}
    (hitems : Parallel
      (fun ss ss' => ss.map Stmt.eraseSpans = ss'.map Stmt.eraseSpans) items items) :
    Parallel Stmt.Alike (optionalBody items) (optionalBody items) :=
  parallel_look.bind fun _ _ _ => hitems.bind fun ss ss' h => parallel_finish fun _ _ => by
    rw [Stmt.Alike, Stmt.erased_block, Stmt.erased_block, h]

/-- An optional block is the same but for its places. -/
theorem parallel_optional {items : Parse (List Stmt)}
    (hitems : Parallel (fun ss ss' => ss.map Stmt.eraseSpans = ss'.map Stmt.eraseSpans) items items)
    (fuel n : Nat) :
    Parallel Stmt.Alike (optional names items fuel n) (optional names items fuel n) := by
  induction n with
  | zero => exact parallel_spent
  | succ n ih =>
      have hbody := parallel_optionalBody hitems
      unfold optional
      dsimp only
      refine parallel_look.bind fun t t' _ => (parallel_expectKeyword _).bindEq fun _ =>
        (parallel_condition fuel).bind fun c c' hc => hbody.bind fun body body' hb => ?_
      have hrest {o o' : Option Stmt} (ho : o.map Stmt.eraseSpans = o'.map Stmt.eraseSpans)
          (s s' : Span) : (Stmt.optional s c body o).Alike (.optional s' c' body' o') := by
        rw [Stmt.Alike, Stmt.erased_optional, Stmt.erased_optional, hc, hb, ho]
      have hsome {s s' : Stmt} (hs : s.Alike s') :
          (some s).map Stmt.eraseSpans = (some s').map Stmt.eraseSpans := congrArg some hs
      refine (parallel_eatKeyword _).bindEq fun _ => .ite (fun _ => ?_) fun _ =>
        parallel_finish (hrest rfl)
      refine parallel_kind.bindEq fun _ => .ite (fun _ => ih.bind fun s s' hs => ?_) fun _ =>
        hbody.bind fun s s' hs => ?_
      · exact parallel_finish (hrest (hsome hs))
      · exact parallel_finish (hrest (hsome hs))

/-- Statements are read alike wherever their tokens stand. -/
theorem parallel_statement (fuel : Nat) :
    Parallel Stmt.Alike (statement names fuel) (statement names fuel) := by
  induction fuel with
  | zero => exact parallel_spent
  | succ fuel ih =>
      have hsemicolon {make make' : Span → Stmt} (start start' : Token)
          (h : ∀ s s', (make s).Alike (make' s')) :
          Parallel Stmt.Alike
            (do
              expect .semicolon
              return make (← spanFrom start.span))
            (do
              expect .semicolon
              return make' (← spanFrom start'.span)) :=
        (parallel_expect _).bindEq fun _ => parallel_finish h
      unfold statement
      dsimp only
      refine parallel_look.bind fun start start' hstart => ?_
      rw [hstart]
      split
      · exact (parallel_braced ih fuel).bind fun ss ss' h => parallel_finish fun _ _ => by
          rw [Stmt.Alike, Stmt.erased_block, Stmt.erased_block, h]
      · refine parallel_take.bindEq fun _ => (parallel_arm ih fuel).bind fun a a' ha =>
          (parallel_moreArms ih fuel _).bind fun r r' hr => parallel_finish fun _ _ => ?_
        rw [Stmt.Alike, Stmt.erased_branch, Stmt.erased_branch, List.map_cons, List.map_cons, ha,
          hr.1, hr.2]
      · exact parallel_forLoop ih fuel
      · exact parallel_take.bindEq fun _ => (parallel_condition fuel).bind fun c c' hc =>
          ih.bind fun body body' hb => parallel_finish fun _ _ =>
            congrArg₂ (Stmt.whileLoop .dummy) hc hb
      · exact parallel_take.bindEq fun _ => ih.bind fun body body' hb =>
          (parallel_expectKeyword _).bindEq fun _ => (parallel_condition fuel).bind fun c c' hc =>
            hsemicolon _ _ fun _ _ => congrArg₂ (Stmt.doWhile .dummy) hb hc
      · exact parallel_take.bindEq fun _ => hsemicolon _ _ fun _ _ => rfl
      · exact parallel_take.bindEq fun _ => hsemicolon _ _ fun _ _ => rfl
      · exact parallel_take.bindEq fun _ => hsemicolon _ _ fun _ _ => rfl
      · exact parallel_take.bindEq fun _ => (parallel_expressionUnless fuel _).bind fun e e' he =>
          hsemicolon _ _ fun _ _ => by rw [Stmt.Alike, Stmt.erased_ret, Stmt.erased_ret, he]
      · exact parallel_optional (parallel_braced ih fuel) fuel fuel
      · exact parallel_variableDeclaration fuel
      · refine parallel_atDeclaration.bindEq fun _ => .ite
          (fun _ => parallel_variableDeclaration fuel) fun _ => ?_
        exact (parallel_expression fuel).bind fun e e' he =>
          hsemicolon _ _ fun _ _ => congrArg (Stmt.expr .dummy) he

end Statements

section Items

theorem parallel_structField : Parallel Eq (structField names) (structField names) :=
  parallel_identifier.bind fun _ _ hp => (parallel_expect _).bindEq fun _ =>
    parallel_type.bindEq fun t => (parallel_expect _).bindEq fun _ =>
      .pure (congrArg (StructField.mk · t) hp)

theorem parallel_struct (fuel : Nat) (start start' : Span) :
    Parallel Stmt.Alike (struct names fuel start) (struct names fuel start') := by
  refine parallel_take.bindEq fun _ => parallel_identifier.bind fun p p' hp =>
    (parallel_expect _).bindEq fun _ =>
    (parallel_upTo (f := id) _ parallel_structField _).bind fun fields fields' hfields =>
    (parallel_expect _).bindEq fun _ => (parallel_eat _).bindEq fun _ => parallel_finish fun _ _ =>
      ?_
  rw [List.map_id, List.map_id] at hfields
  rw [Stmt.Alike, Stmt.erased_struct, Stmt.erased_struct, hp, hfields]

/-- The type and the name of an entry are the same, and so are its attributes but for their places.
-/
theorem parallel_entryHead (fuel : Nat) :
    Parallel (fun h h' => h.1.erased = h'.1.erased ∧ h.2 = h'.2)
      (entryHead names fuel) (entryHead names fuel) :=
  (parallel_attributes fuel).bind fun _ _ has => parallel_type.bindEq fun t =>
    parallel_identifier.bind fun _ _ hp => .pure ⟨has, congrArg (Prod.mk t) hp⟩

theorem parallel_interfaceEntry (fuel : Nat) :
    Parallel (fun v v' => v.erased = v'.erased) (interfaceEntry names fuel)
      (interfaceEntry names fuel) := by
  refine (parallel_entryHead fuel).bind ?_
  rintro ⟨as, t, name⟩ ⟨as', _⟩ ⟨has, rfl⟩
  have hslot := Except.Parallel.of_map Attributes.slot Attributes.parallel_slot has
  refine (parallel_expect _).bindEq fun _ => (parallel_checked hslot).bindEq fun slot => ?_
  exact (parallel_spanFrom _ _).bind fun _ _ _ => .pure rfl

theorem parallel_externalEntry (fuel : Nat) :
    Parallel (fun v v' => v.erased = v'.erased) (externalEntry names fuel)
      (externalEntry names fuel) := by
  refine (parallel_entryHead fuel).bind ?_
  rintro ⟨as, t, name⟩ ⟨as', _⟩ ⟨has, rfl⟩
  have hbinding := Except.Parallel.of_map Attributes.binding Attributes.parallel_binding has
  refine (parallel_expect _).bindEq fun _ => (parallel_checked hbinding).bindEq fun place => ?_
  exact (parallel_spanFrom _ _).bind fun _ _ _ => .pure rfl

/-- Attributes are refused wherever they stand. -/
theorem parallel_none {as as' : Attributes} (h : as.erased = as'.erased)
    (target : AttributeTarget) :
    Parallel Eq (checked (as.none target)) (checked (as'.none target)) :=
  parallel_checked (Except.Parallel.of_map (·.none target) (·.parallel_none target) h)

theorem parallel_optionEntry (fuel : Nat) :
    Parallel (fun d d' => d.erased = d'.erased) (optionEntry names fuel)
      (optionEntry names fuel) := by
  refine (parallel_entryHead fuel).bind ?_
  rintro ⟨as, t, name⟩ ⟨as', _⟩ ⟨has, rfl⟩
  have hrest {value value' : Option Expr} (h : value.map Expr.erased = value'.map Expr.erased) :
      Parallel (fun d d' : OptionDeclaration => d.erased = d'.erased)
        (do
          expect .semicolon
          return ⟨name, t, value, ← spanFrom as.start.span⟩)
        (do
          expect .semicolon
          return ⟨name, t, value', ← spanFrom as'.start.span⟩) :=
    (parallel_expect _).bindEq fun _ => (parallel_spanFrom _ _).bind fun _ _ _ => .pure (by
      rw [OptionDeclaration.erased, OptionDeclaration.erased, h])
  refine (parallel_none has _).bindEq fun _ => (parallel_eat _).bindEq fun _ =>
    .ite (fun _ => ?_) fun _ => hrest rfl
  refine (parallel_expression fuel).bind fun e e' he => ?_
  have hsome : (some e).map Expr.erased = (some e').map Expr.erased := congrArg some he
  exact hrest hsome

theorem parallel_constEntry (fuel : Nat) :
    Parallel (fun d d' => d.erased = d'.erased) (constEntry names fuel)
      (constEntry names fuel) := by
  refine (parallel_entryHead fuel).bind ?_
  rintro ⟨as, t, name⟩ ⟨as', _⟩ ⟨has, rfl⟩
  refine (parallel_none has _).bindEq fun _ => (parallel_expect _).bindEq fun _ =>
    (parallel_expression fuel).bind fun e e' he => (parallel_expect _).bindEq fun _ =>
    (parallel_spanFrom _ _).bind fun _ _ _ => .pure ?_
  rw [ConstDeclaration.erased, ConstDeclaration.erased, he]

/-- The entries of a block are the same but for their places. -/
theorem parallel_entries {α β : Type} {entry : Parse α} {f : α → β}
    (hentry : Parallel (fun a a' => f a = f a') entry entry) (fuel : Nat) :
    Parallel (fun l l' => l.map f = l'.map f) (entries entry fuel) (entries entry fuel) :=
  parallel_take.bindEq fun _ => (parallel_expect _).bindEq fun _ =>
    (parallel_upTo _ hentry _).bind fun _ _ h => (parallel_expect _).bindEq fun _ =>
    (parallel_eat _).bindEq fun _ => .pure h

theorem parallel_parameter :
    Parallel (fun p p' => p.erased = p'.erased) (parameter names) (parameter names) :=
  parallel_look.bind fun _ _ _ => parallel_type.bindEq fun t =>
    parallel_identifier.bind fun _ _ hp =>
    (parallel_spanFrom _ _).bind fun _ _ _ => .pure (congrArg (Parameter.mk · t .dummy) hp)

/-- A function is the same but for its places. -/
theorem parallel_function (fuel : Nat) {as as' : Attributes} (has : as.erased = as'.erased)
    (t : Ty) (name : String) :
    Parallel Stmt.Alike (function names fuel as t name) (function names fuel as' t name) := by
  unfold function
  dsimp only
  have hentry := Except.Parallel.of_map Attributes.entry Attributes.parallel_entry has
  refine (parallel_checked hentry).bindEq fun entry => (parallel_expect _).bindEq fun _ => ?_
  have hrest {ps ps' : List Parameter} (h : ps.map Parameter.erased = ps'.map Parameter.erased) :
      Parallel Stmt.Alike
        (do
          expect .rparen
          let body ← braced (statement names fuel) fuel
          return .function (← spanFrom as.start.span) ⟨name, ps, t, entry⟩ body)
        (do
          expect .rparen
          let body ← braced (statement names fuel) fuel
          return .function (← spanFrom as'.start.span) ⟨name, ps', t, entry⟩ body) :=
    (parallel_expect _).bindEq fun _ =>
      (parallel_braced (parallel_statement fuel) fuel).bind fun body body' hb =>
        parallel_finish fun _ _ => by
          rw [Stmt.Alike, Stmt.erased_function, Stmt.erased_function, Signature.erased,
            Signature.erased, h, hb]
  exact parallel_kind.bindEq fun _ => .ite (fun _ => hrest rfl) fun _ =>
    (parallel_separated parallel_parameter _).bind fun _ _ h => hrest h

theorem parallel_libraryParts (fuel : Nat) :
    Parallel Eq (libraryParts fuel) (libraryParts fuel) := by
  induction fuel with
  | zero => exact parallel_spent
  | succ fuel ih =>
      refine (parallel_eat _).bindEq fun _ => .ite (fun _ => ?_) fun _ => .pure rfl
      exact parallel_identifier.bind fun _ _ hp => ih.bindEq fun rest =>
        .pure (congrArg (· :: rest) hp)

theorem parallel_library (fuel : Nat) (start start' : Span) :
    Parallel Stmt.Alike (library fuel start) (library fuel start') :=
  parallel_take.bindEq fun _ => parallel_identifier.bind fun _ _ hp =>
    (parallel_libraryParts _).bindEq fun rest => (parallel_expect _).bindEq fun _ =>
      parallel_finish fun _ _ => congrArg (fun part => Stmt.library .dummy (part :: rest)) hp

/-- Items are read alike wherever their tokens stand. -/
theorem parallel_item (fuel : Nat) : Parallel Stmt.Alike (item names fuel) (item names fuel) := by
  induction fuel with
  | zero => exact parallel_spent
  | succ fuel ih =>
      unfold item
      dsimp only
      refine (parallel_attributes fuel).bind fun as as' has => parallel_look.bind fun t t' ht => ?_
      rw [ht]
      split
      · exact (parallel_none has _).bindEq fun _ => parallel_struct fuel _ _
      · exact (parallel_none has _).bindEq fun _ =>
          (parallel_entries (parallel_interfaceEntry fuel) fuel).bind fun vs vs' h =>
            parallel_finish fun _ _ => by rw [Stmt.Alike, Stmt.erased_inputs, Stmt.erased_inputs, h]
      · exact (parallel_none has _).bindEq fun _ =>
          (parallel_entries (parallel_interfaceEntry fuel) fuel).bind fun vs vs' h =>
            parallel_finish fun _ _ => by
              rw [Stmt.Alike, Stmt.erased_outputs, Stmt.erased_outputs, h]
      · exact (parallel_none has _).bindEq fun _ =>
          (parallel_entries (parallel_externalEntry fuel) fuel).bind fun vs vs' h =>
            parallel_finish fun _ _ => by
              rw [Stmt.Alike, Stmt.erased_externals, Stmt.erased_externals, h]
      · exact (parallel_none has _).bindEq fun _ =>
          (parallel_entries (parallel_optionEntry fuel) fuel).bind fun ds ds' h =>
            parallel_finish fun _ _ => by
              rw [Stmt.Alike, Stmt.erased_options, Stmt.erased_options, h]
      · refine StateT.Parallel.state.bind fun c c' hc => ?_
        rw [Cursor.nextKind_eq hc]
        refine .ite (fun _ => (parallel_none has _).bindEq fun _ => ?_) fun _ =>
          (parallel_none has _).bindEq fun _ => parallel_variableDeclaration fuel
        exact (parallel_entries (parallel_constEntry fuel) fuel).bind fun ds ds' h =>
          parallel_finish fun _ _ => by rw [Stmt.Alike, Stmt.erased_consts, Stmt.erased_consts, h]
      · exact (parallel_none has _).bindEq fun _ =>
          parallel_optional (parallel_braced ih fuel) fuel fuel
      · exact (parallel_none has _).bindEq fun _ => parallel_library fuel _ _
      · refine parallel_type.bindEq fun type => parallel_identifier.bind fun p p' hp => ?_
        rw [hp]
        refine parallel_kind.bindEq fun _ => .ite (fun _ => parallel_function fuel has _ _) fun _ =>
          ?_
        exact (parallel_none has _).bindEq fun _ => parallel_finishVariable _ _ _ _ _ _
      · exact parallel_unexpected _

/-- A file is the same but for its places. -/
theorem parallel_file (fuel : Nat) : Parallel Stmt.Alike (file names fuel) (file names fuel) := by
  refine parallel_look.bind fun t t' _ => (parallel_upTo _ (parallel_item fuel) _).bind
    fun items items' h => parallel_kind.bindEq fun _ => .ite (fun _ => ?_) fun _ =>
    parallel_unexpected _
  cases items with
  | nil =>
      obtain rfl := List.map_eq_nil_iff.mp h.symm
      exact .pure rfl
  | cons item rest =>
      obtain ⟨item', rest', rfl, -⟩ := List.map_eq_cons_iff.mp h.symm
      exact parallel_finish fun _ _ => by rw [Stmt.Alike, Stmt.erased_block, Stmt.erased_block, h]

end Items

end Parse

/-- Tokens of the same kinds are read as the same file, but for its places. -/
theorem parallel_parseTokens {tokens tokens' : List Token}
    (h : tokens.map (·.kind) = tokens'.map (·.kind)) (registry : Registry) :
    Except.Parallel Stmt.Alike (parseTokens tokens registry) (parseTokens tokens' registry) := by
  have hnames : Names.ofTokens registry tokens = Names.ofTokens registry tokens' :=
    congrArg (Names.mk registry) (by rw [Parse.structNames_eq, Parse.structNames_eq, h])
  have hlength : tokens.length = tokens'.length := by
    rw [← List.length_map (·.kind), h, List.length_map]
  rw [parseTokens, parseTokens, hnames, hlength]
  exact (Parse.parallel_file _ (Cursor.ofTokens tokens) (Cursor.ofTokens tokens') h).bind fun _ _
    hp => .ok hp.1

end Shading
