import Shading.Proofs.Parse.Closes

/-!
# Where expressions, statements and declarations look

Each production of the grammar looks no further than the next semicolon or closing brace
after what it takes, and asks names only which type a name is.
-/

namespace Shading

namespace Parse

variable {names names' : Names}

section Expressions

variable {inner inner' operand operand' : Parse Expr}

theorem local_arguments (hinner : Local inner inner') (fuel : Nat) :
    Local (arguments inner fuel) (arguments inner' fuel) := by
  apply (Local.expect _).bind
  intro _
  apply (Local.eat _).bind
  intro close
  apply Local.ite
  · intro _
    exact .pure _
  · intro _
    apply (hinner.separated _).bind
    intro args
    apply (Local.expect _).bind
    intro _
    exact .pure _

/-- What a name stands for is told by the names, which are alike. -/
theorem local_named (h : names.Alike names') (hinner : Local inner inner') (fuel : Nat) (t : Token)
    (name : String) : Local (named names inner fuel t name) (named names' inner' fuel t name) := by
  unfold named
  rw [h.type?, h.registry]
  split
  · apply Local.take.bind
    intro _
    apply (Local.arraySuffix _).bind
    intro target
    apply Local.kind.bind
    intro k
    apply Local.ite
    · intro _
      apply (local_arguments hinner fuel).bind
      intro args
      apply (Local.spanFrom _).bind
      intro span
      exact .pure _
    · intro _
      exact .unexpected _
  · apply Local.take.bind
    intro _
    apply Local.kind.bind
    intro k
    apply Local.ite
    · intro _
      apply (local_arguments hinner fuel).bind
      intro args
      apply (Local.spanFrom _).bind
      intro span
      split
      · exact .pure _
      · exact .pure _
    · intro _
      exact .pure _

theorem local_primary (h : names.Alike names') (hinner : Local inner inner') (fuel : Nat) :
    Local (primary names inner fuel) (primary names' inner' fuel) := by
  apply Local.look.bind
  intro t
  split
  · apply Local.take.bind
    intro _
    exact .pure _
  · split
    · exact .failAt _ _
    · apply Local.take.bind
      intro _
      apply hinner.bind
      intro e
      apply (Local.expect _).bind
      intro _
      exact .pure _
    · exact local_named h hinner fuel t _
    · exact .failAt _ _

/-- The suffixes end before a token that is no bracket and no point. -/
theorem local_suffixes (hinner : Local inner inner') (fuel : Nat) (e : Expr) :
    Local (suffixes inner fuel e) (suffixes inner' fuel e) := by
  induction fuel generalizing e with
  | zero => exact .spent
  | succ fuel ih =>
      apply (Local.eat _).bind
      intro bracket
      apply Local.ite
      · intro _
        apply hinner.bind
        intro place
        apply (Local.expect _).bind
        intro _
        apply (Local.spanFrom _).bind
        intro span
        exact ih _
      · intro _
        apply (Local.eat _).bind
        intro dot
        apply Local.ite
        · intro _
          apply Local.identifier.bind
          intro member
          dsimp only
          split
          · exact ih _
          · exact ih _
        · intro _
          exact .pure _

theorem local_unary (hoperand : Local operand operand') (fuel : Nat) :
    Local (unary operand fuel) (unary operand' fuel) := by
  induction fuel with
  | zero => exact .spent
  | succ fuel ih =>
      apply Local.look.bind
      intro t
      split
      · apply Local.take.bind
        intro _
        apply Local.look.bind
        intro u
        apply Local.ite
        · intro _
          apply Local.take.bind
          intro _
          exact .pure _
        · intro _
          apply ih.bind
          intro e
          exact .pure _
      · apply Local.ite
        · intro _
          apply Local.take.bind
          intro _
          exact ih
        · intro _
          exact hoperand

/-- The operators end before a token that is none. -/
theorem local_climb (hoperand : Local operand operand') (fuel : Nat) (min : Precedence)
    (left : Expr) : Local (climb operand fuel min left) (climb operand' fuel min left) := by
  induction fuel generalizing min left with
  | zero => exact .spent
  | succ fuel ih =>
      apply Local.kind.bind
      intro k
      split
      · apply Local.ite
        · intro _
          exact .pure _
        · intro _
          apply Local.take.bind
          intro _
          have hright (level : Precedence) :
              Local (do climb operand fuel level (← operand))
                (do climb operand' fuel level (← operand')) := by
            apply hoperand.bind
            intro e
            exact ih _ _
          apply (hright _).bind
          intro right
          exact ih _ _
      · exact .pure _

theorem local_binary (hoperand : Local operand operand') (fuel : Nat) (min : Precedence) :
    Local (binary operand fuel min) (binary operand' fuel min) := by
  apply hoperand.bind
  intro left
  exact local_climb hoperand fuel min left

/-- A conditional without a question mark is its condition. -/
theorem local_ternary {condition condition' : Parse Expr} (hcondition : Local condition condition')
    (hinner : Local inner inner') (fuel : Nat) :
    Local (ternary condition inner fuel) (ternary condition' inner' fuel) := by
  induction fuel with
  | zero => exact .spent
  | succ fuel ih =>
      apply hcondition.bind
      intro c
      apply (Local.eat _).bind
      intro question
      apply Local.ite
      · intro _
        apply hinner.bind
        intro t
        apply (Local.expect _).bind
        intro _
        apply ih.bind
        intro f
        exact .pure _
      · intro _
        exact .pure _

/-- An assignment without an operator is its target. -/
theorem local_assignment {target target' : Parse Expr} (htarget : Local target target')
    (fuel : Nat) : Local (assignment target fuel) (assignment target' fuel) := by
  induction fuel with
  | zero => exact .spent
  | succ fuel ih =>
      apply htarget.bind
      intro t
      apply Local.kind.bind
      intro k
      split
      · apply Local.take.bind
        intro _
        apply ih.bind
        intro v
        exact .pure _
      · exact .pure _

/-- An expression ends before any closing token and looks no further. -/
theorem local_expression (h : names.Alike names') (fuel : Nat) :
    Local (expression names fuel) (expression names' fuel) := by
  induction fuel with
  | zero => exact .spent
  | succ fuel ih =>
      have hsuffixed : Local
          (do
            suffixes (expression names fuel) (fuel + 1)
              (← primary names (expression names fuel) fuel))
          (do
            suffixes (expression names' fuel) (fuel + 1)
              (← primary names' (expression names' fuel) fuel)) := by
        apply (local_primary h ih fuel).bind
        intro e
        exact local_suffixes ih _ e
      have hcondition := local_binary (local_unary hsuffixed (fuel + 1)) (fuel + 1) .or
      exact local_assignment (local_ternary hcondition ih _) _

end Expressions

section Statements

variable {inner inner' : Parse Stmt} (h : names.Alike names')
include h

theorem local_condition (fuel : Nat) : Local (condition names fuel) (condition names' fuel) := by
  apply (Local.expect _).bind
  intro _
  apply (local_expression h fuel).bind
  intro e
  apply (Local.expect _).bind
  intro _
  exact .pure _

omit h in
/-- The span of a tree is told from where it starts and the last token taken. -/
theorem still_finish {α : Type} (start : Span) (make : Span → α) :
    Still (do return make (← spanFrom start)) (do return make (← spanFrom start)) := by
  apply (Still.spanFrom start).bind
  intro span
  exact .pure _

omit h in
/-- A statement that ends in its semicolon closes there. -/
theorem closes_semicolon {α : Type} (start : Span) (make : Span → α) :
    Closes
      (do
        expect .semicolon
        return make (← spanFrom start))
      (do
        expect .semicolon
        return make (← spanFrom start)) := by
  apply (Closes.expect rfl).bindStill
  intro _
  exact still_finish _ _

/-- A variable closes with its semicolon. -/
theorem closes_finishVariable (fuel : Nat) (start : Span) (isConst : Bool) (type : Ty)
    (name : String) :
    Closes (finishVariable names fuel start isConst type name)
      (finishVariable names' fuel start isConst type name) := by
  unfold finishVariable
  dsimp only
  apply Closes.bind (.eat _)
  intro eq
  apply Closes.ite
  · intro _
    apply Closes.bind (local_expression h fuel)
    intro e
    apply Closes.bind (.pure _)
    intro value
    exact closes_semicolon _ _
  · intro _
    apply Closes.bind (.pure _)
    intro value
    exact closes_semicolon _ _

theorem closes_variableDeclaration (fuel : Nat) :
    Closes (variableDeclaration names fuel) (variableDeclaration names' fuel) := by
  apply Closes.bind .look
  intro start
  apply Closes.bind (.eatKeyword _)
  intro isConst
  apply Closes.bind (.type h)
  intro t
  apply Closes.bind .identifier
  intro p
  exact closes_finishVariable h fuel _ _ _ _

/-- No expression is read before the closing symbol. -/
theorem local_expressionUnless (fuel : Nat) (close : Symbol) :
    Local (expressionUnless names fuel close) (expressionUnless names' fuel close) := by
  apply Local.kind.bind
  intro k
  apply Local.ite
  · intro _
    exact .pure _
  · intro _
    apply (local_expression h fuel).bind
    intro e
    exact .pure _

omit h in
/-- Statements between braces close with their brace. -/
theorem closes_braced {item item' : Parse Stmt} (hitem : Local item item') (fuel : Nat) :
    Closes (braced item fuel) (braced item' fuel) := by
  apply Closes.bind (.expect _)
  intro _
  apply Closes.bind (hitem.upTo _ _)
  intro items
  apply (Closes.expect rfl).bindStill
  intro _
  exact .pure _

theorem local_arm (hinner : Local inner inner') (fuel : Nat) :
    Local (arm names inner fuel) (arm names' inner' fuel) := by
  apply (local_condition h fuel).bind
  intro c
  apply hinner.bind
  intro s
  exact .pure _

theorem local_moreArms (hinner : Local inner inner') (fuel n : Nat) :
    Local (moreArms names inner fuel n) (moreArms names' inner' fuel n) := by
  induction n with
  | zero => exact .spent
  | succ n ih =>
      apply (Local.eatKeyword _).bind
      intro otherwise
      apply Local.ite
      · intro _
        apply (Local.eatKeyword _).bind
        intro more
        apply Local.ite
        · intro _
          apply (local_arm h hinner fuel).bind
          intro a
          apply ih.bind
          intro r
          exact .pure _
        · intro _
          apply hinner.bind
          intro s
          exact .pure _
      · intro _
        exact .pure _

/-- The first clause of a `for` takes its semicolon, but the loop goes on. -/
theorem local_forInit (fuel : Nat) : Local (forInit names fuel) (forInit names' fuel) := by
  apply (Local.eat _).bind
  intro semicolon
  apply Local.ite
  · intro _
    exact .pure _
  · intro _
    apply Local.kind.bind
    intro k
    apply (Local.atDeclaration h).bind
    intro declared
    apply Local.ite
    · intro _
      apply (closes_variableDeclaration h fuel).isLocal.bind
      intro s
      exact .pure _
    · intro _
      apply Local.look.bind
      intro start
      apply (local_expression h fuel).bind
      intro e
      exact (closes_semicolon _ _).isLocal

theorem local_forLoop (hinner : Local inner inner') (fuel : Nat) :
    Local (forLoop names inner fuel) (forLoop names' inner' fuel) := by
  apply Local.look.bind
  intro start
  apply Local.take.bind
  intro _
  apply (Local.expect _).bind
  intro _
  apply (local_forInit h fuel).bind
  intro init
  apply (local_expressionUnless h fuel _).bind
  intro test
  apply (Local.expect _).bind
  intro _
  apply (local_expressionUnless h fuel _).bind
  intro step
  apply (Local.expect _).bind
  intro _
  apply hinner.bind
  intro body
  exact (still_finish _ _).isLocal

omit h in
/-- An optional body closes with its braces. -/
theorem closes_optionalBody {items items' : Parse (List Stmt)} (hitems : Closes items items') :
    Closes (optionalBody items) (optionalBody items') := by
  apply Closes.bind .look
  intro start
  apply hitems.bindStill
  intro ss
  exact still_finish _ _

/-- An optional block closes with its last body. -/
theorem closes_optional {items items' : Parse (List Stmt)} (hitems : Closes items items')
    (fuel n : Nat) : Closes (optional names items fuel n) (optional names' items' fuel n) := by
  have hbody := closes_optionalBody hitems
  induction n with
  | zero => exact .spent
  | succ n ih =>
      unfold optional
      dsimp only
      apply Closes.bind .look
      intro start
      apply Closes.bind (.expectKeyword _)
      intro _
      apply Closes.bind (local_condition h fuel)
      intro c
      apply hbody.bindElse
      · intro body
        rw [if_pos rfl, if_pos rfl]
        apply Closes.bind .kind
        intro k
        apply Closes.ite
        · intro _
          apply ih.bindStill
          intro s
          exact (Still.pure _).bind fun _ => still_finish _ _
        · intro _
          apply hbody.bindStill
          intro s
          exact (Still.pure _).bind fun _ => still_finish _ _
      · intro body
        exact (Still.pure _).bind fun _ => still_finish _ _

/-- A statement looks no further than a closing token after it. -/
theorem local_statement (fuel : Nat) : Local (statement names fuel) (statement names' fuel) := by
  induction fuel with
  | zero => exact .spent
  | succ fuel ih =>
      unfold statement
      dsimp only
      apply Local.look.bind
      intro start
      split
      · apply (closes_braced ih fuel).isLocal.bind
        intro items
        exact (still_finish _ _).isLocal
      · apply Local.take.bind
        intro _
        apply (local_arm h ih fuel).bind
        intro first
        apply (local_moreArms h ih fuel _).bind
        intro r
        exact (still_finish _ _).isLocal
      · exact local_forLoop h ih fuel
      · apply Local.take.bind
        intro _
        apply (local_condition h fuel).bind
        intro c
        apply ih.bind
        intro body
        exact (still_finish _ _).isLocal
      · apply Local.take.bind
        intro _
        apply ih.bind
        intro body
        apply (Local.expectKeyword _).bind
        intro _
        apply (local_condition h fuel).bind
        intro c
        exact (closes_semicolon _ _).isLocal
      · apply Local.take.bind
        intro _
        exact (closes_semicolon _ _).isLocal
      · apply Local.take.bind
        intro _
        exact (closes_semicolon _ _).isLocal
      · apply Local.take.bind
        intro _
        exact (closes_semicolon _ _).isLocal
      · apply Local.take.bind
        intro _
        apply (local_expressionUnless h fuel _).bind
        intro value
        exact (closes_semicolon _ _).isLocal
      · exact (closes_optional h (closes_braced ih fuel) fuel fuel).isLocal
      · exact (closes_variableDeclaration h fuel).isLocal
      · apply (Local.atDeclaration h).bind
        intro declared
        apply Local.ite
        · intro _
          exact (closes_variableDeclaration h fuel).isLocal
        · intro _
          apply (local_expression h fuel).bind
          intro e
          exact (closes_semicolon _ _).isLocal

end Statements

section Items

theorem local_attributeArgument : Local attributeArgument attributeArgument := by
  apply Local.kind.bind
  intro k
  split
  · apply Local.take.bind
    intro _
    exact .pure _
  · exact .unexpected _

theorem local_oneAttribute (fuel : Nat) : Local (oneAttribute fuel) (oneAttribute fuel) := by
  apply Local.look.bind
  intro t
  apply Local.identifier.bind
  intro p
  apply (Local.eat _).bind
  intro paren
  apply Local.ite
  · intro _
    apply (local_attributeArgument.separated _).bind
    intro arguments
    apply (Local.expect _).bind
    intro _
    exact (still_finish _ _).isLocal
  · intro _
    exact (still_finish _ _).isLocal

/-- The groups end before a token that is no bracket. -/
theorem local_attributeGroups (fuel : Nat) :
    Local (attributeGroups fuel) (attributeGroups fuel) := by
  induction fuel with
  | zero => exact .spent
  | succ fuel ih =>
      apply (Local.eat _).bind
      intro bracket
      apply Local.ite
      · intro _
        apply ((local_oneAttribute fuel).separated _).bind
        intro group
        apply (Local.expect _).bind
        intro _
        apply ih.bind
        intro groups
        exact .pure _
      · intro _
        exact .pure _

theorem local_attributes (fuel : Nat) : Local (attributes fuel) (attributes fuel) := by
  apply Local.look.bind
  intro start
  apply (local_attributeGroups _).bind
  intro list
  exact .pure _

variable (h : names.Alike names')
include h

theorem local_structField : Local (structField names) (structField names') := by
  apply Local.identifier.bind
  intro p
  apply (Local.expect _).bind
  intro _
  apply (Local.type h).bind
  intro t
  apply (Local.expect _).bind
  intro _
  exact .pure _

/-- The head of an entry is its attributes, its type and its name. -/
theorem local_entryHead (fuel : Nat) : Local (entryHead names fuel) (entryHead names' fuel) := by
  apply (local_attributes fuel).bind
  intro as
  apply (Local.type h).bind
  intro t
  apply Local.identifier.bind
  intro p
  exact .pure _

theorem local_interfaceEntry (fuel : Nat) :
    Local (interfaceEntry names fuel) (interfaceEntry names' fuel) := by
  apply (local_entryHead h fuel).bind
  intro head
  apply (Local.expect _).bind
  intro _
  apply (Local.checked _).bind
  intro slot
  exact (still_finish _ _).isLocal

theorem local_externalEntry (fuel : Nat) :
    Local (externalEntry names fuel) (externalEntry names' fuel) := by
  apply (local_entryHead h fuel).bind
  intro head
  apply (Local.expect _).bind
  intro _
  apply (Local.checked _).bind
  intro place
  exact (still_finish _ _).isLocal

/-- An option ends in its semicolon. -/
theorem local_optionEntry (fuel : Nat) :
    Local (optionEntry names fuel) (optionEntry names' fuel) := by
  apply (local_entryHead h fuel).bind
  intro head
  apply (Local.checked _).bind
  intro _
  apply (Local.eat _).bind
  intro eq
  apply Local.ite
  · intro _
    apply (local_expression h fuel).bind
    intro e
    apply (Local.pure _).bind
    intro value
    exact (closes_semicolon _ _).isLocal
  · intro _
    apply (Local.pure _).bind
    intro value
    exact (closes_semicolon _ _).isLocal

theorem local_constEntry (fuel : Nat) :
    Local (constEntry names fuel) (constEntry names' fuel) := by
  apply (local_entryHead h fuel).bind
  intro head
  apply (Local.checked _).bind
  intro _
  apply (Local.expect _).bind
  intro _
  apply (local_expression h fuel).bind
  intro value
  exact (closes_semicolon _ _).isLocal

theorem local_parameter : Local (parameter names) (parameter names') := by
  apply Local.look.bind
  intro start
  apply (Local.type h).bind
  intro t
  apply Local.identifier.bind
  intro p
  exact (still_finish _ _).isLocal

omit h in
/-- The parts of a library's name end before a token that is no point. -/
theorem local_libraryParts (fuel : Nat) : Local (libraryParts fuel) (libraryParts fuel) := by
  induction fuel with
  | zero => exact .spent
  | succ fuel ih =>
      apply (Local.eat _).bind
      intro dot
      apply Local.ite
      · intro _
        apply Local.identifier.bind
        intro p
        apply ih.bind
        intro rest
        exact .pure _
      · intro _
        exact .pure _

/-- A struct closes with its brace or with the semicolon after it. -/
theorem closes_struct (fuel : Nat) (start : Span) :
    Closes (struct names fuel start) (struct names' fuel start) := by
  apply Closes.bind .take
  intro _
  apply Closes.bind .identifier
  intro p
  apply Closes.bind (.expect _)
  intro _
  apply Closes.bind ((local_structField h).upTo _ _)
  intro fields
  apply (Closes.expect rfl).bindEat
  intro _ _
  exact still_finish _ _

omit h in
/-- A block of entries closes with its brace or with the semicolon after it. -/
theorem closes_entries {α : Type} {entry entry' : Parse α} (hentry : Local entry entry')
    (fuel : Nat) : Closes (entries entry fuel) (entries entry' fuel) := by
  apply Closes.bind .take
  intro _
  apply Closes.bind (.expect _)
  intro _
  apply Closes.bind (hentry.upTo _ _)
  intro list
  apply (Closes.expect rfl).bindEat
  intro _ _
  exact .pure _

/-- A function closes with the brace of its body. -/
theorem closes_function (fuel : Nat) (as : Attributes) (returnType : Ty) (name : String) :
    Closes (function names fuel as returnType name) (function names' fuel as returnType name) := by
  have hrest (entry : Option EntryPoint) (parameters : List Parameter) :
      Closes
        (do
          expect .rparen
          let body ← braced (statement names fuel) fuel
          return Stmt.function (← spanFrom as.start.span)
            ⟨name, parameters, returnType, entry⟩ body)
        (do
          expect .rparen
          let body ← braced (statement names' fuel) fuel
          return Stmt.function (← spanFrom as.start.span)
            ⟨name, parameters, returnType, entry⟩ body) := by
    apply Closes.bind (.expect _)
    intro _
    apply (closes_braced (local_statement h fuel) fuel).bindStill
    intro body
    exact still_finish _ _
  unfold function
  dsimp only
  apply Closes.bind (.checked _)
  intro entry
  apply Closes.bind (.expect _)
  intro _
  apply Closes.bind .kind
  intro k
  apply Closes.ite
  · intro _
    apply Closes.bind (.pure _)
    intro parameters
    exact hrest _ _
  · intro _
    apply Closes.bind ((local_parameter h).separated _)
    intro parameters
    exact hrest _ _

omit h in
/-- A directive closes with its semicolon. -/
theorem closes_library (fuel : Nat) (start : Span) :
    Closes (library fuel start) (library fuel start) := by
  apply Closes.bind .take
  intro _
  apply Closes.bind .identifier
  intro p
  apply Closes.bind (local_libraryParts _)
  intro rest
  exact closes_semicolon _ _

/-- A declaration ends with a closing token and looks behind it for a semicolon and an
alternative only. -/
theorem closes_item (fuel : Nat) : Closes (item names fuel) (item names' fuel) := by
  induction fuel with
  | zero => exact .spent
  | succ fuel ih =>
      have hblock {α : Type} {entry entry' : Parse α} (hentry : Local entry entry')
          (result : Checked Unit) (start : Span) (make : Span → List α → Stmt) :
          Closes
            (do
              checked result
              let es ← entries entry fuel
              return make (← spanFrom start) es)
            (do
              checked result
              let es ← entries entry' fuel
              return make (← spanFrom start) es) := by
        apply Closes.bind (.checked _)
        intro _
        apply (closes_entries hentry fuel).bindStill
        intro es
        exact still_finish _ _
      unfold item
      apply Closes.bind (local_attributes fuel)
      intro as
      apply Closes.lookAt
      intro t
      split
      · apply Closes.at_
        apply Closes.bind (.checked _)
        intro _
        exact closes_struct h fuel _
      · exact (hblock (local_interfaceEntry h fuel) _ _ _).at_ _
      · exact (hblock (local_interfaceEntry h fuel) _ _ _).at_ _
      · exact (hblock (local_externalEntry h fuel) _ _ _).at_ _
      · exact (hblock (local_optionEntry h fuel) _ _ _).at_ _
      · rename_i hconst
        rw [hconst]
        apply ClosesAt.nextKind rfl
        · exact hblock (local_constEntry h fuel) _ _ _
        · apply Closes.bind (.checked _)
          intro _
          exact closes_variableDeclaration h fuel
      · apply Closes.at_
        apply Closes.bind (.checked _)
        intro _
        exact closes_optional h (closes_braced ih.isLocal fuel) fuel fuel
      · apply Closes.at_
        apply Closes.bind (.checked _)
        intro _
        exact closes_library fuel _
      · apply Closes.at_
        apply Closes.bind (.type h)
        intro type
        apply Closes.bind .identifier
        intro p
        apply Closes.bind .kind
        intro k
        apply Closes.ite
        · intro _
          exact closes_function h fuel as _ _
        · intro _
          apply Closes.bind (.checked _)
          intro _
          exact closes_finishVariable h fuel _ _ _ _
      · exact (Closes.unexpected _).at_ _

end Items

end Parse

end Shading
