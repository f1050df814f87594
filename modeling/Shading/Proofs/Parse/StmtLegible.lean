import Shading.Proofs.Parse.Attribute

/-!
# Statements that are read are legible

Whatever statement is read from tokens that can be written, it is legible, and its own tokens
have the marks of those it was read from. A statement that would take an `else` has none after
it: the loop over the arms of a branch ends only where there is none.
-/

namespace Shading

open Kind (Writable parenthesized)
open Lexer (isName)

namespace Parse

variable {names : Names} (hnames : names.registry = Registry.standard)

include hnames

/-- An expression that is read is legible. -/
theorem takes_expression (fuel : Nat) : Takes (expression names fuel) fun ks e _ =>
    Writable ks → e.Legible names ∧ Agree ks e.kinds := by
  refine (sound_expression names fuel).mono fun ks e _ h hw => ?_
  obtain ⟨hderives, hwritable, hagree⟩ := h.canonical hnames hw
  rw [Expr.kinds_erased] at hderives hwritable hagree
  exact ⟨⟨hderives.weaken (Nat.zero_le _), hwritable⟩, hagree⟩

/-- A type that is read can be printed and read again. -/
theorem takes_type : Takes (type names) fun ks t _ =>
    Writable ks → t.Legible names ∧ Agree ks t.kinds := by
  refine .look fun t => ?_
  split
  · rename_i name heq
    rw [heq]
    split
    · rename_i base hbase
      refine .take (by simp) ((takes_arraySuffix base).mono fun bs target _ htarget hw => ?_)
      obtain ⟨dims, hdims, rfl⟩ := htarget
      simp only [Kind.writable_cons, Kind.spellable_ident] at hw
      refine ⟨legible_arrayOf hnames hw.1 hbase hdims, .of_isPlain ?_ (Ty.isPlain_kinds _)⟩
      intro k hk
      rcases List.mem_cons.mp hk with rfl | hk
      · rfl
      · exact (sizes_of_brackets hdims).1 k hk
    · exact (Takes.failAt _ _).at_ _
  · exact (Takes.unexpected _).at_ _

/-- A condition is read with its parentheses. -/
theorem takes_condition (fuel : Nat) : Takes (condition names fuel) fun ks e _ =>
    Writable ks → e.Legible names ∧ Agree ks (parenthesized e.kinds) := by
  refine .expect (.bind (takes_expression hnames fuel) fun ks e he => ?_)
  refine .expect (.pure fun _ hw => ?_)
  simp only [Kind.writable_cons, Kind.writable_append] at hw
  obtain ⟨hlegible, hagree⟩ := he hw.2.1
  exact ⟨hlegible, .cons rfl (.concat rfl hagree)⟩

theorem takes_expressionUnless (fuel : Nat) (close : Symbol) :
    Takes (expressionUnless names fuel close) fun ks value _ => Writable ks →
      (∀ e, value = some e → e.Legible names) ∧ Agree ks (Expr.kindsAfter [] value) := by
  refine .kind fun k => .ite (fun _ => Takes.at_ ?_ _) fun _ => Takes.at_ ?_ _
  · exact .pure fun _ _ => ⟨by simp, .nil⟩
  · refine .bind (takes_expression hnames fuel) fun ks e he => .pure fun _ hw => ?_
    rw [List.append_nil] at hw ⊢
    obtain ⟨hlegible, hagree⟩ := he hw
    refine ⟨?_, hagree⟩
    rintro x ⟨⟩
    exact hlegible

/-- A variable declaration after its name. -/
theorem takes_finishVariable (fuel : Nat) (start : Span) (isConst : Bool) (t : Ty)
    (name : String) : Takes (finishVariable names fuel start isConst t name) fun ks s _ =>
      Writable ks → ∃ p init, s = .var p ⟨name, t, isConst, init⟩ ∧
        (∀ e, init = some e → e.Legible names) ∧
        Agree ks (Expr.kindsAfter [.symbol .eq] init ++ [.symbol .semicolon]) := by
  have hend (init : Option Expr) : Takes (do
      expect .semicolon
      return Stmt.var (← spanFrom start) ⟨name, t, isConst, init⟩) fun ks s _ =>
        ks = [.symbol .semicolon] ∧ ∃ p, s = .var p ⟨name, t, isConst, init⟩ :=
    .expect (.spanFrom fun p => .pure fun _ => ⟨rfl, p, rfl⟩)
  refine .eat ?_ ?_
  · refine .bind (takes_expression hnames fuel) fun ks e he => ?_
    refine (hend (some e)).mono fun ls s _ hs hw => ?_
    obtain ⟨rfl, p, rfl⟩ := hs
    simp only [Kind.writable_cons, Kind.writable_append] at hw
    obtain ⟨hlegible, hagree⟩ := he hw.2.1
    refine ⟨p, some e, rfl, ?_, .cons rfl (.concat rfl hagree)⟩
    rintro x ⟨⟩
    exact hlegible
  · refine (hend none).mono fun ls s _ hs hw => ?_
    obtain ⟨rfl, p, rfl⟩ := hs
    exact ⟨p, none, rfl, by simp, .cons rfl .nil⟩

/-- A declaration that is read can be printed and read again. -/
theorem takes_variableDeclaration (fuel : Nat) :
    Takes (variableDeclaration names fuel) fun ks s _ => Writable ks →
      ∃ p d, s = .var p d ∧ d.Legible names ∧ Agree ks d.kinds := by
  have hrest (start : Span) (isConst : Bool) : Takes (do
      let t ← type names
      let named ← identifier
      finishVariable names fuel start isConst t named.1) fun ks s _ => Writable ks →
        ∃ p d, s = .var p d ∧ d.isConst = isConst ∧ d.Legible names ∧
          Agree ks (d.type.kinds ++ .ident d.name ::
            (Expr.kindsAfter [.symbol .eq] d.initializer ++ [.symbol .semicolon])) := by
    refine .bind (takes_type hnames) fun ts t ht => .identifier fun name _ => ?_
    refine (takes_finishVariable hnames fuel start isConst t name).mono fun ks s _ hs hw => ?_
    simp only [Kind.writable_append, Kind.writable_cons, Kind.spellable_ident] at hw
    obtain ⟨htype, hagree⟩ := ht hw.1
    obtain ⟨p, init, rfl, hinit, hagree'⟩ := hs hw.2.2
    exact ⟨p, _, rfl, rfl, ⟨⟨hw.2.1, htype⟩, hinit⟩, hagree.append (.cons rfl hagree')⟩
  refine .look fun t => Takes.at_ (.eatKeyword ?_ ?_) _
  · refine (hrest t.span true).mono fun ks s _ hs hw => ?_
    obtain ⟨p, d, rfl, hconst, hd, hagree⟩ := hs (Kind.writable_cons.mp hw).2
    refine ⟨p, d, rfl, hd, ?_⟩
    simpa [VariableDeclaration.kinds, hconst] using hagree.cons rfl
  · refine (hrest t.span false).mono fun ks s _ hs hw => ?_
    obtain ⟨p, d, rfl, hconst, hd, hagree⟩ := hs hw
    refine ⟨p, d, rfl, hd, ?_⟩
    simpa [VariableDeclaration.kinds, hconst] using hagree

end Parse

namespace Stmt

open Parse

/-- What is known of a statement and of the tokens that it was read from, given the tokens
after them. -/
structure ReadFrom (names : Names) (place : Place) (ks : List Kind) (s : Stmt)
    (rest : List Kind) : Prop where
  legible : Legible names place s
  ends : s.takesElse = true → rest.headD .eof ≠ .keyword .else
  starts : s.isBranch = true → ks.head? = some (.keyword .if)
  agree : Agree ks s.kinds

end Stmt

namespace Parse

open Stmt (Place ReadFrom Legible LegibleInit kindsArms kindsElse kindsInit kindsList closesArms
  takesElseOption)

variable {names : Names} {place : Place}

/-- Whatever statement the production reads from tokens that can be written is legible at the
place. -/
def Understands (names : Names) (place : Place) (m : Parse Stmt) : Prop :=
  Takes m fun ks s rest => Writable ks → ReadFrom names place ks s rest

section Lists

variable {α : Type} {item : Parse α} {P : α → Prop} {kinds : α → List Kind}

/-- The items of a list are read one behind the other, and each can be printed. -/
theorem takes_upTo (stop : Kind)
    (hitem : Takes item fun ks a _ => Writable ks → P a ∧ Agree ks (kinds a))
    (fuel : Nat) : Takes (upTo stop item fuel) fun ks as _ => Writable ks →
      (∀ a ∈ as, P a) ∧ Agree ks (as.flatMap kinds) := by
  induction fuel with
  | zero => exact .spent
  | succ fuel ih =>
      refine .kind fun k => .ite (fun _ => Takes.at_ ?_ _) fun _ => Takes.at_ ?_ _
      · exact .pure fun _ _ => ⟨by simp, .nil⟩
      · refine .bindRest hitem fun a => .bindRest ih fun as => .pure fun rest ls hls ks hks h => ?_
        simp only [List.append_nil] at hls hks h ⊢
        obtain ⟨ha, hagree⟩ := hks h.left
        obtain ⟨has, hagree'⟩ := hls h.right
        refine ⟨?_, hagree.append hagree'⟩
        intro b hb
        rcases List.mem_cons.mp hb with rfl | hb
        · exact ha
        · exact has b hb

/-- Statements between braces. -/
theorem takes_braced {item : Parse Stmt} (hitem : Understands names place item) (fuel : Nat) :
    Takes (braced item fuel) fun ks items _ => Writable ks →
      (∀ i ∈ items, Legible names place i) ∧ Agree ks (Kind.braced (kindsList items)) := by
  have hlist := takes_upTo (.symbol .rbrace) (hitem.mono fun ks s rest hs h =>
    (⟨(hs h).legible, (hs h).agree⟩ : Legible names place s ∧ Agree ks s.kinds)) (fuel + 1)
  refine .expect (.bindRest hlist fun items => .expect (.pure fun rest ks hks h => ?_))
  obtain ⟨hitems, hagree⟩ := hks h.tail.left
  rw [Stmt.kindsList_eq_flatMap]
  exact ⟨hitems, .cons rfl (hagree.append (.cons rfl .nil))⟩

theorem takes_optionalBody {items : Parse (List Stmt)}
    (hitems : Takes items fun ks is _ => Writable ks →
      (∀ i ∈ is, Legible names place i) ∧ Agree ks (Kind.braced (kindsList is))) :
    Takes (optionalBody items) fun ks s _ => Writable ks → ∃ t is, s = .block t is ∧
      (∀ i ∈ is, Legible names place i) ∧ Agree ks s.kinds := by
  refine .look fun start => Takes.at_ (.bindRest hitems fun is => .spanFrom fun t => ?_) _
  refine .pure fun rest ks his h => ?_
  simp only [List.append_nil] at his h ⊢
  obtain ⟨hlegible, hagree⟩ := his h
  exact ⟨t, is, rfl, hlegible, by simpa [Stmt.kinds] using hagree⟩

/-- A statement of one word. -/
theorem understands_word {k : Keyword} {make : Span → Stmt} (hk : isPlain (.keyword k) = true)
    (start : Span) (hlegible : ∀ p, Legible names .body (make p))
    (htakes : ∀ p, (make p).takesElse = false) (hbranch : ∀ p, (make p).isBranch = false)
    (hkinds : ∀ p, (make p).kinds = [.keyword k, .symbol .semicolon]) :
    TakesAt (.keyword k) (do
      take
      expect .semicolon
      return make (← spanFrom start)) fun ks s rest =>
      Writable ks → ReadFrom names .body ks s rest := by
  refine .take (by simp) (.expect (.spanFrom fun p => .pure fun _ _ => ⟨hlegible p, ?_, ?_, ?_⟩))
  · simp [htakes]
  · simp [hbranch]
  · rw [hkinds]
    exact .cons hk (.cons rfl .nil)

end Lists

section Statements

variable (hnames : names.registry = Registry.standard) {inner : Parse Stmt}
include hnames

theorem takes_forInit (fuel : Nat) : Takes (forInit names fuel) fun ks init _ => Writable ks →
    LegibleInit names init ∧ Agree ks (kindsInit init) := by
  refine .eat ?_ ?_
  · exact .pure fun _ _ => ⟨.none, .cons rfl .nil⟩
  refine .kind fun k => Takes.at_ (.atDeclaration fun b => .ite (fun _ => ?_) fun _ => ?_) _
  · refine .bind (takes_variableDeclaration hnames fuel) fun ks s hs => .pure fun _ hw => ?_
    rw [List.append_nil] at hw ⊢
    obtain ⟨p, d, rfl, hd, hagree⟩ := hs hw
    exact ⟨.var hd, hagree⟩
  · refine .look fun t => Takes.at_ (.bind (takes_expression hnames fuel) fun ks e he => ?_) _
    refine .expect (.spanFrom fun p => .pure fun _ hw => ?_)
    simp only [Kind.writable_append] at hw
    obtain ⟨hlegible, hagree⟩ := he hw.1
    exact ⟨.expr hlegible, .concat rfl hagree⟩

/-- A loop that is read can be printed, whatever follows it. -/
theorem understands_forLoop (hinner : Understands names .body inner) (fuel : Nat) :
    TakesAt (.keyword .for) (forLoop names inner fuel) fun ks s rest =>
      Writable ks → ReadFrom names .body ks s rest := by
  refine .look fun start _ => .take (by simp) (.expect ?_)
  refine .bind (takes_forInit hnames fuel) fun ks₁ init hinit => ?_
  refine .bind (takes_expressionUnless hnames fuel .semicolon) fun ks₂ condition hcondition => ?_
  refine .expect (.bind (takes_expressionUnless hnames fuel .rparen) fun ks₃ step hstep => ?_)
  refine .expect (.bindRest hinner fun body => .spanFrom fun p => .pure fun rest ks hbody h => ?_)
  simp only [List.append_nil, List.nil_append] at hbody h ⊢
  have h₁ := h.tail.tail
  have h₂ := h₁.right
  have h₃ := h₂.right.tail
  obtain ⟨hinit, hagree₁⟩ := hinit h₁.left
  obtain ⟨hcondition, hagree₂⟩ := hcondition h₂.left
  obtain ⟨hstep, hagree₃⟩ := hstep h₃.left
  obtain ⟨hbody, hends, -, hagree₄⟩ := hbody h₃.right.tail
  refine ⟨.forLoop hinit hcondition hstep hbody, hends, nofun, ?_⟩
  exact .cons rfl (.cons rfl (hagree₁.append (hagree₂.append (.cons rfl
    (hagree₃.append (.cons rfl hagree₄))))))

/-- An arm is read with what follows its body, which no `else` may be taken from. -/
theorem takes_arm (hinner : Understands names .body inner) (fuel : Nat) :
    Takes (arm names inner fuel) fun ks a rest => Writable ks →
      a.1.Legible names ∧ Legible names .body a.2 ∧
        (a.2.takesElse = true → rest.headD .eof ≠ .keyword .else) ∧
        Agree ks (parenthesized a.1.kinds ++ a.2.kinds) := by
  refine .bind (takes_condition hnames fuel) fun cs c hc => .bindRest hinner fun s => ?_
  refine .pure fun rest ks hs h => ?_
  simp only [List.append_nil, List.nil_append] at hs h ⊢
  obtain ⟨hc, hagree⟩ := hc h.left
  obtain ⟨hs, hends, -, hagree'⟩ := hs h.right
  exact ⟨hc, hs, hends, hagree.append hagree'⟩

/-- The arms and the last alternative of a branch after its first arm. -/
structure ReadArms (names : Names) (ks : List Kind) (as : List (Expr × Stmt))
    (o : Option Stmt) (rest : List Kind) : Prop where
  conditions : ∀ a ∈ as, a.1.Legible names
  bodies : ∀ a ∈ as, Legible names .body a.2
  closes : closesArms o.isSome as
  otherwise : ∀ s, o = some s → Legible names .body s
  form : ∀ s, o = some s → s.isBranch = false
  starts : as ≠ [] ∨ o.isSome = true → (ks ++ rest).headD .eof = .keyword .else
  ends : takesElseOption o = true → rest.headD .eof ≠ .keyword .else
  agree : Agree ks (kindsArms [.keyword .else, .keyword .if] as ++ kindsElse o)

theorem takes_moreArms (hinner : Understands names .body inner) (fuel count : Nat) :
    Takes (moreArms names inner fuel count) fun ks p rest => Writable ks →
      ReadArms names ks p.1 p.2 rest := by
  induction count with
  | zero => exact .spent
  | succ count ih =>
      refine .eatKeywordOr (.eatKeywordOr ?_ ?_) ?_
      · refine .bindRest (takes_arm hnames hinner fuel) fun a => ?_
        refine .bindRest ih fun p => .pure fun rest ls hls ks hks h => ?_
        simp only [List.append_nil] at hls hks h ⊢
        have h' := h.tail.tail
        obtain ⟨hc, hs, hends, hagree⟩ := hks (h'.left)
        have hmore := hls h'.right
        refine ⟨?_, ?_, ⟨?_, hmore.closes⟩, hmore.otherwise, hmore.form, fun _ => rfl,
          hmore.ends, ?_⟩
        · intro b hb
          rcases List.mem_cons.mp hb with rfl | hb
          · exact hc
          · exact hmore.conditions b hb
        · intro b hb
          rcases List.mem_cons.mp hb with rfl | hb
          · exact hs
          · exact hmore.bodies b hb
        · intro hsome
          cases htakes : a.2.takesElse with
          | false => rfl
          | true => exact absurd (hmore.starts hsome) (hends htakes)
        · have hagree' := hagree.append hmore.agree
          simpa [kindsArms] using (hagree'.cons rfl).cons rfl
      · refine .bindRest hinner fun o => .pure fun rest ks ho hif h => ?_
        simp only [List.append_nil, List.nil_append] at ho hif h ⊢
        obtain ⟨hlegible, hends, hstarts, hagree⟩ := ho (h.tail)
        refine ⟨by simp, by simp, trivial, ?_, ?_, fun _ => rfl, hends, ?_⟩
        · rintro x ⟨⟩
          exact hlegible
        · rintro x ⟨⟩
          cases hbranch : o.isBranch with
          | false => rfl
          | true =>
              obtain ⟨tail, hks⟩ := List.head?_eq_some_iff.mp (hstarts hbranch)
              exact absurd (by simp [hks]) hif
        · simpa [kindsArms, kindsElse] using hagree.cons rfl
      · refine .pure fun rest hrest _ => ?_
        exact ⟨by simp, by simp, trivial, nofun, nofun, by simp, fun _ => hrest, .nil⟩

/-- A branch is understood as its first arm and the others. -/
theorem understands_branch (hinner : Understands names .body inner) (fuel count : Nat)
    (start : Span) :
    TakesAt (.keyword .if) (do
      take
      let first ← arm names inner fuel
      let (rest, otherwise) ← moreArms names inner fuel count
      return Stmt.branch (← spanFrom start) (first :: rest) otherwise) fun ks s rest =>
      Writable ks → ReadFrom names .body ks s rest := by
  refine .take (by simp) (.bindRest (takes_arm hnames hinner fuel) fun a => ?_)
  refine .bindRest (takes_moreArms hnames hinner fuel count) fun p => ?_
  refine .spanFrom fun q => .pure fun rest ls hls ks hks h => ?_
  simp only [List.append_nil] at hls hks h ⊢
  obtain ⟨hc, hs, hends, hagree⟩ := hks h.tail.left
  have hmore := hls h.tail.right
  refine ⟨.branch (List.cons_ne_nil _ _) ?_ ?_ ⟨?_, hmore.closes⟩ hmore.otherwise hmore.form,
    hmore.ends, fun _ => rfl, ?_⟩
  · intro b hb
    rcases List.mem_cons.mp hb with rfl | hb
    · exact hc
    · exact hmore.conditions b hb
  · intro b hb
    rcases List.mem_cons.mp hb with rfl | hb
    · exact hs
    · exact hmore.bodies b hb
  · intro hsome
    cases htakes : a.2.takesElse with
    | false => rfl
    | true => exact absurd (hmore.starts hsome) (hends htakes)
  · have hagree' := hagree.append hmore.agree
    simpa [Stmt.kinds, kindsArms] using hagree'.cons rfl

/-- An optional block that is read is legible, as is the chain of the ones after it. -/
theorem takes_optional {items : Parse (List Stmt)}
    (hitems : Takes items fun ks is _ => Writable ks →
      (∀ i ∈ is, Legible names place i) ∧ Agree ks (Kind.braced (kindsList is)))
    (fuel count : Nat) :
    Takes (optional names items fuel count) fun ks s rest => Writable ks →
      ReadFrom names place ks s rest ∧ ∃ u c b o, s = .optional u c b o := by
  induction count with
  | zero => exact .spent
  | succ count ih =>
      have hend (start : Span) (c : Expr) (b : Stmt) (o : Option Stmt) : Takes (do
          return Stmt.optional (← spanFrom start) c b o) fun ks s _ =>
            ks = [] ∧ ∃ u, s = .optional u c b o :=
        .spanFrom fun u => .pure fun _ => ⟨rfl, u, rfl⟩
      refine .look fun start => Takes.at_ (.expectKeyword ?_) _
      refine .bind (takes_condition hnames fuel) fun cs c hc => ?_
      refine .bindRest (takes_optionalBody hitems) fun b => ?_
      refine .eatKeywordOr (.kind fun k => .ite (fun _ => Takes.at_ ?_ _)
        fun _ => Takes.at_ ?_ _) ?_
      · refine .bindRest ih fun o => (hend start.span c b (some o)).mono ?_
        rintro _ s rest ⟨rfl, u, rfl⟩ os ho bs hb h
        simp only [List.append_nil, List.nil_append] at hb ho h ⊢
        have h₁ := h.tail
        have h₂ := h₁.right
        obtain ⟨hc, hagree₁⟩ := hc h₁.left
        obtain ⟨t, is, rfl, his, hagree₂⟩ := hb h₂.left
        obtain ⟨⟨hlegible, hends, -, hagree₃⟩, u', c', b', o', rfl⟩ := ho h₂.right.tail
        refine ⟨⟨.optionalChain hc his hlegible, hends, nofun, ?_⟩, _, _, _, _, rfl⟩
        simpa [Stmt.kinds, kindsElse] using
          (hagree₁.append (hagree₂.append (hagree₃.cons rfl))).cons rfl
      · refine .bindRest (takes_optionalBody hitems) fun o => (hend start.span c b (some o)).mono ?_
        rintro _ s rest ⟨rfl, u, rfl⟩ os ho bs hb h
        simp only [List.append_nil] at hb ho h ⊢
        have h₁ := h.tail
        have h₂ := h₁.right
        obtain ⟨hc, hagree₁⟩ := hc h₁.left
        obtain ⟨t, is, rfl, his, hagree₂⟩ := hb h₂.left
        obtain ⟨t', is', rfl, his', hagree₃⟩ := ho h₂.right.tail
        refine ⟨⟨.optionalBlock hc his his', nofun, nofun, ?_⟩, _, _, _, _, rfl⟩
        simpa [Stmt.kinds, kindsElse] using
          (hagree₁.append (hagree₂.append (hagree₃.cons rfl))).cons rfl
      · refine (hend start.span c b none).mono ?_
        rintro _ s rest ⟨rfl, u, rfl⟩ hrest bs hb h
        simp only [List.append_nil, List.nil_append] at hb hrest h ⊢
        have h₁ := h.tail
        obtain ⟨hc, hagree₁⟩ := hc h₁.left
        obtain ⟨t, is, rfl, his, hagree₂⟩ := hb h₁.right
        refine ⟨⟨.optional hc his, fun _ => hrest, nofun, ?_⟩, _, _, _, _, rfl⟩
        simpa [Stmt.kinds, kindsElse] using (hagree₁.append hagree₂).cons rfl

/-- Every statement that is read is legible. -/
theorem understands_statement (fuel : Nat) :
    Understands names .body (statement names fuel) := by
  induction fuel with
  | zero => exact .spent
  | succ fuel ih =>
      have hvariable : Takes (variableDeclaration names fuel) fun ks s rest =>
          Writable ks → ReadFrom names .body ks s rest := by
        refine (takes_variableDeclaration hnames fuel).mono fun ks s rest hs h => ?_
        obtain ⟨p, d, rfl, hd, hagree⟩ := hs h
        exact ⟨.var hd, nofun, nofun, by simpa [Stmt.kinds] using hagree⟩
      refine .look fun start => ?_
      simp only []
      split
      · refine Takes.at_ (.bindRest (takes_braced ih fuel) fun items => ?_) _
        refine .spanFrom fun p => .pure fun rest ks hitems h => ?_
        simp only [List.append_nil] at hitems h ⊢
        obtain ⟨hitems, hagree⟩ := hitems h
        exact ⟨.block hitems, nofun, nofun, by simpa [Stmt.kinds] using hagree⟩
      · rename_i hk
        rw [hk]
        exact understands_branch hnames ih _ _ start.span
      · rename_i hk
        rw [hk]
        exact understands_forLoop hnames ih fuel
      · rename_i hk
        rw [hk]
        refine .take (by simp) (.bind (takes_condition hnames fuel) fun cs c hc => ?_)
        refine .bindRest ih fun body => .spanFrom fun p => .pure fun rest ks hbody h => ?_
        simp only [List.append_nil, List.nil_append] at hbody h ⊢
        obtain ⟨hc, hagree⟩ := hc h.tail.left
        obtain ⟨hbody, hends, -, hagree'⟩ := hbody h.tail.right
        refine ⟨.whileLoop hc hbody, hends, nofun, ?_⟩
        simpa [Stmt.kinds] using (hagree.append hagree').cons rfl
      · rename_i hk
        rw [hk]
        refine .take (by simp) (.bindRest ih fun body => .expectKeyword ?_)
        refine .bind (takes_condition hnames fuel) fun cs c hc => .expect ?_
        refine .spanFrom fun p => .pure fun rest ks hbody h => ?_
        obtain ⟨hbody, -, -, hagree⟩ := hbody h.tail.left
        obtain ⟨hc, hagree'⟩ := hc h.tail.right.tail.left
        refine ⟨.doWhile hbody hc, nofun, nofun, ?_⟩
        simpa [Stmt.kinds] using
          (hagree.append ((hagree'.concat (k := .symbol .semicolon) rfl).cons rfl)).cons rfl
      · rename_i hk
        rw [hk]
        exact understands_word rfl start.span (fun _ => Legible.leaveLoop) (fun _ => rfl)
          (fun _ => rfl) fun _ => rfl
      · rename_i hk
        rw [hk]
        exact understands_word rfl start.span (fun _ => Legible.nextRound) (fun _ => rfl)
          (fun _ => rfl) fun _ => rfl
      · rename_i hk
        rw [hk]
        exact understands_word rfl start.span (fun _ => Legible.discard) (fun _ => rfl)
          (fun _ => rfl) fun _ => rfl
      · rename_i hk
        rw [hk]
        refine .take (by simp) (.bind (takes_expressionUnless hnames fuel .semicolon) fun vs value
          hvalue => ?_)
        refine .expect (.spanFrom fun p => .pure fun _ h => ?_)
        obtain ⟨hvalue, hagree⟩ := hvalue h.tail.left
        refine ⟨.ret hvalue, nofun, nofun, ?_⟩
        simpa [Stmt.kinds] using (hagree.concat (k := .symbol .semicolon) rfl).cons rfl
      · refine Takes.at_ ((takes_optional hnames (takes_braced ih fuel) fuel fuel).mono ?_) _
        exact fun ks s rest hs h => (hs h).1
      · exact hvariable.at_ _
      · refine Takes.at_ (.atDeclaration fun b => .ite (fun _ => hvariable) fun _ => ?_) _
        refine .bind (takes_expression hnames fuel) fun es e he => .expect ?_
        refine .spanFrom fun p => .pure fun _ h => ?_
        obtain ⟨hlegible, hagree⟩ := he h.left
        exact ⟨.expr hlegible, nofun, nofun, .concat rfl hagree⟩

end Statements

end Parse

end Shading
