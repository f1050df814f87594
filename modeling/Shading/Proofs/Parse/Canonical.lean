import Shading.Proofs.Parse.Surroundings
import Shading.Proofs.Parse.TypeNames
import Shading.Proofs.Print.Places

/-!
# The tokens that an expression is printed with derive it

Whatever tokens a tree was derived from, the ones that it is printed with derive it too, at
its own strength: parentheses stand where an operand is weaker than its place asks for.
-/

namespace Shading

open Kind (parenthesized wrapped Writable)
open Parse

namespace Expr

/-- How strong the tokens are that an expression is printed with. -/
def strength : Expr → Precedence
  | .constant .. => .primary
  | e => e.precedence

mutual

/-- An expression is spelled alike without its spans. -/
theorem kinds_erased (e : Expr) : e.erased.kinds = e.kinds := by
  cases e with
  | constant _ _ | ref _ _ => rfl
  | index _ base place =>
      simp only [erased_index, kinds, needsParens_erased, kinds_erased base, kinds_erased place]
  | field _ base name | swizzle _ base selection =>
      simp only [erased_field, erased_swizzle, kinds, needsParens_erased, kinds_erased base]
  | assign _ op target value =>
      simp only [erased_assign, kinds, needsParens_erased, kinds_erased target, kinds_erased value]
  | unary _ op operand =>
      simp only [erased_unary, kinds, needsParensAfterSign_erased, kinds_erased operand]
  | binary _ op left right =>
      simp only [erased_binary, kinds, needsParens_erased, kinds_erased left, kinds_erased right]
  | call _ name args | builtin _ f args | cast _ target args =>
      simp only [erased_call, erased_builtin, erased_cast, kinds, kindsList_erased args]
  | ternary _ c t f =>
      simp only [erased_ternary, kinds, needsParens_erased, kinds_erased c, kinds_erased t,
        kinds_erased f]

theorem kindsList_erased (es : List Expr) : kindsList (es.map erased) = kindsList es := by
  cases es with
  | nil => rfl
  | cons e es => simp only [List.map_cons, kindsList, kinds_erased e, kindsList_erased es]

end

end Expr

namespace Parse

variable {names : Names} {level : Precedence} {ks : List Kind} {e : Expr}

/-- What an operand that stands without parentheses is strong enough for. -/
theorem le_strength_of_needsParens_eq_false {min : Precedence} {strict : Bool}
    (h : e.needsParens min strict = false) :
    (if strict then min.next else min) ≤ e.strength := by
  have hplain {p : Precedence} (hp : (decide (p < min) || (strict && p == min)) = false) :
      (if strict then min.next else min) ≤ p := by
    simp only [Bool.or_eq_false_iff, decide_eq_false_iff_not, Bool.and_eq_false_iff,
      beq_eq_false_iff_ne] at hp
    obtain ⟨hlt, hne⟩ := hp
    have hle : min.rank ≤ p.rank := Nat.not_lt.mp hlt
    cases strict with
    | false => exact hle
    | true =>
        have hne : p.rank ≠ min.rank := fun heq => hne.elim (by simp) fun hne =>
            hne (rank_injective heq)
        have hnext : min.next.rank ≤ min.rank + 1 := by
          rw [Precedence.rank_next]
          exact Nat.min_le_left _ _
        have : min.next.rank ≤ p.rank := by omega
        exact this
  cases e with
  | constant => exact le_primary _
  | _ => exact hplain h

/-- An operand stands in parentheses exactly where it is too weak for its place. -/
theorem derives_wrapped (h : Derives names e.strength e.kinds e) (min : Precedence)
    (strict : Bool) : Derives names (if strict then min.next else min)
      (wrapped (e.needsParens min strict) e.kinds) e := by
  cases hparens : e.needsParens min strict with
  | true =>
      have hprimary : Derives names .primary (parenthesized e.kinds) e :=
        .parens (h.weaken (Nat.zero_le _))
      exact hprimary.weaken (le_primary _)
  | false => exact h.weaken (le_strength_of_needsParens_eq_false hparens)

/-- After a prefix operator another one stands in parentheses too. -/
theorem derives_wrapped_afterSign (h : Derives names e.strength e.kinds e) :
    Derives names .unary (wrapped e.needsParensAfterSign e.kinds) e := by
  have hplain : Derives names .unary (wrapped (e.needsParens .unary false) e.kinds) e :=
    derives_wrapped h .unary false
  cases e with
  | unary s op operand =>
      have hprimary : Derives names .primary (parenthesized (Expr.unary s op operand).kinds)
          (.unary s op operand) := .parens (h.weaken (Nat.zero_le _))
      exact hprimary.weaken (le_primary _)
  | _ => exact hplain

section Tokens

/-- The token of an assignment operator is the one that the operator is printed as. -/
theorem assignOp?_eq_some {k : Kind} {op : AssignOp} (h : assignOp? k = some op) :
    k = .symbol op.token := by
  unfold assignOp? at h
  split at h <;> cases h <;> rfl

theorem unaryOp?_eq_some {k : Kind} {op : UnaryOp} (h : unaryOp? k = some op) :
    k = .symbol op.token := by
  unfold unaryOp? at h
  split at h <;> cases h <;> rfl

theorem binaryOp?_eq_some {k : Kind} {op : BinaryOp} (h : binaryOp? k = some op) :
    k = .symbol op.token := by
  unfold binaryOp? at h
  split at h <;> cases h <;> rfl

/-- A truth value is spelled by its keyword. -/
theorem truth?_eq_some {k : Keyword} {b : Bool} (h : truth? k = some b) :
    k = if b then .true else .false := by
  unfold truth? at h
  split at h <;> cases h <;> rfl

/-- A literal is printed as the token that it was read from. -/
theorem kinds_of_literal? {k : Kind} {c : Constant} (h : literal? k = some c) :
    c.kinds = [k] := by
  unfold literal? at h
  split at h
  · rename_i n
    split at h
    · rename_i hn
      obtain rfl := Option.some.inj h
      have htoInt : (Int32.ofNat n).toInt = n :=
        Int32.toInt_ofNat_of_lt (by unfold intMax at hn; omega)
      have hpos : ¬Int32.ofNat n < 0 := by
        rw [Int32.lt_iff_toInt_lt, htoInt]
        exact Int.not_lt.mpr (Int.natCast_nonneg n)
      simp [Constant.kinds, hpos, htoInt]
    · cases h
  · cases h
    rfl
  · cases h
    rfl
  · obtain ⟨b, hb, rfl⟩ := Option.map_eq_some_iff.mp h
    rw [truth?_eq_some hb]
    cases b <;> rfl
  · cases h

/-- Commas stand at the same places on both sides. -/
theorem agree_commas {α : Type} {f g : α → List Kind} {parts : List α}
    (h : ∀ p ∈ parts, Agree (f p) (g p)) :
    Agree (commas (parts.map f)) (commas (parts.map g)) := by
  induction parts with
  | nil => exact .nil
  | cons p ps ih =>
      have hp := h p (by simp)
      cases ps with
      | nil => simpa [commas] using hp
      | cons q qs =>
          have htail := ih fun r hr => h r (List.mem_cons_of_mem _ hr)
          simpa [commas] using hp.append (.cons rfl htail)

theorem agree_argumentList {α : Type} {f g : α → List Kind} {parts : List α}
    (h : ∀ p ∈ parts, Agree (f p) (g p)) :
    Agree (argumentList (parts.map f)) (argumentList (parts.map g)) :=
  .concat rfl (.cons rfl (agree_commas h))

/-- Parentheses around one side do not count. -/
theorem Agree.wrapped {ls : List Kind} (h : Agree ks ls) (parens : Bool) :
    Agree ks (Kind.wrapped parens ls) := by
  cases parens with
  | false => exact h
  | true =>
      have hopen : Agree [] [.symbol .lparen] := .of_isPlain (by simp) (by simp [isPlain])
      have hclose : Agree [] [.symbol .rparen] := .of_isPlain (by simp) (by simp [isPlain])
      simpa [Kind.wrapped, parenthesized] using (hopen.append h).append hclose

end Tokens

end Parse

/-- A letter that is found in a set of letters is the letter there. -/
theorem SwizzleSet.getD_of_idxOf? {set : SwizzleSet} {c : Char} {i : Nat}
    (h : set.letters.idxOf? c = some i) : set.letters.getD i '?' = c := by
  obtain ⟨hi, hc, -⟩ := List.idxOf?_eq_some_iff.mp h
  simpa [List.getD_eq_getElem?_getD, List.getElem?_eq_getElem hi] using hc

/-- A swizzle is printed as the word it was read from. -/
theorem Swizzle.text_of_ofName? {name : String} {selection : Swizzle}
    (h : ofName? name = some selection) : selection.text = name := by
  unfold ofName? at h
  dsimp only at h
  split at h
  · cases h
  · rename_i first rest hchars
    split at h
    · cases h
    · split at h
      · cases h
      · rename_i set _
        obtain ⟨components, hcomponents, rfl⟩ := Option.map_eq_some_iff.mp h
        have hletters {cs : List Char} {is : List Nat}
            (hcs : cs.mapM set.letters.idxOf? = some is) :
            is.map (fun i => set.letters.getD i '?') = cs := by
          induction cs generalizing is with
          | nil =>
              cases hcs
              rfl
          | cons c cs ih =>
              rw [List.mapM_cons] at hcs
              obtain ⟨i, hi, hrest⟩ := Option.bind_eq_some_iff.mp hcs
              obtain ⟨js, hjs, heq⟩ := Option.bind_eq_some_iff.mp hrest
              cases heq
              rw [List.map_cons, SwizzleSet.getD_of_idxOf? hi, ih hjs]
        rw [text, hletters hcomponents]
        exact String.ofList_toList

namespace Parse

variable {names : Names} {level : Precedence} {ks : List Kind} {e : Expr}

/-- What the tokens of a derivation and those the tree is printed with have in common. -/
structure Canonical (names : Names) (ks : List Kind) (e : Expr) : Prop where
  derives : Derives names e.strength e.kinds e
  writable : Writable e.kinds
  agree : Agree ks e.kinds

/-- The same of the arguments of a call. -/
theorem canonical_arguments {parts : List (List Kind × Expr)}
    (h : ∀ p ∈ parts, Canonical names p.1 p.2) :
    ∃ qs : List (List Kind × Expr), qs.map Prod.fst = Expr.kindsList (parts.map Prod.snd) ∧
      qs.map Prod.snd = parts.map Prod.snd ∧ (∀ q ∈ qs, Derives names .assign q.1 q.2) ∧
      (∀ part ∈ Expr.kindsList (parts.map Prod.snd), Writable part) ∧
      Agree (argumentList (parts.map Prod.fst))
        (argumentList (Expr.kindsList (parts.map Prod.snd))) := by
  refine ⟨parts.map fun p => (p.2.kinds, p.2), ?_, ?_, ?_, ?_, ?_⟩
  · simp [Expr.kindsList_eq_map, Function.comp_def]
  · simp [Function.comp_def]
  · intro q hq
    obtain ⟨p, hp, rfl⟩ := List.mem_map.mp hq
    exact (h p hp).derives.weaken (Nat.zero_le _)
  · intro part hpart
    simp only [Expr.kindsList_eq_map, List.map_map, List.mem_map, Function.comp_apply] at hpart
    obtain ⟨p, hp, rfl⟩ := hpart
    exact (h p hp).writable
  · rw [Expr.kindsList_eq_map, List.map_map]
    exact agree_argumentList fun p hp => (h p hp).agree

namespace Canonical

variable {k : Kind}

/-- An assignment whose sides are spelled canonically is so itself. The lemmas below say the same
of every form of expression. -/
theorem assign {op : AssignOp} {ts vs : List Kind} {t v : Expr} (hop : assignOp? k = some op)
    (ht : Canonical names ts t) (hv : Canonical names vs v) :
    Canonical names (ts ++ k :: vs) (.assign .dummy op t v) := by
  obtain rfl := assignOp?_eq_some hop
  refine ⟨?_, ?_, ?_⟩
  · exact .assign op.assignOp?_token (derives_wrapped ht.derives .ternary false)
      (hv.derives.weaken (Nat.zero_le _))
  · simp [Expr.kinds, ht.writable, hv.writable]
  · exact (ht.agree.wrapped _).append (.cons (by cases op <;> rfl) hv.agree)

theorem ternary {cs ts fs : List Kind} {c t f : Expr} (hc : Canonical names cs c)
    (ht : Canonical names ts t) (hf : Canonical names fs f) :
    Canonical names (cs ++ .symbol .question :: (ts ++ .symbol .colon :: fs))
      (.ternary .dummy c t f) := by
  refine ⟨?_, ?_, ?_⟩
  · exact .ternary (derives_wrapped hc.derives .ternary true) (ht.derives.weaken (Nat.zero_le _))
      (derives_wrapped hf.derives .ternary false)
  · simp [Expr.kinds, hc.writable, ht.writable, hf.writable]
  · exact (hc.agree.wrapped _).append
      (.cons rfl (ht.agree.append (.cons rfl (hf.agree.wrapped _))))

theorem binary {op : BinaryOp} {ls rs : List Kind} {l r : Expr} (hop : binaryOp? k = some op)
    (hl : Canonical names ls l) (hr : Canonical names rs r) :
    Canonical names (ls ++ k :: rs) (.binary .dummy op l r) := by
  obtain rfl := binaryOp?_eq_some hop
  refine ⟨?_, ?_, ?_⟩
  · exact .binary op.binaryOp?_token (derives_wrapped hl.derives op.precedence false)
      (derives_wrapped hr.derives op.precedence true)
  · simp [Expr.kinds, hl.writable, hr.writable]
  · exact (hl.agree.wrapped _).append (.cons (by cases op <;> rfl) (hr.agree.wrapped _))

theorem unary {op : UnaryOp} (hop : unaryOp? k = some op) (h : Canonical names ks e) :
    Canonical names (k :: ks) (.unary .dummy op e) := by
  obtain rfl := unaryOp?_eq_some hop
  refine ⟨?_, ?_, ?_⟩
  · exact .unary op.unaryOp?_token (derives_wrapped_afterSign h.derives)
  · simp [Expr.kinds, h.writable]
  · exact .cons (by cases op <;> rfl) (h.agree.wrapped _)

/-- The least integer is spelled as the negation of a literal that is out of range. -/
theorem minInt : Canonical names [.symbol .minus, .int (intMax + 1)]
    (.constant .dummy (.int Int32.minValue)) := by
  have hkinds : (Expr.constant .dummy (.int Int32.minValue)).kinds
      = parenthesized [.symbol .minus, .int (intMax + 1)] := rfl
  refine ⟨?_, ?_, ?_⟩
  · rw [hkinds]
    exact .parens (Derives.minInt.weaken (Nat.zero_le _))
  · simp [hkinds]
  · rw [hkinds]
    exact .of_isPlain (by decide) (by decide)

theorem index {bs ps : List Kind} {b p : Expr} (hb : Canonical names bs b)
    (hp : Canonical names ps p) :
    Canonical names (bs ++ .symbol .lbracket :: (ps ++ [.symbol .rbracket]))
      (.index .dummy b p) := by
  refine ⟨?_, ?_, ?_⟩
  · exact .index (derives_wrapped hb.derives .postfixed false) (hp.derives.weaken (Nat.zero_le _))
  · simp [Expr.kinds, hb.writable, hp.writable]
  · exact (hb.agree.wrapped _).append (.cons rfl (.concat rfl hp.agree))

/-- A selection of components is spelled by its letters. -/
theorem swizzle {name : String} {selection : Swizzle}
    (hname : Swizzle.ofName? name = some selection) (hspell : Kind.Spellable (.ident name))
    (h : Canonical names ks e) :
    Canonical names (ks ++ [.symbol .dot, .ident name]) (.swizzle .dummy e selection) := by
  have htext := Swizzle.text_of_ofName? hname
  refine ⟨?_, ?_, ?_⟩
  · exact .swizzle (derives_wrapped h.derives .postfixed false) (htext ▸ hname)
  · simp [Expr.kinds, h.writable, htext, hspell]
  · rw [Expr.kinds, htext]
    exact (h.agree.wrapped _).append (.dot (.cons rfl .nil))

theorem field {name : String} (hname : Swizzle.ofName? name = none)
    (hspell : Kind.Spellable (.ident name)) (h : Canonical names ks e) :
    Canonical names (ks ++ [.symbol .dot, .ident name]) (.field .dummy e name) := by
  refine ⟨?_, ?_, ?_⟩
  · exact .field (derives_wrapped h.derives .postfixed false) hname
  · simp [Expr.kinds, h.writable, hspell]
  · exact (h.agree.wrapped _).append (.dot (.cons rfl .nil))

theorem literal {c : Constant} (h : literal? k = some c) (hk : Writable [k]) :
    Canonical names [k] (.constant .dummy c) := by
  have hkinds : (Expr.constant .dummy c).kinds = [k] := kinds_of_literal? h
  refine ⟨?_, ?_, ?_⟩
  · rw [hkinds]
    exact .literal h
  · rwa [hkinds]
  · rw [hkinds]
    have hplain : isPlain k = true := by
      cases k with
      | symbol s => cases h
      | keyword k => cases k <;> first | rfl | cases h
      | int _ | uint _ | float _ | ident _ | eof => rfl
    exact .cons hplain .nil

/-- Parentheses that were read need not be printed. -/
theorem parens (h : Canonical names ks e) :
    Canonical names (.symbol .lparen :: (ks ++ [.symbol .rparen])) e := by
  have hclose : Agree [.symbol .rparen] [] := .of_isPlain (by decide) (by simp)
  exact ⟨h.derives, h.writable, .consLeft rfl (by simpa using h.agree.append hclose)⟩

/-- Arguments behind the tokens of what they are for, which may be printed with others. -/
theorem ofCallee {head printed : List Kind} {build : List Expr → Expr}
    {parts : List (List Kind × Expr)} (hcallee : Callee names printed build)
    (hkinds : ∀ es, (build es).kinds = printed ++ argumentList (Expr.kindsList es))
    (hprinted : Writable printed) (hhead : Agree head printed)
    (hparts : ∀ p ∈ parts, Canonical names p.1 p.2) :
    Canonical names (head ++ argumentList (parts.map Prod.fst)) (build (parts.map Prod.snd)) := by
  obtain ⟨qs, hfst, hsnd, hderives, hwritable, hagree⟩ := canonical_arguments hparts
  refine ⟨?_, ?_, ?_⟩
  · have hbuilt := hcallee.derives hderives
    rw [hfst, hsnd, ← hkinds] at hbuilt
    exact hbuilt.weaken (le_primary _)
  · simpa [hkinds, hprinted] using hwritable
  · rw [hkinds]
    exact hhead.append hagree

/-- Brackets after a type name are printed with the type they make of it. -/
theorem cast {name : String} {base : Ty} {bs : List Kind} {dims : List ArraySize}
    {parts : List (List Kind × Expr)} (hnames : names.registry = Registry.standard)
    (htype : names.type? name = some base) (hdims : Brackets bs dims)
    (hspell : Kind.Spellable (.ident name)) (hparts : ∀ p ∈ parts, Canonical names p.1 p.2) :
    Canonical names (.ident name :: (bs ++ argumentList (parts.map Prod.fst)))
      (.cast .dummy (dims.foldr (fun size t => .array t size) base) (parts.map Prod.snd)) := by
  have htarget := legible_arrayOf hnames (Kind.spellable_ident.mp hspell) htype hdims
  have hcallee :
      Callee names (Ty.arrayOf dims base).kinds (.cast .dummy (Ty.arrayOf dims base)) := by
    have hbuild := Callee.cast htarget.type (brackets_of_sizes htarget.sizes)
    change Callee names _
      (.cast .dummy (Ty.arrayOf (Ty.arrayOf dims base).dims (Ty.arrayOf dims base).base)) at hbuild
    rwa [Ty.arrayOf_dims_base] at hbuild
  have hhead : Agree (.ident name :: bs) (Ty.arrayOf dims base).kinds := by
    refine .of_isPlain ?_ (Ty.isPlain_kinds _)
    intro k hk
    rcases List.mem_cons.mp hk with rfl | hk
    · rfl
    · exact (sizes_of_brackets hdims).1 k hk
  exact ofCallee hcallee (fun es => rfl) htarget.writable hhead hparts

end Canonical

/-- The tokens that a derived tree is printed with derive it. -/
theorem Derives.canonical (hnames : names.registry = Registry.standard)
    (h : Derives names level ks e) (hks : Writable ks) : Canonical names ks e := by
  induction h with
  | tighter h ih => exact ih hks
  | assign hop ht hv iht ihv =>
      simp only [Kind.writable_append, Kind.writable_cons] at hks
      exact .assign hop (iht hks.1) (ihv hks.2.2)
  | ternary hc ht hf ihc iht ihf =>
      simp only [Kind.writable_append, Kind.writable_cons] at hks
      exact .ternary (ihc hks.1) (iht hks.2.2.1) (ihf hks.2.2.2.2)
  | binary hop hl hr ihl ihr =>
      simp only [Kind.writable_append, Kind.writable_cons] at hks
      exact .binary hop (ihl hks.1) (ihr hks.2.2)
  | unary hop h ih =>
      simp only [Kind.writable_cons] at hks
      exact .unary hop (ih hks.2)
  | plus h ih =>
      simp only [Kind.writable_cons] at hks
      have hoperand := ih hks.2
      exact ⟨hoperand.derives, hoperand.writable, hoperand.agree.consLeft rfl⟩
  | minInt => exact .minInt
  | index hb hp ihb ihp =>
      simp only [Kind.writable_append, Kind.writable_cons] at hks
      exact .index (ihb hks.1) (ihp hks.2.2.1)
  | swizzle hb hname ih =>
      simp only [Kind.writable_append, Kind.writable_cons] at hks
      exact .swizzle hname hks.2.2.1 (ih hks.1)
  | field hb hname ih =>
      simp only [Kind.writable_append, Kind.writable_cons] at hks
      exact .field hname hks.2.2.1 (ih hks.1)
  | literal h => exact .literal h hks
  | parens h ih =>
      simp only [Kind.writable_append, Kind.writable_cons] at hks
      exact .parens (ih hks.2.1)
  | ref htype => exact ⟨.ref htype, hks, .cons rfl .nil⟩
  | call htype hfunction hargs ih =>
      simp only [Kind.writable_cons, Kind.writable_argumentList, List.mem_map,
        forall_exists_index, and_imp, forall_apply_eq_imp_iff₂] at hks
      exact .ofCallee (.call htype hfunction) (fun es => rfl) (by simpa using hks.1)
        (.cons rfl .nil) fun p hp => ih p hp (hks.2 p hp)
  | @builtin name f parts htype hfunction hargs ih =>
      simp only [Kind.writable_cons, Kind.writable_argumentList, List.mem_map,
        forall_exists_index, and_imp, forall_apply_eq_imp_iff₂] at hks
      obtain rfl : name = f.name := Registry.name_of_standard_function? (hnames ▸ hfunction)
      exact .ofCallee (.builtin htype hfunction) (fun es => rfl) (by simpa using hks.1)
        (.cons rfl .nil) fun p hp => ih p hp (hks.2 p hp)
  | cast htype hdims hargs ih =>
      simp only [Kind.writable_cons, Kind.writable_append, Kind.writable_argumentList,
        List.mem_map, forall_exists_index, and_imp, forall_apply_eq_imp_iff₂] at hks
      exact .cast hnames htype hdims hks.1 fun p hp => ih p hp (hks.2.2 p hp)

end Parse

end Shading
