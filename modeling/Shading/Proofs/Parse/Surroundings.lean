import Shading.Proofs.Parse.Complete

/-!
# Places in an expression

What stands around a place inside an expression: the tokens before it, the tokens after it and
the tree around it. An expression of the right strength may be put there, so every place at
which the parser looks for one is of this form.
-/

namespace Shading

namespace Parse

variable {names : Names}

/-- The tokens that name what the arguments after them are for, and the tree of it. -/
inductive Callee (names : Names) : List Kind → (List Expr → Expr) → Prop
  | call {name : String} (htype : names.type? name = none)
      (hfunction : names.registry.function? name = none) :
      Callee names [.ident name] (.call .dummy name)
  | builtin {name : String} {f : BuiltinFunction} (htype : names.type? name = none)
      (hfunction : names.registry.function? name = some f) :
      Callee names [.ident name] (.builtin .dummy f)
  | cast {name : String} {base : Ty} {bs : List Kind} {dims : List ArraySize}
      (htype : names.type? name = some base) (hdims : Brackets bs dims) :
      Callee names (.ident name :: bs)
        (.cast .dummy (dims.foldr (fun size t => .array t size) base))

/-- Arguments that stand before another one. -/
def preceding (parts : List (List Kind × Expr)) : List Kind :=
  parts.flatMap fun p => p.1 ++ [.symbol .comma]

/-- Arguments that stand after another one, and the closing parenthesis. -/
def following (parts : List (List Kind × Expr)) : List Kind :=
  parts.flatMap (fun p => .symbol .comma :: p.1) ++ [.symbol .rparen]

section Surroundings

variable (names : Names) (hole : Precedence)

/-- The tokens before and after a place for an expression of strength `hole`, in an expression
of the given strength, and the tree around it. -/
inductive Around : Precedence → List Kind → List Kind → (Expr → Expr) → Prop
  | here : Around hole [] [] id
  | tighter {level : Precedence} {bs as : List Kind} {C : Expr → Expr}
      (h : Around level.next bs as C) : Around level bs as C
  | target {k : Kind} {op : AssignOp} {bs as vs : List Kind} {C : Expr → Expr} {v : Expr}
      (hop : assignOp? k = some op) (h : Around .ternary bs as C)
      (hv : Derives names .assign vs v) :
      Around .assign bs (as ++ k :: vs) fun e => .assign .dummy op (C e) v
  | value {k : Kind} {op : AssignOp} {ts bs as : List Kind} {t : Expr} {C : Expr → Expr}
      (hop : assignOp? k = some op) (ht : Derives names .ternary ts t)
      (h : Around .assign bs as C) :
      Around .assign (ts ++ k :: bs) as fun e => .assign .dummy op t (C e)
  | condition {bs as ts fs : List Kind} {C : Expr → Expr} {t f : Expr} (h : Around .or bs as C)
      (ht : Derives names .assign ts t) (hf : Derives names .ternary fs f) :
      Around .ternary bs (as ++ .symbol .question :: (ts ++ .symbol .colon :: fs))
        fun e => .ternary .dummy (C e) t f
  | whenTrue {cs bs as fs : List Kind} {c f : Expr} {C : Expr → Expr}
      (hc : Derives names .or cs c) (h : Around .assign bs as C)
      (hf : Derives names .ternary fs f) :
      Around .ternary (cs ++ .symbol .question :: bs) (as ++ .symbol .colon :: fs)
        fun e => .ternary .dummy c (C e) f
  | whenFalse {cs ts bs as : List Kind} {c t : Expr} {C : Expr → Expr}
      (hc : Derives names .or cs c) (ht : Derives names .assign ts t)
      (h : Around .ternary bs as C) :
      Around .ternary (cs ++ .symbol .question :: (ts ++ .symbol .colon :: bs)) as
        fun e => .ternary .dummy c t (C e)
  | left {k : Kind} {op : BinaryOp} {bs as rs : List Kind} {C : Expr → Expr} {r : Expr}
      (hop : binaryOp? k = some op) (h : Around op.precedence bs as C)
      (hr : Derives names op.precedence.next rs r) :
      Around op.precedence bs (as ++ k :: rs) fun e => .binary .dummy op (C e) r
  | right {k : Kind} {op : BinaryOp} {ls bs as : List Kind} {l : Expr} {C : Expr → Expr}
      (hop : binaryOp? k = some op) (hl : Derives names op.precedence ls l)
      (h : Around op.precedence.next bs as C) :
      Around op.precedence (ls ++ k :: bs) as fun e => .binary .dummy op l (C e)
  | unary {k : Kind} {op : UnaryOp} {bs as : List Kind} {C : Expr → Expr}
      (hop : unaryOp? k = some op) (h : Around .unary bs as C) :
      Around .unary (k :: bs) as fun e => .unary .dummy op (C e)
  | plus {bs as : List Kind} {C : Expr → Expr} (h : Around .unary bs as C) :
      Around .unary (.symbol .plus :: bs) as C
  | base {bs as ps : List Kind} {C : Expr → Expr} {p : Expr} (h : Around .postfixed bs as C)
      (hp : Derives names .assign ps p) :
      Around .postfixed bs (as ++ .symbol .lbracket :: (ps ++ [.symbol .rbracket]))
        fun e => .index .dummy (C e) p
  | index {ls bs as : List Kind} {b : Expr} {C : Expr → Expr} (hb : Derives names .postfixed ls b)
      (h : Around .assign bs as C) :
      Around .postfixed (ls ++ .symbol .lbracket :: bs) (as ++ [.symbol .rbracket])
        fun e => .index .dummy b (C e)
  | swizzle {bs as : List Kind} {C : Expr → Expr} {name : String} {selection : Swizzle}
      (h : Around .postfixed bs as C) (hname : Swizzle.ofName? name = some selection) :
      Around .postfixed bs (as ++ [.symbol .dot, .ident name])
        fun e => .swizzle .dummy (C e) selection
  | field {bs as : List Kind} {C : Expr → Expr} {name : String} (h : Around .postfixed bs as C)
      (hname : Swizzle.ofName? name = none) :
      Around .postfixed bs (as ++ [.symbol .dot, .ident name])
        fun e => .field .dummy (C e) name
  | parens {bs as : List Kind} {C : Expr → Expr} (h : Around .assign bs as C) :
      Around .primary (.symbol .lparen :: bs) (as ++ [.symbol .rparen]) C
  | argument {head bs as : List Kind} {build : List Expr → Expr}
      {earlier later : List (List Kind × Expr)} {C : Expr → Expr}
      (hcallee : Callee names head build)
      (hearlier : ∀ p ∈ earlier, Derives names .assign p.1 p.2) (h : Around .assign bs as C)
      (hlater : ∀ p ∈ later, Derives names .assign p.1 p.2) :
      Around .primary (head ++ .symbol .lparen :: (preceding earlier ++ bs)) (as ++ following later)
        fun e => build (earlier.map Prod.snd ++ C e :: later.map Prod.snd)

end Surroundings

theorem commas_cons (ks : List Kind) (ls : List (List Kind)) :
    commas (ks :: ls) = ks ++ ls.flatMap fun l => .symbol .comma :: l := by
  induction ls generalizing ks with
  | nil => simp [commas]
  | cons l ls ih => simp [commas, ih l]

theorem commas_append (ks : List Kind) (before after : List (List Kind)) :
    commas (before ++ ks :: after) = before.flatMap (fun l => l ++ [.symbol .comma]) ++
      (ks ++ after.flatMap fun l => .symbol .comma :: l) := by
  induction before with
  | nil => simpa using commas_cons ks after
  | cons l before ih =>
      have hcons : commas (l :: (before ++ ks :: after))
          = l ++ .symbol .comma :: commas (before ++ ks :: after) := by
        cases before <;> rfl
      rw [List.cons_append, hcons, ih]
      simp

theorem argumentList_append (earlier later : List (List Kind × Expr)) (p : List Kind × Expr) :
    argumentList ((earlier ++ p :: later).map Prod.fst)
      = .symbol .lparen :: (preceding earlier ++ (p.1 ++ following later)) := by
  simp [argumentList, commas_append, preceding, following, List.flatMap_map]

theorem Callee.derives {head : List Kind} {build : List Expr → Expr}
    (h : Callee names head build) {parts : List (List Kind × Expr)}
    (hargs : ∀ p ∈ parts, Derives names .assign p.1 p.2) :
    Derives names .primary (head ++ argumentList (parts.map Prod.fst))
      (build (parts.map Prod.snd)) := by
  cases h with
  | call htype hfunction => exact .call htype hfunction hargs
  | builtin htype hfunction => exact .builtin htype hfunction hargs
  | cast htype hdims => exact .cast htype hdims hargs

/-- A place in an expression is one in an expression of any weaker level. -/
theorem Around.weaken {hole level strong : Precedence} {bs as : List Kind} {C : Expr → Expr}
    (h : Around names hole strong bs as C) (hle : level ≤ strong) :
    Around names hole level bs as C :=
  of_le_of_next (P := (Around names hole · bs as C)) (fun _ => .tighter) hle h

/-- What is put in the place of an expression makes an expression. -/
theorem Around.derives {hole level : Precedence} {bs as : List Kind} {C : Expr → Expr}
    (h : Around names hole level bs as C) {ks : List Kind} {e : Expr}
    (hks : Derives names hole ks e) : Derives names level (bs ++ ks ++ as) (C e) := by
  induction h with
  | here => simpa using hks
  | tighter h ih => exact .tighter ih
  | target hop h hv ih => simpa using Derives.assign hop ih hv
  | value hop ht h ih => simpa using Derives.assign hop ht ih
  | condition h ht hf ih => simpa using Derives.ternary ih ht hf
  | whenTrue hc h hf ih => simpa using Derives.ternary hc ih hf
  | whenFalse hc ht h ih => simpa using Derives.ternary hc ht ih
  | left hop h hr ih => simpa using Derives.binary hop ih hr
  | right hop hl h ih => simpa using Derives.binary hop hl ih
  | unary hop h ih => simpa using Derives.unary hop ih
  | plus h ih => simpa using Derives.plus ih
  | base h hp ih => simpa using Derives.index ih hp
  | index hb h ih => simpa using Derives.index hb ih
  | swizzle h hname ih => simpa using Derives.swizzle ih hname
  | field h hname ih => simpa using Derives.field ih hname
  | parens h ih => simpa using Derives.parens ih
  | @argument head bs as build earlier later C hcallee hearlier h hlater ih =>
      have hargs : ∀ p ∈ earlier ++ (bs ++ ks ++ as, C e) :: later,
          Derives names .assign p.1 p.2 := by
        intro p hp
        rcases List.mem_append.mp hp with hp | hp
        · exact hearlier p hp
        · rcases List.mem_cons.mp hp with rfl | hp
          · exact ih
          · exact hlater p hp
      have hcall := hcallee.derives hargs
      rw [argumentList_append] at hcall
      simpa using hcall

end Parse

end Shading
