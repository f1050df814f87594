import Shading.Parse.File
import Shading.Proofs.Glsl.Calls
import Shading.Proofs.Glsl.Structs
import Shading.Proofs.Glsl.WrittenOut

/-!
# Structs and functions are declared before they are used

The text of a tree declares every struct that its types name and every function once, the
structs at its head. What a struct is made of and what a function calls comes before it,
except on a cycle. These are facts about the row of declarations of the tree, and the text is
their parts in the same order.
-/

namespace Shading

namespace Glsl

open Relation

/-- A function calls another one by its name. -/
def CallsFunction (f g : Signature × List Stmt) : Prop := Calls (Stmt.nodesList f.2) g.1.name

namespace Program

variable {p : Program}

/-- The text declares structs and functions once and before they are used. -/
structure DeclaresBeforeUse (p : Program) : Prop where
  /-- A struct of the tree that some written type names is declared once. -/
  structs : ∀ d ∈ p.declarations, ∀ t ∈ d.writtenTypes p, ∀ n s, t.structName? = some n →
    p.struct? n = some s →
    (p.declarations.filterMap Declaration.struct?).filter (·.name = n) = [s]
  /-- The structs that the fields of a struct name precede it, if they do not reach it. -/
  fields : ∀ s t, .struct s ∈ p.declarations → .struct t ∈ p.declarations → HasField s t →
    ¬ReflTransGen (fun x y => HasField x y ∧ .struct y ∈ p.declarations) t s →
    Precedes p.declarations (.struct t) (.struct s)
  /-- Structs precede all other declarations. -/
  structsFirst : ∀ s d, .struct s ∈ p.declarations → d ∈ p.declarations → d.struct? = none →
    Precedes p.declarations (.struct s) d
  /-- Every function of the text is declared once. -/
  functions : (p.declarations.filterMap Declaration.function?).Perm p.functions
  /-- The functions that a function calls precede it, if they do not call it back. -/
  callees : ∀ f g, .function f ∈ p.declarations → .function g ∈ p.declarations →
    CallsFunction f g →
    ¬ReflTransGen (fun x y => CallsFunction x y ∧ .function y ∈ p.declarations) g f →
    Precedes p.declarations (.function g) (.function f)

/-- All declarations but the structs. -/
def afterStructs (p : Program) : List Declaration :=
  p.externals.map .external ++
    ((locatedVariables p).map (fun v => .interface v.1 v.2.1 v.2.2) ++
      ((globals p).map .global ++ p.orderedFunctions.map .function))

/-- All declarations but the functions. -/
def beforeFunctions (p : Program) : List Declaration :=
  p.orderedStructs.map .struct ++ (p.externals.map .external ++
    ((locatedVariables p).map (fun v => .interface v.1 v.2.1 v.2.2) ++ (globals p).map .global))

theorem declarations_eq_structs (p : Program) :
    p.declarations = p.orderedStructs.map .struct ++ p.afterStructs := rfl

theorem declarations_eq_functions (p : Program) :
    p.declarations = p.beforeFunctions ++ p.orderedFunctions.map .function := by
  simp [declarations, beforeFunctions]

theorem struct_notMem_afterStructs (s : StructDeclaration) : .struct s ∉ p.afterStructs := by
  simp [afterStructs]

theorem function_notMem_beforeFunctions (f : Signature × List Stmt) :
    .function f ∉ p.beforeFunctions := by
  simp [beforeFunctions]

/-- A structure is declared where it is one of those in order. -/
theorem struct_mem_declarations_iff (s : StructDeclaration) :
    .struct s ∈ p.declarations ↔ s ∈ p.orderedStructs := by
  rw [declarations_eq_structs, List.mem_append]
  simp [struct_notMem_afterStructs]

theorem function_mem_declarations_iff (f : Signature × List Stmt) :
    .function f ∈ p.declarations ↔ f ∈ p.orderedFunctions := by
  rw [declarations_eq_functions, List.mem_append]
  simp [function_notMem_beforeFunctions]

/-- The structures among the declarations are those in order. -/
theorem filterMap_struct?_declarations (p : Program) :
    p.declarations.filterMap Declaration.struct? = p.orderedStructs := by
  simp [declarations, List.filterMap_append, List.filterMap_map, Function.comp_def,
    Declaration.struct?]

theorem filterMap_function?_declarations (p : Program) :
    p.declarations.filterMap Declaration.function? = p.orderedFunctions := by
  simp [declarations, List.filterMap_append, List.filterMap_map, Function.comp_def,
    Declaration.function?]

section Used

variable {t : Ty} {n : String}

/-- A type in an item uses its structure. -/
theorem mem_usedStructs_of_node {item : Stmt} (hitem : item ∈ p.items)
    (huses : p.itemStructs item = item.nodes.filterMap namedStruct?)
    (ht : .type t ∈ item.nodes) (hn : t.structName? = some n) : n ∈ p.usedStructs := by
  apply mem_usedStructs_of_item hitem
  rw [huses]
  exact List.mem_filterMap.mpr ⟨.type t, ht, hn⟩

/-- A field of a structure that is written names a structure in use. The lemmas below say the same
of every kind of declaration. -/
theorem mem_usedStructs_of_struct {s : StructDeclaration} (hs : s ∈ p.orderedStructs)
    (ht : t ∈ (Declaration.struct s).writtenTypes p) (hn : t.structName? = some n) :
    n ∈ p.usedStructs := by
  obtain ⟨hused, hstruct⟩ := (mem_orderedStructs_iff s).mp hs
  apply fieldStructs_subset_usedStructs hused
  rw [fieldStructs, hstruct]
  obtain ⟨f, hf, rfl⟩ := List.mem_map.mp ht
  exact List.mem_filterMap.mpr ⟨f, hf, hn⟩

theorem mem_usedStructs_of_external {v : ExternalVariable} (hv : v ∈ p.externals)
    (ht : t ∈ (Declaration.external v).writtenTypes p) (hn : t.structName? = some n) :
    n ∈ p.usedStructs := by
  obtain ⟨item, hitem, hmem⟩ := List.mem_flatMap.mp hv
  cases item with
  | externals b vs =>
      apply mem_usedStructs_of_item hitem
      refine List.mem_flatMap.mpr ⟨v, hmem, ?_⟩
      rw [Declaration.writtenTypes] at ht
      cases hname : v.type.structName? with
      | none =>
          rw [hname, Option.bind_none] at ht
          rw [List.mem_singleton.mp ht, hname] at hn
          cases hn
      | some m =>
          rw [hname, Option.bind_some] at ht
          cases hbody : p.struct? m with
          | none =>
              rw [hbody] at ht
              rw [List.mem_singleton.mp ht, hname] at hn
              cases hn
              simp [hbody]
          | some body =>
              rw [hbody] at ht
              obtain ⟨f, hf, rfl⟩ := List.mem_map.mp ht
              simp only [hbody]
              exact List.mem_filterMap.mpr ⟨f, hf, hn⟩
  | _ => cases hmem

/-- An interface variable that is written names a structure in use. -/
theorem mem_usedStructs_of_interface {v : InterfaceVariable} {location : Nat} {isOutput : Bool}
    (hv : (v, location, isOutput) ∈ locatedVariables p)
    (ht : t ∈ (Declaration.interface v location isOutput).writtenTypes p)
    (hn : t.structName? = some n) : n ∈ p.usedStructs := by
  obtain rfl := List.mem_singleton.mp ht
  obtain ⟨item, hitem, hmem⟩ := List.mem_flatMap.mp hv
  have hentry {vs : List InterfaceVariable} {o : Bool}
      (h : (v, location, isOutput) ∈ locatedVariables.located o vs) : v ∈ vs := by
    obtain ⟨u, hu, hsome⟩ := List.mem_filterMap.mp h
    obtain ⟨k, _, heq⟩ := Option.map_eq_some_iff.mp hsome
    cases heq
    exact hu
  cases item with
  | inputs b vs | outputs b vs =>
      apply mem_usedStructs_of_node hitem rfl _ hn
      rw [Stmt.nodes]
      exact List.mem_cons_of_mem _ (List.mem_map.mpr ⟨v, hentry hmem, rfl⟩)
  | _ => cases hmem

theorem mem_usedStructs_of_global {g : Global} (hg : g ∈ globals p)
    (ht : t ∈ (Declaration.global g).writtenTypes p) (hn : t.structName? = some n) :
    n ∈ p.usedStructs := by
  obtain ⟨item, hitem, hmem⟩ := List.mem_flatMap.mp hg
  cases item with
  | consts b cs =>
      obtain ⟨c, hc, rfl⟩ := List.mem_map.mp hmem
      apply mem_usedStructs_of_node hitem rfl _ hn
      rw [Stmt.nodes]
      apply List.mem_cons_of_mem
      refine List.mem_flatMap.mpr ⟨c, hc, ?_⟩
      rcases List.mem_cons.mp ht with rfl | ht
      · exact List.mem_cons_self
      · exact List.mem_cons_of_mem _ (Expr.type_mem_nodes c.value ht)
  | var b v =>
      obtain rfl := List.mem_singleton.mp hmem
      apply mem_usedStructs_of_node hitem rfl _ hn
      apply Stmt.type_mem_nodes
      exact ht
  | _ => cases hmem

/-- A function that is written names structures in use, in its signature and its body. -/
theorem mem_usedStructs_of_function {f : Signature × List Stmt} (hf : f ∈ p.functions)
    (ht : t ∈ (Declaration.function f).writtenTypes p) (hn : t.structName? = some n) :
    n ∈ p.usedStructs := by
  obtain ⟨item, hitem, hmem⟩ := List.mem_filterMap.mp hf
  cases item with
  | function b g body =>
      dsimp only at hmem
      split at hmem
      · rename_i hemits
        cases hmem
        apply mem_usedStructs_of_node hitem _ _ hn
        · rw [itemStructs, if_pos hemits]
        · rw [Stmt.nodes]
          apply List.mem_cons_of_mem
          apply List.mem_cons_of_mem
          simp only [Declaration.writtenTypes, List.mem_append, List.mem_map,
            List.mem_singleton] at ht
          rw [List.mem_append, List.mem_cons]
          rcases ht with (⟨q, hq, rfl⟩ | rfl) | hbody
          · exact .inl (List.mem_map.mpr ⟨q, hq, rfl⟩)
          · exact .inr (.inl rfl)
          · exact .inr (.inr (Stmt.type_mem_nodesList body hbody))
      · cases hmem
  | _ => cases hmem

/-- The struct that a written type names is used. -/
theorem mem_usedStructs_of_writtenTypes {d : Declaration} (hd : d ∈ p.declarations)
    (ht : t ∈ d.writtenTypes p) (hn : t.structName? = some n) : n ∈ p.usedStructs := by
  simp only [declarations, List.mem_append, List.mem_map] at hd
  rcases hd with ⟨s, hs, rfl⟩ | ⟨v, hv, rfl⟩ | ⟨v, hv, rfl⟩ | ⟨g, hg, rfl⟩ | ⟨f, hf, rfl⟩
  · exact mem_usedStructs_of_struct hs ht hn
  · exact mem_usedStructs_of_external hv ht hn
  · exact mem_usedStructs_of_interface hv ht hn
  · exact mem_usedStructs_of_global hg ht hn
  · exact mem_usedStructs_of_function (p.orderedFunctions_perm.mem_iff.mp hf) ht hn

end Used

/-- The positions that are called are those of the functions that the body calls. -/
theorem mem_calledPositions_iff {functions : List (Signature × List Stmt)} {body : List Stmt}
    {j : Nat} : j ∈ calledPositions functions body ↔
      ∃ g, functions[j]? = some g ∧ Calls (Stmt.nodesList body) g.1.name := by
  have hcalls (n : String) : n ∈ (Stmt.nodesList body).filterMap calledFunction? ↔
      Calls (Stmt.nodesList body) n := by
    rw [List.mem_filterMap]
    constructor
    · rintro ⟨node, hnode, hname⟩
      cases node with
      | expr e =>
          cases e with
          | call span m args =>
              cases hname
              exact ⟨span, args, hnode⟩
          | _ => cases hname
      | _ => cases hname
    · rintro ⟨span, args, hnode⟩
      exact ⟨_, hnode, rfl⟩
  simp only [calledPositions, List.mem_flatMap, mem_firstUses, hcalls, List.mem_filterMap]
  constructor
  · rintro ⟨n, hn, ⟨g, i⟩, hg, hi⟩
    dsimp only at hi
    split at hi
    · rename_i hname
      cases hi
      exact ⟨g, List.mem_zipIdx_iff_getElem?.mp hg, hname ▸ hn⟩
    · cases hi
  · rintro ⟨g, hg, hn⟩
    exact ⟨g.1.name, hn, (g, j), List.mem_zipIdx_iff_getElem?.mpr hg, if_pos rfl⟩

/-- The functions that a function calls come before it, unless they call it back. -/
theorem precedes_orderedFunctions {f g : Signature × List Stmt} (hf : f ∈ p.orderedFunctions)
    (hg : g ∈ p.orderedFunctions) (hcalls : CallsFunction f g)
    (hback : ¬ReflTransGen (fun x y => CallsFunction x y ∧ y ∈ p.orderedFunctions) g f) :
    Precedes p.orderedFunctions g f := by
  simp only [p.orderedFunctions_perm.mem_iff] at hf hg hback
  refine precedes_ordered (fun i j a hi => ?_) hf hg hcalls hback
  rw [Depends, hi, mem_calledPositions_iff]
  constructor
  · exact fun h => h.1
  · rintro ⟨b, hb, hcall⟩
    exact ⟨⟨b, hb, hcall⟩, (List.getElem?_eq_some_iff.mp hb).1⟩

/-- Every program declares its structures and functions before their use. -/
theorem declaresBeforeUse (p : Program) : p.DeclaresBeforeUse := by
  constructor
  · intro d hd t ht n s hn hs
    rw [filterMap_struct?_declarations]
    exact filter_orderedStructs (mem_usedStructs_of_writtenTypes hd ht hn) hs
  · intro s t hs ht hfield hback
    simp only [struct_mem_declarations_iff] at hs ht hback
    have h : Precedes (p.orderedStructs.map Declaration.struct) (.struct t) (.struct s) :=
      (precedes_orderedStructs hs ht hfield hback).map fun _ _ heq => Declaration.struct.inj heq
    simpa [declarations_eq_structs] using
      h.append List.not_mem_nil (struct_notMem_afterStructs t)
  · intro s d hs hd hnone
    rw [declarations_eq_structs]
    apply Precedes.of_append
    · exact List.mem_map_of_mem ((struct_mem_declarations_iff s).mp hs)
    · exact struct_notMem_afterStructs s
    · intro hmem
      obtain ⟨t, _, rfl⟩ := List.mem_map.mp hmem
      cases hnone
  · rw [filterMap_function?_declarations]
    exact p.orderedFunctions_perm
  · intro f g hf hg hcalls hback
    simp only [function_mem_declarations_iff] at hf hg hback
    have h : Precedes (p.orderedFunctions.map Declaration.function) (.function g) (.function f) :=
      (precedes_orderedFunctions hf hg hcalls hback).map fun _ _ heq =>
        Declaration.function.inj heq
    simpa [declarations_eq_functions] using
      h.append (function_notMem_beforeFunctions f) List.not_mem_nil

end Program

/-- A text is the row of declarations of its program: after the header there is one part for
each of them, in their order. Structs and functions are declared once in this row and before
they are used. -/
theorem render_declaresBeforeUse {s : Settings} {tree : Stmt} {text : String}
    (hr : render s tree = .ok text) :
    ∃ p out, program s tree = .ok p ∧
      p.declarations.foldlM (writeDeclaration p) (Progress.start p) = .ok out ∧
      text = out.writer.text ∧ p.WrittenOut text ∧ p.DeclaresBeforeUse := by
  obtain ⟨p, hp, htext⟩ := Except.bind_eq_ok_iff.mp hr
  rw [text_eq_declarations] at htext
  obtain ⟨out, hout, htext⟩ := Except.bind_eq_ok_iff.mp htext
  cases htext
  have hchecked : p.Checked := (program_of_ok hp).2.2
  exact ⟨p, out, hp, hout, rfl, hchecked.writtenOut hout, p.declaresBeforeUse⟩

/-- `struct Outer { inner: Inner; } struct Inner { x: float; }`
`[entry(fragment)] void fs() { Outer o; helper(); } void helper() { }` -/
def nestedTokens : List Token :=
  [.keyword .struct, .ident "Outer", .symbol .lbrace, .ident "inner", .symbol .colon,
    .ident "Inner", .symbol .semicolon, .symbol .rbrace, .keyword .struct, .ident "Inner",
    .symbol .lbrace, .ident "x", .symbol .colon, .ident "float", .symbol .semicolon,
    .symbol .rbrace, .symbol .lbracket, .ident "entry", .symbol .lparen, .ident "fragment",
    .symbol .rparen, .symbol .rbracket, .ident "void", .ident "fs", .symbol .lparen,
    .symbol .rparen, .symbol .lbrace, .ident "Outer", .ident "o", .symbol .semicolon,
    .ident "helper", .symbol .lparen, .symbol .rparen, .symbol .semicolon, .symbol .rbrace,
    .ident "void", .ident "helper", .symbol .lparen, .symbol .rparen, .symbol .lbrace,
    .symbol .rbrace, .eof].map fun k => ⟨k, Span.dummy, Position.nowhere⟩

/-- The struct of a field and the function that is called are declared first. -/
theorem nested_declaresBeforeUse :
    ∃ tree text p, parseTokens nestedTokens Registry.standard = .ok tree ∧
      render Settings.desktop tree = .ok text ∧ program Settings.desktop tree = .ok p ∧
      p.orderedStructs.map (·.name) = ["Inner", "Outer"] ∧
      p.orderedFunctions.map (·.1.name) = ["helper", "fs"] ∧ p.WrittenOut text ∧
      p.DeclaresBeforeUse := by
  obtain ⟨tree, text, p, hparse, hr, hp, hstructs, hfunctions⟩ :
      ∃ tree text p, parseTokens nestedTokens Registry.standard = .ok tree ∧
        render Settings.desktop tree = .ok text ∧ program Settings.desktop tree = .ok p ∧
        p.orderedStructs.map (·.name) = ["Inner", "Outer"] ∧
        p.orderedFunctions.map (·.1.name) = ["helper", "fs"] :=
    ⟨_, _, _, rfl, rfl, rfl, rfl, rfl⟩
  obtain ⟨p', _, hp', _, _, hwritten, hdeclares⟩ := render_declaresBeforeUse hr
  cases hp.symm.trans hp'
  exact ⟨tree, text, p, hparse, hr, hp, hstructs, hfunctions, hwritten, hdeclares⟩

end Glsl

end Shading
