import Shading.Proofs.Parse.Marks
import Shading.Proofs.Print.Kinds

/-!
# Types under their own names

The default dialect knows every type that it reads also under the name that the type is
printed with.
-/

namespace Shading

open Lexer (isName)

namespace Ty

/-- A type with array dimensions around it, the first one outermost. -/
def arrayOf (dims : List ArraySize) (t : Ty) : Ty := dims.foldr (fun size t => .array t size) t

theorem baseName_arrayOf (dims : List ArraySize) (t : Ty) :
    (arrayOf dims t).baseName = t.baseName := by
  induction dims with
  | nil => rfl
  | cons d ds ih => exact ih

theorem base_arrayOf (dims : List ArraySize) (t : Ty) : (arrayOf dims t).base = t.base := by
  induction dims with
  | nil => rfl
  | cons d ds ih => exact ih

theorem dims_arrayOf (dims : List ArraySize) (t : Ty) :
    (arrayOf dims t).dims = dims ++ t.dims := by
  induction dims with
  | nil => rfl
  | cons d ds ih => exact congrArg (d :: ·) ih

theorem arrayOf_dims_base (t : Ty) : arrayOf t.dims t.base = t := by
  induction t with
  | array element size ih => exact congrArg (array · size) ih
  | _ => rfl

theorem dims_of_base_eq {t : Ty} (h : t.base = t) : t.dims = [] := by
  rw [← h, dims_base]

/-- The names read the type under the name that it is printed with, and its sizes are
array sizes. -/
structure Legible (names : Names) (t : Ty) : Prop where
  name : isName t.baseName = true
  type : names.type? t.baseName = some t.base
  sizes : ∀ n, .fixed n ∈ t.dims → n < Parse.arraySizeBound

end Ty

namespace Registry

theorem mem_of_lookup {α : Type} {name : String} {a : α} {l : List (String × α)}
    (h : l.lookup name = some a) : (name, a) ∈ l := by
  obtain ⟨before, after, rfl, _⟩ := List.lookup_eq_some_iff.mp h
  simp

/-- A built-in function of the default dialect is called by its own name. -/
theorem name_of_standard_function? {name : String} {f : BuiltinFunction}
    (h : standard.function? name = some f) : name = f.name := by
  have hmem := mem_of_lookup h
  simp only [standard, List.mem_map, Prod.mk.injEq] at hmem
  obtain ⟨g, -, hname, rfl⟩ := hmem
  exact hname.symm

/-- A type of the default dialect is no array and is known under the name it is printed with. -/
theorem standard_type? {name : String} {t : Ty} (h : standard.type? name = some t) :
    isName t.baseName = true ∧ standard.type? t.baseName = some t ∧ t.base = t := by
  have hall : ∀ p ∈ standard.types, isName p.2.baseName = true ∧
      standard.type? p.2.baseName = some p.2 ∧ p.2.base = p.2 := by
    decide +kernel
  exact hall _ (mem_of_lookup h)

end Registry

namespace Names

variable {names : Names}

/-- A type name that is read gives a type that is known under the name it is printed with. -/
theorem type?_baseName (hnames : names.registry = Registry.standard) {name : String} {base : Ty}
    (hname : isName name = true) (h : names.type? name = some base) :
    isName base.baseName = true ∧ names.type? base.baseName = some base ∧ base.base = base := by
  unfold type? at h
  split at h
  · rename_i t ht
    obtain rfl := Option.some.inj h
    rw [hnames] at ht
    obtain ⟨hword, hself, hbase⟩ := Registry.standard_type? ht
    refine ⟨hword, ?_, hbase⟩
    simp only [type?, hnames, hself]
  · rename_i hnone
    split at h
    · rename_i hstruct
      obtain rfl := Option.some.inj h
      refine ⟨hname, ?_, rfl⟩
      simp only [type?, Ty.baseName, hnone, hstruct, if_true]
    · cases h

end Names

namespace Parse

variable {names : Names}

theorem sizes_of_brackets {ks : List Kind} {dims : List ArraySize} (h : Brackets ks dims) :
    (∀ k ∈ ks, isPlain k = true) ∧ ∀ n, .fixed n ∈ dims → n < arraySizeBound := by
  induction h with
  | nil => exact ⟨by simp, by simp⟩
  | implicit h ih =>
      refine ⟨?_, ?_⟩
      · intro k hk
        simp only [List.mem_cons] at hk
        rcases hk with rfl | rfl | hk
        · rfl
        · rfl
        · exact ih.1 k hk
      · intro n hn
        exact ih.2 n (by simpa using hn)
  | @fixed k m ks dims hk h ih =>
      have hsize : isPlain k = true ∧ m < arraySizeBound := by
        cases k with
        | int i =>
            simp only [arraySize?] at hk
            split at hk
            · obtain rfl := Option.some.inj hk
              exact ⟨rfl, ‹_›⟩
            · cases hk
        | uint u =>
            obtain rfl := Option.some.inj hk
            exact ⟨rfl, u.toNat_lt⟩
        | float _ | ident _ | keyword _ | symbol _ | eof => cases hk
      refine ⟨?_, ?_⟩
      · intro l hl
        simp only [List.mem_cons] at hl
        rcases hl with rfl | rfl | rfl | hl
        · rfl
        · exact hsize.1
        · rfl
        · exact ih.1 l hl
      · intro n hn
        rcases List.mem_cons.mp hn with hn | hn
        · cases hn
          exact hsize.2
        · exact ih.2 n hn

theorem brackets_of_sizes {dims : List ArraySize}
    (h : ∀ n, .fixed n ∈ dims → n < arraySizeBound) :
    Brackets (dims.flatMap ArraySize.kinds) dims := by
  induction dims with
  | nil => exact .nil
  | cons d ds ih =>
      have htail := ih fun n hn => h n (List.mem_cons_of_mem _ hn)
      cases d with
      | implicit => exact .implicit htail
      | fixed n => exact .fixed (by simp [arraySize?, h n (by simp)]) htail

/-- A type that is read is known under the name it is printed with. -/
theorem legible_arrayOf (hnames : names.registry = Registry.standard) {name : String} {base : Ty}
    {bs : List Kind} {dims : List ArraySize} (hname : isName name = true)
    (htype : names.type? name = some base) (hdims : Brackets bs dims) :
    (Ty.arrayOf dims base).Legible names := by
  obtain ⟨hword, hself, hbase⟩ := Names.type?_baseName hnames hname htype
  refine ⟨?_, ?_, ?_⟩
  · rwa [Ty.baseName_arrayOf]
  · rw [Ty.baseName_arrayOf, Ty.base_arrayOf, hbase]
    exact hself
  · rw [Ty.dims_arrayOf, Ty.dims_of_base_eq hbase, List.append_nil]
    exact (sizes_of_brackets hdims).2

end Parse

namespace Ty

variable {t : Ty}

theorem isPlain_kinds (t : Ty) : ∀ k ∈ t.kinds, Parse.isPlain k = true := by
  intro k hk
  simp only [kinds, List.mem_cons, List.mem_flatMap] at hk
  rcases hk with rfl | ⟨d, -, hd⟩
  · rfl
  · cases d <;> simp only [ArraySize.kinds, List.mem_cons, List.not_mem_nil, or_false] at hd <;>
      rcases hd with rfl | rfl | rfl <;> rfl

theorem Legible.writable {names : Names} (h : t.Legible names) : Kind.Writable t.kinds := by
  intro k hk
  simp only [kinds, List.mem_cons, List.mem_flatMap] at hk
  rcases hk with rfl | ⟨d, -, hd⟩
  · exact h.name
  · cases d <;> simp only [ArraySize.kinds, List.mem_cons, List.not_mem_nil, or_false] at hd <;>
      rcases hd with rfl | rfl | rfl <;> trivial

end Ty

end Shading
