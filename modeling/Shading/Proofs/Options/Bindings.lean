import Mathlib.Data.List.Sort
import Shading.Parse.File
import Shading.Proofs.Options.Mentions

/-!
# Where option values come from

Bound values and declared defaults reach a permutation as the values of its names only. So a
default is as good as the same value bound by hand, and a bound value that fits makes no
difference to a tree that does not mention its option.

The order in which bound values are visited shows in one place: where several of them do not
fit, it decides which one is reported. A default that is bound by hand can change that order,
because the table grows.
-/

namespace Shading

namespace VisitOrder

/-- The number of slots of a table: four for up to three entries, eight for up to seven, and
then a power of two that leaves an eighth of the slots free. -/
def slots (entries : Nat) : Nat :=
  if entries < 4 then 4 else if entries < 8 then 8 else (entries * 8 / 7).nextPowerOfTwo

/-- The first of two entries is in an earlier slot, or both are in one. -/
abbrev SlotLe (slot : String → Nat) (x y : String × Constant) : Prop := slot x.1 ≤ slot y.1

/-- Inserting a binding by its slot shadows what an earlier binding of that name gave. -/
theorem lookup_orderedInsert (slot : String → Nat) (x : String × Constant)
    (bound : List (String × Constant)) (name : String) :
    (bound.orderedInsert (SlotLe slot) x).lookup name = (x :: bound).lookup name := by
  induction bound with
  | nil => rfl
  | cons y bound ih =>
      rw [List.orderedInsert_cons]
      split
      · rfl
      · next hslot =>
        rw [List.lookup_cons, ih, List.lookup_cons, List.lookup_cons, List.lookup_cons]
        cases hy : name == y.1 with
        | false => rfl
        | true =>
            -- An entry of the same name is in the same slot, so `x` has another one.
            have hx : (name == x.1) = false := by
              apply beq_false_of_ne
              intro heq
              have hname : x.1 = y.1 := heq.symm.trans (eq_of_beq hy)
              exact hslot (Nat.le_of_eq (congrArg slot hname))
            rw [hx]

/-- The order in which a map visits its bindings does not change what a name is bound to. -/
theorem lookup_insertionSort (slot : String → Nat) (bound : List (String × Constant))
    (name : String) : (bound.insertionSort (SlotLe slot)).lookup name = bound.lookup name := by
  induction bound with
  | nil => rfl
  | cons x bound ih =>
      rw [List.insertionSort_cons, lookup_orderedInsert, List.lookup_cons, List.lookup_cons, ih]

/-- A table is visited from its first slot to its last one. Every name has the slot of its hash,
and as the table grows, the slots that names have in it change. -/
def hashed (hash : String → Nat) : VisitOrder where
  arrange bound := bound.insertionSort (SlotLe fun name => hash name % slots bound.length)
  perm bound := List.perm_insertionSort _ bound
  lookup_arrange bound name := lookup_insertionSort _ bound name

end VisitOrder

namespace Permutation

variable {declared : List OptionDeclaration}

/-- The value of the default that an option has by its first declaration. -/
def default? (declared : List OptionDeclaration) (name : String) : Option Constant :=
  match declaration? declared name with
  | some d => d.default.bind fun e => (e.evaluate noOptions).toOption
  | none => none

/-- The defaults of all first declarations have values, and these have the declared types. -/
def DefaultsFit (declared : List OptionDeclaration) : Prop :=
  ∀ n d e, declaration? declared n = some d → d.default = some e →
    ∃ v w, e.evaluate noOptions = .ok v ∧ d.coerce v = .ok w

/-- The value does not fit the declaration of its option. -/
def Refused (declared : List OptionDeclaration) (x : String × Constant) : Prop :=
  ∃ fault, coerceBinding declared x = .error fault

/-- A binding is coerced where its value fits the declaration of its name, or there is none. -/
theorem exists_coerceBinding {x : String × Constant}
    (h : ∀ d, declaration? declared x.1 = some d → ∃ w, d.coerce x.2 = .ok w) :
    ∃ y, coerceBinding declared x = .ok y := by
  unfold coerceBinding
  cases hd : declaration? declared x.1 with
  | none => exact ⟨x, rfl⟩
  | some d =>
      obtain ⟨w, hw⟩ := h d hd
      dsimp only
      rw [hw]
      exact ⟨(x.1, w), rfl⟩

/-- A default comes from the declaration of its name and is evaluated without options. -/
theorem default?_eq_some {n : String} {v : Constant} (h : default? declared n = some v) :
    ∃ d e, declaration? declared n = some d ∧ d.default = some e ∧
      e.evaluate noOptions = .ok v := by
  unfold default? at h
  split at h
  · next d hd =>
    obtain ⟨e, he, hvalue⟩ := Option.bind_eq_some_iff.mp h
    refine ⟨d, e, hd, he, ?_⟩
    cases hresult : e.evaluate noOptions with
    | error _ =>
        rw [hresult] at hvalue
        cases hvalue
    | ok w =>
        rw [hresult] at hvalue
        cases hvalue
        rfl
  · cases h

theorem defaultsFit_of_forall
    (h : ∀ d ∈ declared, ∀ e, d.default = some e →
      ∃ v w, e.evaluate noOptions = .ok v ∧ d.coerce v = .ok w) : DefaultsFit declared :=
  fun _ d e hd he => h d (List.mem_of_find?_eq_some hd) e he

/-- Where the defaults fit, a binding to the default is coerced. -/
theorem DefaultsFit.coerceBinding (hfit : DefaultsFit declared) {x : String × Constant}
    (hx : default? declared x.1 = some x.2) : ∃ y, coerceBinding declared x = .ok y := by
  obtain ⟨d, e, hd, he, hv⟩ := default?_eq_some hx
  refine exists_coerceBinding fun d' hd' => ?_
  obtain rfl : d = d' := Option.some.inj (hd.symm.trans hd')
  obtain ⟨v, w, hv', hw⟩ := hfit _ d e hd he
  obtain rfl : x.2 = v := Except.ok.inj (hv.symm.trans hv')
  exact ⟨w, hw⟩

/-- A name without a bound value has its default, as the declaration has it. -/
theorem value?_of_unbound {p : Permutation} (hfit : DefaultsFit p.declared)
    (hdefaults : p.config.useDefaults = true) {n : String} (hn : p.bound.lookup n = none) :
    p.value? n = (default? p.declared n).mapM fun v =>
      Prod.snd <$> Permutation.coerceBinding p.declared (n, v) := by
  unfold value? default? Permutation.coerceBinding
  rw [hn]
  dsimp only
  rw [if_pos hdefaults]
  cases hd : declaration? p.declared n with
  | none => rfl
  | some d =>
      dsimp only
      cases he : d.default with
      | none => rfl
      | some e =>
          obtain ⟨v, w, hv, hw⟩ := hfit n d e hd he
          rw [Option.bind_some, hv, Except.toOption, Option.mapM_some]
          dsimp only
          rw [hv, Except.ok_bind, hw]
          rfl

end Permutation

namespace Specializer

open Permutation

variable {s : Specializer} {declared : List OptionDeclaration}

/-- The same bindings, with or without the use of declared defaults. -/
def withDefaults (s : Specializer) (used : Bool) : Specializer :=
  { s with config := { s.config with useDefaults := used } }

/-- The same bindings, visited in another order. -/
def inOrder (s : Specializer) (order : VisitOrder) : Specializer := { s with order := order }

/-- Binds an option to its default, if it has one and no value is bound. -/
def bindDefault (declared : List OptionDeclaration) (s : Specializer) (d : OptionDeclaration) :
    Specializer :=
  match s.value? d.name, default? declared d.name with
  | none, some v => s.set d.name v
  | _, _ => s

/-- Every option of a tree that has a default and no bound value is bound to its default. -/
def bindDefaults (s : Specializer) (tree : Stmt) : Specializer :=
  tree.declaredOptions.foldl (bindDefault tree.declaredOptions) s

/-- All bound values have the types that the tree declares for them. -/
def Fits (s : Specializer) (tree : Stmt) : Prop :=
  ∀ x ∈ s.bound, ∀ d, declaration? tree.declaredOptions x.1 = some d →
    ∃ w, d.coerce x.2 = .ok w

section Defaults

/-- A fresh binding is put before the others. -/
theorem bound_set {n : String} (hn : s.value? n = none) (v : Constant) :
    (s.set n v).bound = (n, v) :: s.bound := by
  have hother : ∀ x ∈ s.bound, x.1 ≠ n := by
    intro x hx heq
    have hne := List.lookup_eq_none_iff.mp hn x hx
    simp [heq] at hne
  simp only [set, List.cons.injEq, true_and]
  exact List.filter_eq_self.mpr fun x hx => by simpa using hother x hx

theorem value?_set {n : String} (hn : s.value? n = none) (v : Constant) (m : String) :
    (s.set n v).value? m = if m = n then some v else s.value? m := by
  rw [value?, bound_set hn, List.lookup_cons]
  by_cases h : m = n
  · rw [if_pos h, h]
    simp
  · rw [if_neg h, beq_false_of_ne h]
    rfl

/-- A declaration adds the default of its name, or the specializer stays as it is because there
is nothing to add. -/
theorem bindDefault_cases (s : Specializer) (declared : List OptionDeclaration)
    (d : OptionDeclaration) :
    s.bindDefault declared d = s ∧ (s.value? d.name).or (default? declared d.name) =
        s.value? d.name ∨
      ∃ v, s.value? d.name = none ∧ default? declared d.name = some v ∧
        s.bindDefault declared d = s.set d.name v := by
  unfold bindDefault
  split
  · next v hn hv => exact .inr ⟨v, hn, hv, rfl⟩
  · next hcases =>
    refine .inl ⟨rfl, ?_⟩
    cases hn : s.value? d.name with
    | some w => rfl
    | none =>
        cases hv : default? declared d.name with
        | none => rfl
        | some v => exact absurd hv (hcases v hn)

/-- Binding a default changes an unbound option to its default, and nothing else. -/
theorem value?_bindDefault (d : OptionDeclaration) (n : String) :
    (s.bindDefault declared d).value? n =
      if n = d.name then (s.value? n).or (default? declared n) else s.value? n := by
  rcases bindDefault_cases s declared d with ⟨hsame, hor⟩ | ⟨v, hn, hv, hset⟩
  · rw [hsame]
    split
    · next heq => rw [heq, hor]
    · rfl
  · rw [hset, value?_set hn]
    split
    · next heq => rw [heq, hn, hv]; rfl
    · rfl

/-- A list of declarations adds the defaults of its names, each as the first declaration of the
tree has it. -/
theorem value?_foldl (ds : List OptionDeclaration) (n : String) :
    (ds.foldl (bindDefault declared) s).value? n =
      if n ∈ ds.map (·.name) then (s.value? n).or (default? declared n) else s.value? n := by
  induction ds generalizing s with
  | nil => rfl
  | cons d rest ih =>
      rw [List.foldl_cons, ih, value?_bindDefault]
      by_cases hd : n = d.name
      · simp [hd, Option.or_assoc]
      · simp [hd]

/-- Defaults stand in for missing values only. -/
theorem value?_bindDefaults (tree : Stmt) (n : String) :
    (s.bindDefaults tree).value? n = (s.value? n).or (default? tree.declaredOptions n) := by
  rw [bindDefaults, value?_foldl]
  split
  · rfl
  · next hn =>
    cases hv : default? tree.declaredOptions n with
    | none => rw [Option.or_none]
    | some v =>
        obtain ⟨d, e, hd, -, -⟩ := default?_eq_some hv
        have hname : d.name = n := by simpa using List.find?_some hd
        exact absurd (List.mem_map.mpr ⟨d, List.mem_of_find?_eq_some hd, hname⟩) hn

/-- Binding the defaults puts bindings of defaults before those that were there. -/
theorem bound_foldl (s : Specializer) (declared ds : List OptionDeclaration) :
    ∃ added, (ds.foldl (bindDefault declared) s).bound = added ++ s.bound ∧
      ∀ x ∈ added, default? declared x.1 = some x.2 := by
  induction ds generalizing s with
  | nil => exact ⟨[], rfl, by simp⟩
  | cons d rest ih =>
      rw [List.foldl_cons]
      obtain ⟨added, hadded, hdefault⟩ := ih (s.bindDefault declared d)
      rcases bindDefault_cases s declared d with ⟨hsame, -⟩ | ⟨v, hn, hv, hset⟩
      · rw [hsame] at hadded
        rw [hsame]
        exact ⟨added, hadded, hdefault⟩
      · -- The later declarations put their defaults in front of this one.
        rw [hset, bound_set hn] at hadded
        refine ⟨added ++ [(d.name, v)], ?_, fun x hx => ?_⟩
        · rw [hset, hadded, List.append_assoc]
          rfl
        · rcases List.mem_append.mp hx with hx | hx
          · exact hdefault x hx
          · rw [List.mem_singleton.mp hx]
            exact hv

/-- Binding defaults leaves the configuration alone. -/
theorem config_foldl (ds : List OptionDeclaration) :
    (ds.foldl (bindDefault declared) s).config = s.config := by
  induction ds generalizing s with
  | nil => rfl
  | cons d rest ih =>
      rw [List.foldl_cons, ih]
      rcases bindDefault_cases s declared d with ⟨hsame, -⟩ | ⟨v, -, -, hset⟩
      · rw [hsame]
      · rw [hset]
        rfl

end Defaults

section Process

/-- There is a permutation if no bound value is refused. Otherwise the error is that of a value
that is. -/
theorem of_cases (s : Specializer) (tree : Stmt) :
    (∃ p, Permutation.of s tree = .ok p) ∧ (∀ x ∈ s.bound, ¬Refused tree.declaredOptions x) ∨
      ∃ x ∈ s.bound, ∃ fault, coerceBinding tree.declaredOptions x = .error fault ∧
        Permutation.of s tree = .error fault := by
  unfold Permutation.of
  dsimp only
  cases hbound : (s.order.arrange s.bound).mapM (coerceBinding tree.declaredOptions) with
  | error fault =>
      obtain ⟨x, hx, hfault⟩ := Except.exists_of_mapM_error hbound
      exact .inr ⟨x, VisitOrder.mem_arrange.mp hx, fault, hfault, rfl⟩
  | ok bound =>
      refine .inl ⟨⟨_, rfl⟩, fun x hx ⟨fault, hfault⟩ => ?_⟩
      obtain ⟨y, hy⟩ := Except.exists_of_mapM_ok hbound (VisitOrder.mem_arrange.mpr hx)
      rw [hfault] at hy
      cases hy

/-- A permutation takes its configuration from the specializer. -/
theorem config_of {tree : Stmt} {p : Permutation} (hp : Permutation.of s tree = .ok p) :
    p.config = s.config := by
  obtain ⟨_, _, hp⟩ := Except.bind_eq_ok_iff.mp hp
  cases hp
  rfl

/-- Bindings that fit their declarations make a permutation. -/
theorem Fits.of {tree : Stmt} (h : s.Fits tree) : ∃ p, Permutation.of s tree = .ok p := by
  rcases s.of_cases tree with ⟨hp, -⟩ | ⟨x, hx, fault, hfault, -⟩
  · exact hp
  · obtain ⟨y, hy⟩ := exists_coerceBinding (h x hx)
    rw [hfault] at hy
    cases hy

/-- Two specializers whose permutations agree on what the tree mentions give the same result. -/
theorem process_congr {a b : Specializer} {tree : Stmt} {p q : Permutation}
    (hp : Permutation.of a tree = .ok p) (hq : Permutation.of b tree = .ok q)
    (hkeep : a.config.keepOptions = b.config.keepOptions) (h : p.AgreesOn q tree.nodes) :
    a.process tree = b.process tree := by
  rw [← config_of hp, ← config_of hq] at hkeep
  rw [process, process, hp, hq, Except.ok_bind, Except.ok_bind, stmt_congr hkeep tree h]

/-- Binding the defaults adds values that fit, in front of the bound ones. -/
theorem exists_bound_bindDefaults {tree : Stmt} (hfit : DefaultsFit tree.declaredOptions) :
    ∃ added, (s.bindDefaults tree).bound = added ++ s.bound ∧
      ∀ x ∈ added, ∃ y, coerceBinding tree.declaredOptions x = .ok y := by
  obtain ⟨added, hbound, hdefault⟩ := bound_foldl s tree.declaredOptions tree.declaredOptions
  exact ⟨added, hbound, fun x hx => hfit.coerceBinding (hdefault x hx)⟩

/-- A name has its bound value or else its default, if these are used, both as the declaration
has them. -/
theorem value?_of {tree : Stmt} {p : Permutation} (hfit : DefaultsFit tree.declaredOptions)
    (hp : Permutation.of s tree = .ok p) (n : String) :
    p.value? n = ((s.value? n).or
      (if s.config.useDefaults then default? tree.declaredOptions n else none)).mapM fun v =>
        Prod.snd <$> coerceBinding tree.declaredOptions (n, v) := by
  obtain ⟨ys, hys, hp⟩ := Except.bind_eq_ok_iff.mp hp
  cases hp
  have hlookup := lookup_coerced hys n
  rw [VisitOrder.lookup_arrange] at hlookup
  change (s.value? n).mapM _ = _ at hlookup
  cases hv : s.value? n with
  | some v =>
      rw [hv, Option.mapM_some] at hlookup
      rw [Option.some_or, Option.mapM_some]
      cases hcoerced : Prod.snd <$> coerceBinding tree.declaredOptions (n, v) with
      | error _ =>
          rw [hcoerced] at hlookup
          cases hlookup
      | ok w =>
          rw [hcoerced] at hlookup
          have hw : ys.lookup n = some w := (Except.ok.inj hlookup).symm
          simp only [Permutation.value?, hw]
          rfl
  | none =>
      rw [hv] at hlookup
      have hnone : ys.lookup n = none := (Except.ok.inj hlookup).symm
      rw [Option.none_or]
      by_cases hused : s.config.useDefaults = true
      · rw [if_pos hused]
        exact value?_of_unbound hfit hused hnone
      · rw [if_neg hused]
        simp only [Permutation.value?, hnone, if_neg hused]
        rfl

/-- Using defaults gives every name the value that it has with the defaults bound by hand. -/
theorem value?_withDefaults {tree : Stmt} {p q : Permutation} {o o' : VisitOrder}
    (hfit : DefaultsFit tree.declaredOptions)
    (hp : Permutation.of ((s.withDefaults true).inOrder o) tree = .ok p)
    (hq : Permutation.of (((s.bindDefaults tree).withDefaults false).inOrder o') tree = .ok q)
    (n : String) : p.value? n = q.value? n := by
  have hvalue : (((s.bindDefaults tree).withDefaults false).inOrder o').value? n =
      (s.value? n).or (default? tree.declaredOptions n) := value?_bindDefaults tree n
  rw [value?_of hfit hp, value?_of hfit hq, hvalue]
  simp only [withDefaults, inOrder, if_true, Bool.false_eq_true, if_false, Option.or_none]
  rfl

/-- No other value is refused than before the defaults are bound. -/
theorem mem_bindDefaults_iff {tree : Stmt} (hfit : DefaultsFit tree.declaredOptions)
    {x : String × Constant} (hx : Refused tree.declaredOptions x) :
    x ∈ (s.bindDefaults tree).bound ↔ x ∈ s.bound := by
  obtain ⟨added, hbound, hadded⟩ := exists_bound_bindDefaults (s := s) hfit
  rw [hbound, List.mem_append, or_iff_right]
  intro hmem
  obtain ⟨fault, hfault⟩ := hx
  obtain ⟨y, hy⟩ := hadded x hmem
  rw [hfault] at hy
  cases hy

/-- In any two orders, a run that uses the declared defaults and one with every default bound by
hand both have a permutation, and the same results, or each of them reports a bound value that
is refused. -/
theorem process_bindDefaults_cases (s : Specializer) {tree : Stmt}
    (hfit : DefaultsFit tree.declaredOptions) (o o' : VisitOrder) :
    (∀ x ∈ s.bound, ¬Refused tree.declaredOptions x) ∧
        ((s.withDefaults true).inOrder o).process tree =
          (((s.bindDefaults tree).withDefaults false).inOrder o').process tree ∨
      ∃ x ∈ s.bound, ∃ y ∈ s.bound, ∃ fault fault',
        coerceBinding tree.declaredOptions x = .error fault ∧
        coerceBinding tree.declaredOptions y = .error fault' ∧
        ((s.withDefaults true).inOrder o).process tree = .error fault ∧
        (((s.bindDefaults tree).withDefaults false).inOrder o').process tree = .error fault' := by
  rcases of_cases ((s.withDefaults true).inOrder o) tree with
    ⟨⟨p, hp⟩, hfits⟩ | ⟨x, hx, fault, hfault, hp⟩
  · rcases of_cases (((s.bindDefaults tree).withDefaults false).inOrder o') tree with
      ⟨⟨q, hq⟩, -⟩ | ⟨y, hy, fault', hfault', -⟩
    · have hkeep : ((s.withDefaults true).inOrder o).config.keepOptions =
          (((s.bindDefaults tree).withDefaults false).inOrder o').config.keepOptions := by
        rw [inOrder, inOrder, withDefaults, withDefaults, bindDefaults, config_foldl]
      exact .inl ⟨hfits, process_congr hp hq hkeep fun n _ => value?_withDefaults hfit hp hq n⟩
    · -- A value that is refused was bound before the defaults were.
      have hrefused : Refused tree.declaredOptions y := ⟨fault', hfault'⟩
      have hmem : y ∈ s.bound := (mem_bindDefaults_iff hfit hrefused).mp hy
      exact absurd hrefused (hfits y hmem)
  · rcases of_cases (((s.bindDefaults tree).withDefaults false).inOrder o') tree with
      ⟨-, hfits⟩ | ⟨y, hy, fault', hfault', hq⟩
    · have hrefused : Refused tree.declaredOptions x := ⟨fault, hfault⟩
      have hmem : x ∈ (s.bindDefaults tree).bound := (mem_bindDefaults_iff hfit hrefused).mpr hx
      exact absurd hrefused (hfits x hmem)
    · have hmem : y ∈ s.bound := (mem_bindDefaults_iff hfit ⟨fault', hfault'⟩).mp hy
      refine .inr ⟨x, hx, y, hmem, fault, fault', hfault, hfault', ?_, ?_⟩
      · rw [process, hp, Except.error_bind]
      · rw [process, hq, Except.error_bind]

/-- Using the declared defaults is the same as binding every option without a value to its
default, in whatever orders the two runs visit their values. They give the same permutation or
both fail. The error is the same too if at most one bound value is refused; otherwise each run
reports one of those that are, which the defaults are not among. -/
theorem process_bindDefaults (s : Specializer) (tree : Stmt)
    (hfit : DefaultsFit tree.declaredOptions) (o o' : VisitOrder) :
    (∀ out, ((s.withDefaults true).inOrder o).process tree = .ok out ↔
      (((s.bindDefaults tree).withDefaults false).inOrder o').process tree = .ok out) ∧
    ((∀ x ∈ s.bound, ∀ y ∈ s.bound, Refused tree.declaredOptions x →
        Refused tree.declaredOptions y → x = y) →
      ((s.withDefaults true).inOrder o).process tree =
        (((s.bindDefaults tree).withDefaults false).inOrder o').process tree) ∧
    ((∃ x ∈ s.bound, Refused tree.declaredOptions x) →
      ∃ x ∈ s.bound, ∃ y ∈ s.bound, ∃ fault fault',
        coerceBinding tree.declaredOptions x = .error fault ∧
        coerceBinding tree.declaredOptions y = .error fault' ∧
        ((s.withDefaults true).inOrder o).process tree = .error fault ∧
        (((s.bindDefaults tree).withDefaults false).inOrder o').process tree = .error fault') ∧
    ∀ x, Refused tree.declaredOptions x → (x ∈ (s.bindDefaults tree).bound ↔ x ∈ s.bound) := by
  have hmem : ∀ x, Refused tree.declaredOptions x →
      (x ∈ (s.bindDefaults tree).bound ↔ x ∈ s.bound) := fun x hx => mem_bindDefaults_iff hfit hx
  rcases s.process_bindDefaults_cases hfit o o' with ⟨hfits, hsame⟩ | hfail
  · refine ⟨fun out => by rw [hsame], fun _ => hsame, ?_, hmem⟩
    rintro ⟨x, hx, hrefused⟩
    exact absurd hrefused (hfits x hx)
  · refine ⟨?_, ?_, fun _ => hfail, hmem⟩
    · obtain ⟨x, -, y, -, fault, fault', -, -, hp, hq⟩ := hfail
      intro out
      rw [hp, hq]
      constructor
      · intro h
        cases h
      · intro h
        cases h
    · intro hone
      obtain ⟨x, hx, y, hy, fault, fault', hfault, hfault', hp, hq⟩ := hfail
      obtain rfl : x = y := hone x hx y hy ⟨fault, hfault⟩ ⟨fault', hfault'⟩
      obtain rfl : fault = fault' := Except.error.inj (hfault.symm.trans hfault')
      rw [hp, hq]

/-- `option { bool S = true; float K = 2; } optional (S) { float x = K; }` -/
def defaultTokens : List Token :=
  [.keyword .option, .symbol .lbrace, .ident "bool", .ident "S", .symbol .eq, .keyword .true,
    .symbol .semicolon, .ident "float", .ident "K", .symbol .eq, .int 2, .symbol .semicolon,
    .symbol .rbrace, .keyword .optional, .symbol .lparen, .ident "S", .symbol .rparen,
    .symbol .lbrace, .ident "float", .ident "x", .symbol .eq, .ident "K", .symbol .semicolon,
    .symbol .rbrace, .eof].map fun k => ⟨k, Span.dummy, Position.nowhere⟩

/-- The defaults are bound for a file that has one option bound and one that is not. -/
theorem defaultTokens_bindDefaults :
    ∃ tree out, parseTokens defaultTokens Registry.standard = .ok tree ∧
      DefaultsFit tree.declaredOptions ∧
      (bindDefaults ⟨[("S", .bool true)], ⟨false, false⟩, .newest⟩ tree).bound =
        [("K", .int 2), ("S", .bool true)] ∧
      process ⟨[("S", .bool true)], ⟨true, false⟩, .newest⟩ tree = .ok out ∧
      process ⟨[("K", .int 2), ("S", .bool true)], ⟨false, false⟩, .newest⟩ tree = .ok out := by
  obtain ⟨tree, out, hparse, hdeclared, hbound, hout⟩ :
      ∃ tree out, parseTokens defaultTokens Registry.standard = .ok tree ∧
        tree.declaredOptions =
          [⟨"S", .prim .bool, some (.constant Span.dummy (.bool true)), Span.dummy⟩,
            ⟨"K", .prim .float, some (.constant Span.dummy (.int 2)), Span.dummy⟩] ∧
        bindDefaults ⟨[("S", .bool true)], ⟨false, false⟩, .newest⟩ tree =
          ⟨[("K", .int 2), ("S", .bool true)], ⟨false, false⟩, .newest⟩ ∧
        process ⟨[("S", .bool true)], ⟨true, false⟩, .newest⟩ tree = .ok out :=
    ⟨_, _, by rfl, by rfl, by rfl, by rfl⟩
  have hfit : DefaultsFit tree.declaredOptions := by
    rw [hdeclared]
    apply defaultsFit_of_forall
    intro d hd e he
    simp only [List.mem_cons, List.not_mem_nil, or_false] at hd
    rcases hd with rfl | rfl
    · cases he
      exact ⟨_, _, rfl, rfl⟩
    · cases he
      exact ⟨_, _, rfl, rfl⟩
  have hsame := (process_bindDefaults ⟨[("S", .bool true)], ⟨false, false⟩, .newest⟩ tree hfit
    .newest .newest).1 out
  rw [hbound] at hsame
  exact ⟨tree, out, hparse, hfit, by rw [hbound], hout, hsame.mp hout⟩

/-- `option { bool HasBias; bool EnablePacked; bool CastSkinned = true; bool HasLight = true; }` -/
def crowdedTokens : List Token :=
  [.keyword .option, .symbol .lbrace, .ident "bool", .ident "HasBias", .symbol .semicolon,
    .ident "bool", .ident "EnablePacked", .symbol .semicolon, .ident "bool",
    .ident "CastSkinned", .symbol .eq, .keyword .true, .symbol .semicolon, .ident "bool",
    .ident "HasLight", .symbol .eq, .keyword .true, .symbol .semicolon, .symbol .rbrace,
    .eof].map fun k => ⟨k, Span.dummy, Position.nowhere⟩

/-- A hash of these names. -/
def crowdedHash (name : String) : Nat :=
  ([("HasBias", 4), ("EnablePacked", 1), ("CastSkinned", 6), ("HasLight", 7)].lookup name).getD 0

/-- Integers for two options that are declared as truth values. -/
def crowded : Specializer :=
  ⟨[("EnablePacked", .int 1), ("HasBias", .int 1)], ⟨false, false⟩, .hashed crowdedHash⟩

/-- Two of four slots are taken, and the option in the first of them is reported. With the
defaults there are four entries in eight slots, where the other option comes first. -/
theorem crowded_bindDefaults :
    ∃ tree, parseTokens crowdedTokens Registry.standard = .ok tree ∧
      DefaultsFit tree.declaredOptions ∧
      (crowded.withDefaults true).process tree =
        .error (.optionTypeMismatch "HasBias" (.prim .bool) .int Span.dummy) ∧
      ((crowded.bindDefaults tree).withDefaults false).process tree =
        .error (.optionTypeMismatch "EnablePacked" (.prim .bool) .int Span.dummy) := by
  obtain ⟨tree, hparse, hdeclared, hp, hq⟩ :
      ∃ tree, parseTokens crowdedTokens Registry.standard = .ok tree ∧
        tree.declaredOptions =
          [⟨"HasBias", .prim .bool, none, Span.dummy⟩,
            ⟨"EnablePacked", .prim .bool, none, Span.dummy⟩,
            ⟨"CastSkinned", .prim .bool, some (.constant Span.dummy (.bool true)), Span.dummy⟩,
            ⟨"HasLight", .prim .bool, some (.constant Span.dummy (.bool true)), Span.dummy⟩] ∧
        (crowded.withDefaults true).process tree =
          .error (.optionTypeMismatch "HasBias" (.prim .bool) .int Span.dummy) ∧
        ((crowded.bindDefaults tree).withDefaults false).process tree =
          .error (.optionTypeMismatch "EnablePacked" (.prim .bool) .int Span.dummy) :=
    ⟨_, by rfl, by rfl, by rfl, by rfl⟩
  refine ⟨tree, hparse, ?_, hp, hq⟩
  rw [hdeclared]
  apply defaultsFit_of_forall
  intro d hd e he
  simp only [List.mem_cons, List.not_mem_nil, or_false] at hd
  rcases hd with rfl | rfl | rfl | rfl
  · cases he
  · cases he
  · cases he
    exact ⟨_, _, rfl, rfl⟩
  · cases he
    exact ⟨_, _, rfl, rfl⟩

/-- Bound values that fit do not matter to a tree that does not mention their options. -/
theorem process_eq_of_mentions {a b : Specializer} {tree : Stmt} (hconfig : a.config = b.config)
    (ha : a.Fits tree) (hb : b.Fits tree)
    (h : ∀ n, Mentions tree.nodes n → a.value? n = b.value? n) :
    a.process tree = b.process tree := by
  obtain ⟨p, hp⟩ := ha.of
  obtain ⟨q, hq⟩ := hb.of
  exact process_congr hp hq (by rw [hconfig]) fun n hn => value?_congr hconfig hp hq (h n hn)

/-- `option { bool S; int U; } void f() { optional (S) { discard; } }` -/
def spareTokens : List Token :=
  [.keyword .option, .symbol .lbrace, .ident "bool", .ident "S", .symbol .semicolon,
    .ident "int", .ident "U", .symbol .semicolon, .symbol .rbrace, .ident "void", .ident "f",
    .symbol .lparen, .symbol .rparen, .symbol .lbrace, .keyword .optional, .symbol .lparen,
    .ident "S", .symbol .rparen, .symbol .lbrace, .keyword .discard, .symbol .semicolon,
    .symbol .rbrace, .symbol .rbrace, .eof].map fun k => ⟨k, Span.dummy, Position.nowhere⟩

/-- Their tree. -/
def spareTree : Stmt :=
  .block Span.dummy [.options Span.dummy [⟨"S", .prim .bool, none, Span.dummy⟩,
      ⟨"U", .prim .int, none, Span.dummy⟩],
    .function Span.dummy ⟨"f", [], .void, none⟩
      [.optional Span.dummy (.ref Span.dummy "S") (.block Span.dummy [.discard Span.dummy]) none]]

/-- A spare binding is dropped from a file that the parser reads. -/
theorem spareTokens_process :
    ∃ out, parseTokens spareTokens Registry.standard = .ok spareTree ∧
      Fits ⟨[("U", .int 7), ("S", .bool true)], ⟨false, false⟩, .newest⟩ spareTree ∧
      Fits ⟨[("S", .bool true)], ⟨false, false⟩, .newest⟩ spareTree ∧
      (∀ n, Mentions spareTree.nodes n → n = "S") ∧
      process ⟨[("U", .int 7), ("S", .bool true)], ⟨false, false⟩, .newest⟩ spareTree = .ok out ∧
      process ⟨[("S", .bool true)], ⟨false, false⟩, .newest⟩ spareTree = .ok out := by
  obtain ⟨out, hout⟩ : ∃ out,
      process ⟨[("U", .int 7), ("S", .bool true)], ⟨false, false⟩, .newest⟩ spareTree = .ok out :=
    ⟨_, rfl⟩
  have hfits : ∀ x ∈ [("U", Constant.int 7), ("S", .bool true)], ∀ d,
      declaration? spareTree.declaredOptions x.1 = some d → ∃ w, d.coerce x.2 = .ok w := by
    intro x hx d hd
    simp only [List.mem_cons, List.not_mem_nil, or_false] at hx
    rcases hx with rfl | rfl
    · cases hd
      exact ⟨_, rfl⟩
    · cases hd
      exact ⟨_, rfl⟩
  have hfewer : Fits ⟨[("S", .bool true)], ⟨false, false⟩, .newest⟩ spareTree :=
    fun x hx => hfits x (List.mem_cons_of_mem _ hx)
  have hmentions : ∀ n, Mentions spareTree.nodes n → n = "S" := by
    rintro n ⟨span, hn⟩
    have hn : span = Span.dummy ∧ n = "S" := by
      simpa [spareTree, Stmt.nodes, Stmt.nodesList, Stmt.nodesOption, Expr.nodes, Expr.nodesOption]
        using hn
    exact hn.2
  have hsame := process_eq_of_mentions
    (a := ⟨[("U", .int 7), ("S", .bool true)], ⟨false, false⟩, .newest⟩)
    (b := ⟨[("S", .bool true)], ⟨false, false⟩, .newest⟩) rfl hfits hfewer fun n hn => by
      rw [hmentions n hn]
      rfl
  exact ⟨out, rfl, hfits, hfewer, hmentions, hout, hsame.symm.trans hout⟩

end Process

end Specializer

end Shading
