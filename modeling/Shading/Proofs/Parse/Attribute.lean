import Shading.Proofs.Parse.Complete
import Shading.Proofs.Parse.Derived
import Shading.Proofs.Parse.Legible

/-!
# Attributes that are read

Whatever attributes are read, the numbers in them fit, and what a declaration takes from
them is legible. The attributes that a declaration is printed with are read back as they
stand and give the declaration what it was printed from.
-/

namespace Shading

namespace Parse

variable {α β : Type} {names : Names}

/-- A check takes no tokens. -/
theorem Takes.checked {result : Checked α} {f : α → Parse β} {R : List Kind → β → List Kind → Prop}
    (h : ∀ a, result = .ok a → Takes (f a) R) : Takes (Parse.checked result >>= f) R := by
  intro c b c' hrun
  obtain ⟨a, mid, ha, hb⟩ := StateT.bind_eq_ok_iff.mp hrun
  obtain ⟨x, hx, hout⟩ := Except.bind_eq_ok_iff.mp ha
  cases hout
  exact h a hx c b c' hb

/-- A check that succeeds takes no token. -/
theorem TakesAt.checked {k : Kind} {result : Checked α} {f : α → Parse β}
    {R : List Kind → β → List Kind → Prop} (h : ∀ a, result = .ok a → TakesAt k (f a) R) :
    TakesAt k (Parse.checked result >>= f) R := by
  intro c b c' hcurrent hrun
  obtain ⟨a, mid, ha, hb⟩ := StateT.bind_eq_ok_iff.mp hrun
  obtain ⟨x, hx, hout⟩ := Except.bind_eq_ok_iff.mp ha
  cases hout
  exact h a hx c b c' hcurrent hb

/-- A check that succeeds is passed over. -/
theorem Reads.checked {result : Checked α} {a : α} {f : α → Parse β} {before after : List Kind}
    {Q : β → Prop} (hresult : result = .ok a) (h : Reads (f a) before after Q) :
    Reads (Parse.checked result >>= f) before after Q := by
  intro c hc
  obtain ⟨b, c', hrun, hc', hb⟩ := h c hc
  refine ⟨b, c', StateT.bind_eq_ok_iff.mpr ⟨a, c, ?_, hrun⟩, hc', hb⟩
  rw [Parse.checked, hresult]
  rfl

/-- All tokens are plain. -/
def Plain (ks : List Kind) : Prop := ∀ k ∈ ks, isPlain k = true

section Plain

variable {k : Kind} {ks ls : List Kind}

@[simp] theorem plain_nil : Plain [] := by
  simp [Plain]

@[simp] theorem plain_cons : Plain (k :: ks) ↔ isPlain k = true ∧ Plain ks := by
  simp [Plain]

@[simp] theorem plain_append : Plain (ks ++ ls) ↔ Plain ks ∧ Plain ls := by
  simp [Plain, or_imp, forall_and]

/-- Commas between plain parts leave the whole plain. -/
theorem plain_commas {parts : List (List Kind)} (h : ∀ part ∈ parts, Plain part) :
    Plain (commas parts) := by
  induction parts with
  | nil => simp [commas]
  | cons p ps ih =>
      have hp := h p (by simp)
      have hps := ih fun q hq => h q (List.mem_cons_of_mem _ hq)
      cases ps with
      | nil => exact hp
      | cons q qs => simpa [commas] using ⟨hp, rfl, hps⟩

end Plain

/-- The numbers among the arguments fit. -/
def Fits (arguments : List AttributeArgument) : Prop :=
  ∀ n, .int n ∈ arguments → n < arraySizeBound

/-- An argument of an attribute is one plain token whose number fits. -/
theorem takes_attributeArgument :
    Takes attributeArgument fun ks a _ => Plain ks ∧ Fits [a] := by
  refine .kind fun k => ?_
  have hargument {a : AttributeArgument} (h : attributeArgument? k = some a) :
      isPlain k = true ∧ k ≠ .eof ∧ Fits [a] := by
    cases k with
    | int n =>
        simp only [attributeArgument?] at h
        split at h
        · cases h
          exact ⟨rfl, (by simp), by simpa [Fits, arraySizeBound]⟩
        · cases h
    | uint n =>
        cases h
        refine ⟨rfl, (by simp), ?_⟩
        intro m hm
        obtain rfl : m = n.toNat := by simpa using hm
        exact n.toNat_lt
    | ident name =>
        cases h
        exact ⟨rfl, (by simp), by simp [Fits]⟩
    | float _ | keyword _ | symbol _ | eof => cases h
  cases ha : attributeArgument? k with
  | none => exact (Takes.unexpected _).at_ _
  | some a =>
      obtain ⟨hplain, heof, hfits⟩ := hargument ha
      exact .take heof (.pure fun _ => ⟨by simpa using hplain, hfits⟩)

/-- An attribute is read from plain tokens, and its numbers fit. -/
theorem takes_oneAttribute (fuel : Nat) :
    Takes (oneAttribute fuel) fun ks a _ => Plain ks ∧ Fits a.arguments := by
  refine .look fun t => (Takes.identifier fun name span => .eat ?_ ?_).at_ _
  · refine .bind (takes_separated takes_attributeArgument _) fun ks as has => ?_
    obtain ⟨parts, -, rfl, rfl, hall⟩ := has
    refine .expect (.spanFrom fun s => .pure fun _ => ⟨?_, ?_⟩)
    · have hplain : Plain (commas (parts.map Prod.fst)) := by
        apply plain_commas
        intro part hpart
        obtain ⟨p, hp, rfl⟩ := List.mem_map.mp hpart
        exact (hall p hp).1
      simpa using ⟨rfl, rfl, hplain, rfl⟩
    · intro n hn
      obtain ⟨p, hp, hpn⟩ := List.mem_map.mp hn
      exact (hall p hp).2 n (by simp [hpn])
  · exact .spanFrom fun s => .pure fun _ => ⟨by simp; rfl, by simp [Fits]⟩

/-- The groups of attributes hold attributes whose numbers fit. -/
theorem takes_attributeGroups (fuel : Nat) : Takes (attributeGroups fuel) fun ks as _ =>
    Plain ks ∧ ∀ a ∈ as, Fits a.arguments := by
  induction fuel with
  | zero => exact .spent
  | succ fuel ih =>
      refine .eat ?_ ?_
      · refine .bind (takes_separated (takes_oneAttribute fuel) _) fun ks group hgroup => ?_
        obtain ⟨parts, -, rfl, rfl, hall⟩ := hgroup
        refine .expect (.bind ih fun ls as has => .pure fun _ => ⟨?_, ?_⟩)
        · have hplain : Plain (commas (parts.map Prod.fst)) := by
            apply plain_commas
            intro part hpart
            obtain ⟨p, hp, rfl⟩ := List.mem_map.mp hpart
            exact (hall p hp).1
          simpa using ⟨rfl, hplain, rfl, has.1⟩
        · intro a ha
          rcases List.mem_append.mp ha with ha | ha
          · obtain ⟨p, hp, rfl⟩ := List.mem_map.mp ha
            exact (hall p hp).2
          · exact has.2 a ha
      · exact .pure fun _ => by simp

/-- An attribute by its name and its arguments. -/
def view (a : Attribute) : String × List AttributeArgument := (a.name, a.arguments)

/-- An argument is read back from its token. -/
theorem reads_attributeArgument {a : AttributeArgument} (ha : Fits [a]) (rest : List Kind) :
    Reads attributeArgument (a.kind :: rest) rest (· = a) := by
  refine .kind ?_
  cases a with
  | int n =>
      have hn : n < 4294967296 := ha n (by simp)
      simp only [List.headD_cons, AttributeArgument.kind, attributeArgument?, hn, if_true]
      exact .take (by simp) (.pure rfl)
  | name n => exact .take (by rintro ⟨⟩) (.pure rfl)

/-- An attribute is read back, with or without arguments. -/
theorem reads_oneAttribute {a : String × List AttributeArgument} {fuel : Nat} {rest : List Kind}
    (hfits : Fits a.2) (hfuel : a.2.length ≤ fuel + 1) (hrest : rest.headD .eof ≠ .symbol .lparen) :
    Reads (oneAttribute fuel) (attributeKinds a ++ rest) rest (fun x => view x = a) := by
  obtain ⟨name, arguments⟩ := a
  refine .look fun t _ => ?_
  cases arguments with
  | nil => exact .identifier fun s => .eat_other hrest (.spanFrom fun _ => .pure rfl)
  | cons x xs =>
      have hlist : Reads (separated attributeArgument (fuel + 1))
          (commas ((x :: xs).map fun y => [y.kind]) ++ .symbol .rparen :: rest)
          (.symbol .rparen :: rest) fun as => as.map id = (x :: xs).map id := by
        have hread (y : AttributeArgument) (hy : y ∈ x :: xs) (tail : List Kind) :
            Reads attributeArgument ([y.kind] ++ tail) tail fun z => id z = id y := by
          apply reads_attributeArgument
          intro n hn
          obtain rfl : .int n = y := by simpa using hn
          exact hfits n hy
        refine reads_separated (by simp) (List.cons_ne_nil x xs) hfuel ?_ ?_
        · exact fun y hy tail => hread y hy _
        · exact fun y hy => hread y hy _
      have hkinds : attributeKinds (name, x :: xs) ++ rest = .ident name :: .symbol .lparen ::
          (commas ((x :: xs).map fun y => [y.kind]) ++ .symbol .rparen :: rest) := by
        simp [attributeKinds, argumentList]
      rw [hkinds]
      refine .identifier fun s => .eat (.bind hlist fun as has => .expect (.spanFrom fun _ => ?_))
      exact .pure (by simpa [view] using has)

theorem reads_attributeGroups_none {fuel : Nat} {rest : List Kind}
    (hrest : rest.headD .eof ≠ .symbol .lbracket) :
    Reads (attributeGroups (fuel + 1)) rest rest (· = []) := .eat_other hrest (.pure rfl)

/-- One group of attributes. -/
theorem reads_attributeGroups {as : List (String × List AttributeArgument)} {fuel : Nat}
    {rest : List Kind} (hne : as ≠ []) (hfits : ∀ a ∈ as, Fits a.2)
    (hfuel : (bracketed as).length ≤ fuel) (hrest : rest.headD .eof ≠ .symbol .lbracket) :
    Reads (attributeGroups (fuel + 1)) (bracketed as ++ rest) rest fun xs => xs.map view = as := by
  simp only [bracketed, List.length_append, List.length_cons, List.length_nil] at hfuel
  obtain ⟨fuel, rfl⟩ : ∃ n, fuel = n + 1 := ⟨fuel - 1, by omega⟩
  have hpos : ∀ ks ∈ as.map attributeKinds, 0 < ks.length := by
    intro ks hks
    obtain ⟨a, -, rfl⟩ := List.mem_map.mp hks
    simp [attributeKinds]
  have hcount := count_le_commas hpos
  rw [List.length_map] at hcount
  have hread (a : String × List AttributeArgument) (ha : a ∈ as) {tail : List Kind}
      (htail : tail.headD .eof ≠ .symbol .lparen) :
      Reads (oneAttribute (fuel + 1)) (attributeKinds a ++ tail) tail fun x => view x = id a := by
    have hlength := length_le_commas (List.mem_map_of_mem (f := attributeKinds) ha)
    refine reads_oneAttribute (hfits a ha) ?_ htail
    have harguments : a.2.length ≤ (attributeKinds a).length := by
      obtain ⟨name, arguments⟩ := a
      cases arguments with
      | nil => simp
      | cons x xs =>
          have hone : ∀ ks ∈ (x :: xs).map fun y : AttributeArgument => [y.kind],
              0 < ks.length := by
            intro ks hks
            obtain ⟨y, -, rfl⟩ := List.mem_map.mp hks
            simp
          have hle := count_le_commas hone
          simp only [List.length_map] at hle
          simp only [attributeKinds, argumentList, List.length_cons, List.length_append] at hle ⊢
          omega
    omega
  have hlist : Reads (separated (oneAttribute (fuel + 1)) (fuel + 2))
      (commas (as.map attributeKinds) ++ .symbol .rbracket :: rest) (.symbol .rbracket :: rest)
      fun xs => xs.map view = as.map id := by
    refine reads_separated (by simp) hne (by omega) ?_ ?_
    · exact fun a ha tail => hread a ha (by simp)
    · exact fun a ha => hread a ha (by simp)
  simp only [bracketed, List.cons_append, List.append_assoc, List.nil_append]
  refine .eat (.bind hlist fun xs hxs => .expect ?_)
  refine .bind (reads_attributeGroups_none hrest) fun ys hys => .pure ?_
  subst hys
  simpa using hxs

/-- The attributes before a declaration are read as they stand. -/
theorem reads_attributes {as : List (String × List AttributeArgument)} {fuel : Nat}
    {rest : List Kind} (hne : as ≠ []) (hfits : ∀ a ∈ as, Fits a.2)
    (hfuel : (bracketed as).length ≤ fuel) (hrest : rest.headD .eof ≠ .symbol .lbracket) :
    Reads (attributes fuel) (bracketed as ++ rest) rest (fun x => x.list.map view = as) :=
  .look fun _ _ => .bind (reads_attributeGroups hne hfits hfuel hrest) fun _ hxs => .pure hxs

theorem reads_noAttributes {fuel : Nat} {rest : List Kind}
    (hrest : rest.headD .eof ≠ .symbol .lbracket) :
    Reads (attributes fuel) rest rest (fun x => x.list = []) :=
  .look fun _ _ => .bind (reads_attributeGroups_none hrest) fun _ hxs => .pure hxs

/-- The attributes before a declaration are read from plain tokens. -/
theorem takes_attributes (fuel : Nat) : Takes (attributes fuel) fun ks as _ =>
    Plain ks ∧ ∀ a ∈ as.list, Fits a.arguments :=
  .look fun t => (Takes.bind (takes_attributeGroups _) fun ks as has =>
    .pure fun _ => by simpa using has).at_ _

end Parse

namespace Attribute

open Parse (Fits arraySizeBound)

variable {a : Attribute} {n : Nat}

/-- The one integer of an attribute fits. -/
theorem lt_of_singleInt (hfits : Fits a.arguments) (h : a.singleInt = .ok n) :
    n < arraySizeBound := by
  unfold singleInt at h
  split at h
  · rename_i m harguments
    cases h
    exact hfits n (by simp [harguments])
  · cases h

/-- The sizes of a workgroup are positive and fit. -/
theorem sizes_of_workgroup (hfits : Fits a.arguments) {g : Workgroup} (h : a.workgroup = .ok g) :
    ∀ n ∈ [g.x, g.y, g.z], 0 < n ∧ n < arraySizeBound := by
  unfold workgroup at h
  split at h
  · cases h
  · obtain ⟨sizes, hsizes, h⟩ := Except.bind_eq_ok_iff.mp h
    cases h
    have hone : 0 < 1 ∧ 1 < arraySizeBound := by decide
    have hsize : ∀ n ∈ sizes, 0 < n ∧ n < arraySizeBound := by
      intro n hn
      obtain ⟨x, hx, hxn⟩ := Except.exists_of_mem_mapM hsizes hn
      split at hxn
      · cases hxn
      · rename_i m hm
        cases hxn
        refine ⟨Nat.pos_of_ne_zero ?_, hfits _ hx⟩
        rintro rfl
        exact hm rfl
      · cases hxn
    have hget (i : Nat) : 0 < sizes.getD i 1 ∧ sizes.getD i 1 < arraySizeBound := by
      rw [List.getD_eq_getElem?_getD]
      cases hi : sizes[i]? with
      | none => exact hone
      | some n => exact hsize n (List.mem_of_getElem? hi)
    intro n hn
    simp only [List.mem_cons, List.not_mem_nil, or_false] at hn
    rcases hn with rfl | rfl | rfl
    · exact hget 0
    · exact hget 1
    · exact hget 2

/-- Sizes that are positive and fit make the workgroup they were printed from. -/
theorem workgroup_eq {a : Attribute} {g : Workgroup}
    (h : a.arguments = [.int g.x, .int g.y, .int g.z])
    (hsizes : ∀ n ∈ [g.x, g.y, g.z], 0 < n ∧ n < arraySizeBound) : a.workgroup = .ok g := by
  obtain ⟨x, y, z⟩ := g
  have hpos (n : Nat) (hn : n ∈ [x, y, z]) : ∃ m, n = m + 1 :=
    ⟨n - 1, by have := (hsizes n hn).1; omega⟩
  obtain ⟨x, rfl⟩ := hpos x (by simp)
  obtain ⟨y, rfl⟩ := hpos y (by simp)
  obtain ⟨z, rfl⟩ := hpos z (by simp)
  simp [workgroup, h]

end Attribute

namespace Attributes

open Parse (Fits arraySizeBound view)

variable {as : Attributes}

section Printed

/-- Where one attribute is viewed, there is just one. -/
theorem list_eq_singleton {name : String} {arguments : List AttributeArgument}
    (h : as.list.map view = [(name, arguments)]) :
    ∃ a, as.list = [a] ∧ a.name = name ∧ a.arguments = arguments := by
  obtain ⟨a, hlist, ha⟩ := List.map_eq_singleton_iff.mp h
  cases ha
  exact ⟨a, hlist, rfl, rfl⟩

theorem none_eq {target : AttributeTarget} (h : as.list = []) : as.none target = .ok () := by
  simp [none, check, h, checkFrom]

/-- The place of an interface variable is read back from its attributes. -/
theorem slot_eq {slot : Slot} (h : as.list.map view = slot.attributes) : as.slot = .ok slot := by
  cases slot with
  | location n =>
      obtain ⟨a, hlist, hname, harguments⟩ := list_eq_singleton h
      simp [Attributes.slot, check, checkFrom, known, find?, hlist, hname,
        Attribute.singleInt, harguments]
  | builtin b =>
      obtain ⟨a, hlist, hname, harguments⟩ := list_eq_singleton h
      simp [Attributes.slot, check, checkFrom, known, find?, hlist, hname,
        Attribute.singleName, harguments, BuiltinVariable.ofName?_name]
/-- The set and the binding of an external variable are read back from its attributes. -/
theorem binding_eq {v : ExternalVariable} (h : as.list.map view = v.attributes) :
    as.binding = .ok (v.set, v.binding, v.storage) := by
  unfold ExternalVariable.attributes at h
  obtain ⟨a, rest, hlist, ha, h⟩ := List.map_eq_cons_iff.mp h
  obtain ⟨b, rest, rfl, hb, h⟩ := List.map_eq_cons_iff.mp h
  obtain ⟨haname, haarguments⟩ := Prod.mk.inj ha
  obtain ⟨hbname, hbarguments⟩ := Prod.mk.inj hb
  cases hstorage : v.storage with
  | false =>
      rw [hstorage] at h
      obtain rfl : rest = [] := by simpa using h
      simp [binding, check, checkFrom, known, find?, hlist, Attribute.singleInt, haname,
        hbname, haarguments, hbarguments]
  | true =>
      rw [hstorage] at h
      obtain ⟨c, rfl, hc⟩ := List.map_eq_singleton_iff.mp h
      obtain ⟨hcname, hcarguments⟩ := Prod.mk.inj hc
      simp [binding, check, checkFrom, known, find?, hlist, Attribute.singleInt,
        Attribute.noArguments, haname, hbname, hcname, haarguments, hbarguments,
        hcarguments]

theorem entry_none (h : as.list = []) : as.entry = .ok Option.none := by
  simp [entry, check, checkFrom, find?, h]

/-- An entry point is read back from its attributes. -/
theorem entry_eq {e : EntryPoint} (he : e.Legible) (h : as.list.map view = e.attributes) :
    as.entry = .ok (some e) := by
  obtain ⟨stage, workgroup⟩ := e
  unfold EntryPoint.attributes at h
  obtain ⟨a, rest, hlist, ha, h⟩ := List.map_eq_cons_iff.mp h
  obtain ⟨haname, haarguments⟩ := Prod.mk.inj ha
  cases workgroup with
  | none =>
      obtain rfl : rest = [] := by simpa using h
      simp [entry, check, checkFrom, known, find?, hlist, Attribute.singleName, haname,
        haarguments, entryOf, entryWorkgroup, Stage.ofName?_name]
  | some g =>
      obtain ⟨c, rfl, hc⟩ := List.map_eq_singleton_iff.mp h
      obtain ⟨hcname, hcarguments⟩ := Prod.mk.inj hc
      obtain rfl : stage = .compute := he.stage rfl
      have hsizes := he.sizes g rfl
      simp [entry, check, checkFrom, known, find?, hlist, Attribute.singleName, haname,
        haarguments, hcname, entryOf, entryWorkgroup, Stage.ofName?_name,
        Attribute.workgroup_eq hcarguments hsizes]

end Printed

variable (hfits : ∀ a ∈ as.list, Fits a.arguments)

theorem mem_of_find? {name : String} {a : Attribute} (h : as.find? name = some a) : a ∈ as.list :=
  List.mem_of_find?_eq_some h

include hfits

/-- A location fits. -/
theorem location_lt {slot : Slot} (h : as.slot = .ok slot) :
    ∀ n, slot = .location n → n < arraySizeBound := by
  obtain ⟨_, -, h⟩ := Except.bind_eq_ok_iff.mp h
  split at h
  · rename_i a ha _
    obtain ⟨n, hn, h⟩ := Except.bind_eq_ok_iff.mp h
    cases h
    intro m hm
    cases hm
    exact Attribute.lt_of_singleInt (hfits a (mem_of_find? ha)) hn
  · obtain ⟨name, -, h⟩ := Except.bind_eq_ok_iff.mp h
    split at h
    · cases h
      exact fun m hm => by cases hm
    · cases h
  · cases h
  · cases h

/-- A set and a binding fit. -/
theorem binding_lt {set binding : Nat} {storage : Bool}
    (h : as.binding = .ok (set, binding, storage)) :
    set < arraySizeBound ∧ binding < arraySizeBound := by
  obtain ⟨_, -, h⟩ := Except.bind_eq_ok_iff.mp h
  dsimp only at h
  have hsingle {name : String} {a : Attribute} {n : Nat} (ha : as.find? name = some a)
      (hn : a.singleInt = .ok n) : n < arraySizeBound :=
    Attribute.lt_of_singleInt (hfits a (mem_of_find? ha)) hn
  -- The set is given or left out, then the binding is given, then storage is asked for or not.
  split at h
  all_goals
    obtain ⟨n, hn, h⟩ := Except.bind_eq_ok_iff.mp h
    have hset : n < arraySizeBound := by
      first
        | exact hsingle ‹_› hn
        | cases hn; decide
    split at h
    · rename_i b hb
      obtain ⟨m, hm, h⟩ := Except.bind_eq_ok_iff.mp h
      have hbinding := hsingle hb hm
      split at h
      · obtain ⟨_, -, h⟩ := Except.bind_eq_ok_iff.mp h
        cases h
        exact ⟨hset, hbinding⟩
      · cases h
        exact ⟨hset, hbinding⟩
    · cases h

/-- An entry point that is read can be printed and read again. -/
theorem legible_entryOf {marker : Attribute} {e : EntryPoint} (h : as.entryOf marker = .ok e) :
    e.Legible := by
  obtain ⟨name, -, h⟩ := Except.bind_eq_ok_iff.mp h
  split at h
  · cases h
  · rename_i stage _
    obtain ⟨workgroup, hworkgroup, h⟩ := Except.bind_eq_ok_iff.mp h
    cases h
    unfold entryWorkgroup at hworkgroup
    split at hworkgroup
    · cases hworkgroup
      exact ⟨(by simp), (by simp)⟩
    · rename_i a ha
      split at hworkgroup
      · rename_i hstage
        obtain ⟨g, hg, hout⟩ := Except.bind_eq_ok_iff.mp hworkgroup
        cases hout
        refine ⟨fun _ => hstage, ?_⟩
        rintro g' ⟨⟩
        exact Attribute.sizes_of_workgroup (hfits a (mem_of_find? ha)) hg
      · cases hworkgroup

theorem legible_entry {e : EntryPoint} (h : as.entry = .ok (some e)) : e.Legible := by
  obtain ⟨_, -, h⟩ := Except.bind_eq_ok_iff.mp h
  split at h
  · cases h
  · obtain ⟨e', he', hout⟩ := Except.bind_eq_ok_iff.mp h
    cases hout
    exact legible_entryOf hfits he'
  · obtain ⟨e', he', hout⟩ := Except.bind_eq_ok_iff.mp h
    cases hout
    exact legible_entryOf hfits he'
  · split at h
    · cases h
    · cases h

end Attributes

end Shading
