import Mathlib.Data.List.Nodup
import Shading.Extract.Reflection
import Shading.Proofs.Except

/-!
# Registration in the reflection tables

A table takes a list of variables exactly when no place is bound twice, by the list or
by what the table holds already. The places of a table are its locations, or its pairs
of set and binding.
-/

namespace Shading

/-- What is added one after another goes in exactly when all keys differ, if that is what lets
a single one in. -/
theorem foldlM_eq_ok_iff_nodup {σ ν κ ε : Type} {add : σ → ν → Except ε σ}
    {wanted : List ν → List κ} (extend : σ → List ν → σ) (keys : σ → List κ)
    (hnil : ∀ s, extend s [] = s)
    (hcons : ∀ s v vs, extend (extend s [v]) vs = extend s (v :: vs))
    (hkeys : ∀ s vs, keys (extend s vs) = keys s ++ wanted vs)
    (hadd : ∀ s v out, (keys s).Nodup →
      (add s v = .ok out ↔ out = extend s [v] ∧ (keys (extend s [v])).Nodup))
    {s : σ} (vs : List ν) (out : σ) (h : (keys s).Nodup) :
    vs.foldlM add s = .ok out ↔ out = extend s vs ∧ (keys s ++ wanted vs).Nodup := by
  induction vs generalizing s with
  | nil => simp [← hkeys, hnil, h, pure, Except.pure, eq_comm]
  | cons v rest ih =>
      have hsplit : keys s ++ wanted (v :: rest) = keys (extend s [v]) ++ wanted rest := by
        rw [← hkeys, ← hkeys, hcons]
      rw [List.foldlM_cons, Except.bind_eq_ok_iff, hsplit, ← hcons]
      simp only [hadd _ _ _ h]
      constructor
      · rintro ⟨mid, ⟨rfl, hfree⟩, hrest⟩
        exact (ih hfree).mp hrest
      · rintro ⟨hout, hnodup⟩
        have hfree := (List.nodup_append.mp hnodup).1
        exact ⟨_, ⟨rfl, hfree⟩, (ih hfree).mpr ⟨hout, hnodup⟩⟩

namespace InterfaceEntry

/-- The locations that are taken. -/
def locations (entries : List InterfaceEntry) : List Nat := entries.filterMap (·.location)

/-- The locations that variables ask for. -/
def wanted (vs : List InterfaceVariable) : List Nat := vs.filterMap (·.slot.location?)

/-- The locations that are taken are those of the variables added. -/
theorem locations_append_ofVariable (entries : List InterfaceEntry)
    (vs : List InterfaceVariable) :
    locations (entries ++ vs.map ofVariable) = locations entries ++ wanted vs := by
  rw [locations, List.filterMap_append, List.filterMap_map]
  rfl

theorem at?_eq_none_iff (entries : List InterfaceEntry) (n : Nat) :
    at? entries n = none ↔ n ∉ locations entries := by
  simp [at?, locations]

/-- A variable is registered where its location is free. -/
theorem register_eq_ok_iff (entries out : List InterfaceEntry) (direction : Direction)
    (v : InterfaceVariable) :
    register entries direction v = .ok out ↔
      out = entries ++ [ofVariable v] ∧
        ∀ n, v.slot.location? = some n → n ∉ locations entries := by
  cases hv : v.slot with
  | builtin b => simp [register, hv, Slot.location?, eq_comm]
  | location n =>
      cases hat : at? entries n with
      | some other =>
          have htaken : n ∈ locations entries := by
            by_contra hfree
            rw [(at?_eq_none_iff entries n).mpr hfree] at hat
            cases hat
          simp [register, hv, hat, Slot.location?, htaken]
      | none =>
          have hfree := (at?_eq_none_iff entries n).mp hat
          simp [register, hv, hat, Slot.location?, hfree, eq_comm]

/-- Variables are registered one after another exactly when all locations differ. -/
theorem foldlM_register_eq_ok_iff {entries : List InterfaceEntry} (direction : Direction)
    (vs : List InterfaceVariable) (out : List InterfaceEntry)
    (h : (locations entries).Nodup) :
    vs.foldlM (register · direction ·) entries = .ok out ↔
      out = entries ++ vs.map ofVariable ∧ (locations entries ++ wanted vs).Nodup := by
  refine foldlM_eq_ok_iff_nodup (fun es vs => es ++ vs.map ofVariable) locations (by simp)
    (by simp) locations_append_ofVariable (fun es v es' hes => ?_) vs out h
  rw [register_eq_ok_iff, locations_append_ofVariable, List.map_singleton]
  refine and_congr_right fun _ => ?_
  cases hv : v.slot <;> simp [wanted, hv, Slot.location?, ← List.concat_eq_append,
    List.nodup_concat, hes]

end InterfaceEntry

namespace ExternalEntry

/-- The pairs of set and binding that are taken. -/
def places (entries : List ExternalEntry) : List (Nat × Nat) :=
  entries.map fun e => (e.set, e.binding)

/-- The pairs of set and binding that variables ask for. -/
def wanted (vs : List ExternalVariable) : List (Nat × Nat) :=
  vs.map fun v => (v.set, v.binding)

theorem places_append_ofVariable (entries : List ExternalEntry)
    (vs : List ExternalVariable) :
    places (entries ++ vs.map ofVariable) = places entries ++ wanted vs := by
  rw [places, List.map_append, List.map_map]
  rfl

end ExternalEntry

namespace Reflection

theorem externalAt?_eq_none_iff (r : Reflection) (set binding : Nat) :
    r.externalAt? set binding = none ↔ (set, binding) ∉ ExternalEntry.places r.externals := by
  simp [externalAt?, ExternalEntry.places]

theorem addExternal_eq_ok_iff (r out : Reflection) (v : ExternalVariable) :
    r.addExternal v = .ok out ↔
      out = { r with externals := r.externals ++ [ExternalEntry.ofVariable v] } ∧
        (v.set, v.binding) ∉ ExternalEntry.places r.externals := by
  rw [← externalAt?_eq_none_iff, addExternal]
  cases r.externalAt? v.set v.binding with
  | some other => simp
  | none => simp [eq_comm]

theorem foldlM_addExternal_eq_ok_iff {r : Reflection} (vs : List ExternalVariable)
    (out : Reflection) (h : (ExternalEntry.places r.externals).Nodup) :
    vs.foldlM addExternal r = .ok out ↔
      out = { r with externals := r.externals ++ vs.map ExternalEntry.ofVariable } ∧
        (ExternalEntry.places r.externals ++ ExternalEntry.wanted vs).Nodup := by
  refine foldlM_eq_ok_iff_nodup
    (fun r vs => { r with externals := r.externals ++ vs.map ExternalEntry.ofVariable })
    (fun r => ExternalEntry.places r.externals) (by simp) (by simp)
    (fun r => ExternalEntry.places_append_ofVariable r.externals) (fun r v out hr => ?_) vs out h
  rw [addExternal_eq_ok_iff, ExternalEntry.places_append_ofVariable, List.map_singleton]
  refine and_congr_right fun _ => ?_
  simp [ExternalEntry.wanted, ← List.concat_eq_append, List.nodup_concat, hr]

section Table

/-! The tables of inputs and of outputs differ in the field that holds them. -/

variable (table : Reflection → List InterfaceEntry)
variable (put : Reflection → List InterfaceEntry → Reflection)

/-- A table that is kept in a field of its own. -/
structure IsField : Prop where
  table_put : ∀ r entries, table (put r entries) = entries
  put_put : ∀ r first second, put (put r first) second = put r second
  put_table : ∀ r, put r (table r) = r

variable {table put}

/-- Adding to one table is adding to that field of the reflection. -/
theorem foldlM_add (hfield : IsField table put) (direction : Direction)
    {add : Reflection → InterfaceVariable → Except ExtractError Reflection}
    (hadd : ∀ r v, add r v =
      InterfaceEntry.register (table r) direction v >>= fun entries => .ok (put r entries))
    (r : Reflection) (vs : List InterfaceVariable) :
    vs.foldlM add r =
      vs.foldlM (InterfaceEntry.register · direction ·) (table r) >>= fun entries =>
        .ok (put r entries) := by
  induction vs generalizing r with
  | nil =>
      change Except.ok r = Except.ok (put r (table r))
      rw [hfield.put_table]
  | cons v rest ih =>
      rw [List.foldlM_cons, List.foldlM_cons, hadd]
      cases InterfaceEntry.register (table r) direction v with
      | error e => rfl
      | ok entries =>
          simp only [Except.ok_bind, ih, hfield.table_put, hfield.put_put]

theorem foldlM_add_eq_ok_iff (hfield : IsField table put) (direction : Direction)
    {add : Reflection → InterfaceVariable → Except ExtractError Reflection}
    (hadd : ∀ r v, add r v =
      InterfaceEntry.register (table r) direction v >>= fun entries => .ok (put r entries))
    {r : Reflection} (vs : List InterfaceVariable) (out : Reflection)
    (h : (InterfaceEntry.locations (table r)).Nodup) :
    vs.foldlM add r = .ok out ↔
      out = put r (table r ++ vs.map InterfaceEntry.ofVariable) ∧
        (InterfaceEntry.locations (table r) ++ InterfaceEntry.wanted vs).Nodup := by
  rw [foldlM_add hfield direction hadd, Except.bind_eq_ok_iff]
  simp only [InterfaceEntry.foldlM_register_eq_ok_iff direction vs _ h]
  constructor
  · rintro ⟨_, ⟨rfl, hnodup⟩, hout⟩
    cases hout
    exact ⟨rfl, hnodup⟩
  · rintro ⟨rfl, hnodup⟩
    exact ⟨_, ⟨rfl, hnodup⟩, rfl⟩

end Table

theorem foldlM_addInput_eq_ok_iff {r : Reflection} (vs : List InterfaceVariable)
    (out : Reflection) (h : (InterfaceEntry.locations r.inputs).Nodup) :
    vs.foldlM addInput r = .ok out ↔
      out = { r with inputs := r.inputs ++ vs.map InterfaceEntry.ofVariable } ∧
        (InterfaceEntry.locations r.inputs ++ InterfaceEntry.wanted vs).Nodup := by
  have hfield : IsField (·.inputs) (fun r inputs => { r with inputs }) :=
    ⟨fun _ _ => rfl, fun _ _ _ => rfl, fun _ => rfl⟩
  exact foldlM_add_eq_ok_iff hfield .input (fun _ _ => rfl) vs out h

theorem foldlM_addOutput_eq_ok_iff {r : Reflection} (vs : List InterfaceVariable)
    (out : Reflection) (h : (InterfaceEntry.locations r.outputs).Nodup) :
    vs.foldlM addOutput r = .ok out ↔
      out = { r with outputs := r.outputs ++ vs.map InterfaceEntry.ofVariable } ∧
        (InterfaceEntry.locations r.outputs ++ InterfaceEntry.wanted vs).Nodup := by
  have hfield : IsField (·.outputs) (fun r outputs => { r with outputs }) :=
    ⟨fun _ _ => rfl, fun _ _ _ => rfl, fun _ => rfl⟩
  exact foldlM_add_eq_ok_iff hfield .output (fun _ _ => rfl) vs out h

theorem struct?_eq_none_iff (r : Reflection) (name : String) :
    r.struct? name = none ↔ ∀ d ∈ r.structs, d.name ≠ name := by
  simp [struct?]

theorem mem_of_struct?_eq_some {r : Reflection} {name : String} {d : StructDeclaration}
    (h : r.struct? name = some d) : d ∈ r.structs ∧ d.name = name := by
  have hname := List.find?_some h
  exact ⟨List.mem_of_find?_eq_some h, by simpa using hname⟩

end Reflection

end Shading
