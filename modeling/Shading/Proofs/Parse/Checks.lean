import Shading.Parse.Attribute
import Shading.Proofs.Except

/-!
# Errors of attribute checks

A check fails at one of the attributes or, where one is missing, at the start of the
declaration, and it only finds faults of attributes there. What holds of all these errors holds
of every error that a check gives.
-/

namespace Shading

variable {E : ParseError → Prop}

/-- Whatever a check finds wrong at the attribute is one of these errors. -/
def Attribute.FaultsWithin (E : ParseError → Prop) (a : Attribute) : Prop :=
  ∀ fault, E ⟨.attribute fault, a.span, a.position⟩

namespace Attribute

variable {a : Attribute} (h : a.FaultsWithin E)
include h

theorem failsWithin_noArguments : Except.FailsWithin E a.noArguments :=
  .ite (fun _ => .ok trivial) fun _ => .error (h _)

theorem failsWithin_singleInt : Except.FailsWithin E a.singleInt := by
  unfold singleInt
  split
  · exact .ok trivial
  · exact .error (h _)

theorem failsWithin_singleName : Except.FailsWithin E a.singleName := by
  unfold singleName
  split
  · exact .ok trivial
  · exact .error (h _)

/-- The sizes of a workgroup are checked one by one. -/
theorem failsWithin_workgroup : Except.FailsWithin E a.workgroup := by
  refine .ite (fun _ => .error (h _)) fun _ => (Except.Ends.mapM (fun argument => ?_) _).andThen
    fun _ => .ok trivial
  split
  · exact .error (h _)
  · exact .ok trivial
  · exact .error (h _)

end Attribute

/-- Whatever a check finds wrong at the attributes or at the start of the declaration is one of
these errors. -/
structure Attributes.FaultsWithin (E : ParseError → Prop) (as : Attributes) : Prop where
  start : ∀ fault, E ⟨.attribute fault, as.start.span, as.start.position⟩
  each : ∀ a ∈ as.list, a.FaultsWithin E

namespace Attributes.FaultsWithin

variable {as : Attributes} (h : as.FaultsWithin E)
include h

/-- An attribute that is found is one of those given, whose faults are known. -/
theorem found {name : String} {a : Attribute} (ha : as.find? name = some a) : a.FaultsWithin E :=
  h.each a (List.mem_of_find?_eq_some ha)

/-- The induction keeps what is left of the list among the attributes. -/
theorem failsWithin_check (allowed : List String) (target : AttributeTarget) :
    Except.FailsWithin E (as.check allowed target) := by
  have hfrom (before : List String) (l : List Attribute) (hl : ∀ a ∈ l, a ∈ as.list) :
      Except.FailsWithin E (checkFrom allowed target before l) := by
    induction l generalizing before with
    | nil => exact .ok trivial
    | cons a rest ih =>
        have ha := h.each a (hl a List.mem_cons_self)
        exact .ite (fun _ => .error (ha _)) fun _ => .ite (fun _ => .error (ha _)) fun _ =>
          .ite (fun _ => .error (ha _)) fun _ => ih _ fun b hb => hl b (List.mem_cons_of_mem _ hb)
  exact hfrom [] as.list fun _ ha => ha

theorem failsWithin_none (target : AttributeTarget) : Except.FailsWithin E (as.none target) :=
  h.failsWithin_check [] target

/-- The place of an interface variable fails at an attribute, or where attributes stand. -/
theorem failsWithin_slot : Except.FailsWithin E as.slot := by
  refine (h.failsWithin_check _ _).andThen fun _ => ?_
  split
  · rename_i location hlocation _
    exact (Attribute.failsWithin_singleInt (h.found hlocation)).andThen fun _ => .ok trivial
  · rename_i builtin _ hbuiltin
    have hfaults := h.found hbuiltin
    refine (Attribute.failsWithin_singleName hfaults).andThen fun name => ?_
    split
    · exact .ok trivial
    · exact .error (hfaults _)
  · rename_i location builtin _ hbuiltin
    exact .error (h.found hbuiltin _)
  · exact .error (h.start _)

theorem failsWithin_binding : Except.FailsWithin E as.binding := by
  refine (h.failsWithin_check _ _).andThen fun _ => ?_
  have hnumber {name : String} {a : Attribute} (ha : as.find? name = some a) :
      Except.FailsWithin E a.singleInt := Attribute.failsWithin_singleInt (h.found ha)
  cases hbinding : as.find? "binding" with
  | none =>
      cases hset : as.find? "set" with
      | none => exact .error (h.start _)
      | some set => exact (hnumber hset).andThen fun _ => .error (h.start _)
  | some binding =>
      cases hstorage : as.find? "storage" with
      | none =>
          cases hset : as.find? "set" with
          | none => exact (hnumber hbinding).andThen fun _ => .ok trivial
          | some set =>
              exact (hnumber hset).andThen fun _ => (hnumber hbinding).andThen fun _ => .ok trivial
      | some a =>
          have hflag {x : Nat × Nat × Bool} :
              Except.FailsWithin E (a.noArguments >>= fun _ => .ok x) :=
            (Attribute.failsWithin_noArguments (h.found hstorage)).andThen fun _ => .ok trivial
          cases hset : as.find? "set" with
          | none => exact (hnumber hbinding).andThen fun _ => hflag
          | some set =>
              exact (hnumber hset).andThen fun _ => (hnumber hbinding).andThen fun _ => hflag

theorem failsWithin_entryWorkgroup (stage : Stage) :
    Except.FailsWithin E (as.entryWorkgroup stage) := by
  unfold entryWorkgroup
  split
  · exact .ok trivial
  · rename_i a ha
    have hfaults := h.found ha
    exact .ite (fun _ => (Attribute.failsWithin_workgroup hfaults).andThen fun _ => .ok trivial)
      fun _ => .error (hfaults _)

/-- What is wrong with an entry point lies at its attributes. -/
theorem failsWithin_entryOf {name : String} {marker : Attribute}
    (hmarker : as.find? name = some marker) :
    Except.FailsWithin E (as.entryOf marker) := by
  have hfaults := h.found hmarker
  refine (Attribute.failsWithin_singleName hfaults).andThen fun name => ?_
  split
  · exact .error (hfaults _)
  · exact (h.failsWithin_entryWorkgroup _).andThen fun _ => .ok trivial

theorem failsWithin_entry : Except.FailsWithin E as.entry := by
  refine (h.failsWithin_check _ _).andThen fun _ => ?_
  cases hentry : as.find? "entry" with
  | none =>
      cases hstage : as.find? "stage" with
      | none =>
          cases hworkgroup : as.find? "workgroup" with
          | none => exact .ok trivial
          | some a => exact .error (h.found hworkgroup _)
      | some marker => exact (h.failsWithin_entryOf hstage).andThen fun _ => .ok trivial
  | some marker =>
      cases hstage : as.find? "stage" with
      | none => exact (h.failsWithin_entryOf hentry).andThen fun _ => .ok trivial
      | some second => exact .error (h.found hstage _)

end Attributes.FaultsWithin

/-- Errors that include every fault of an attribute, wherever it is found. -/
theorem Attributes.faultsWithin (h : ∀ fault span position, E ⟨.attribute fault, span, position⟩)
    (as : Attributes) : as.FaultsWithin E where
  start fault := h fault as.start.span as.start.position
  each a _ fault := h fault a.span a.position

end Shading
