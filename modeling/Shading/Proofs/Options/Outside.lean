import Shading.Proofs.Extract.Unreached
import Shading.Proofs.Options.Chosen
import Shading.Proofs.Options.Survivors

/-!
# Options outside of a stage

A stage depends on an option only if a condition at file level mentions it, or a
declaration that the stage keeps. Two choices of values that differ on other options give
the same stage.
-/

namespace Shading

open DeclarationIndex Extractor

namespace Permutation

variable {p q : Permutation}

section Cut

/-- Only tables of entries lose any of them; another statement stays whole. -/
theorem restrict_of_not_table {s : Stmt} (h : s.isTable = false) (kept : Nat → Bool) :
    restrict kept s = s := by
  cases s with
  | inputs _ _ => cases h
  | outputs _ _ => cases h
  | externals _ _ => cases h
  | options _ _ => cases h
  | consts _ _ => cases h
  | _ => rfl

/-- Entries that are specialized one by one may be dropped before or after. -/
theorem mapM_keepEntries {α β : Type} {f : α → Scoped β} {scopes scopes' : Scopes}
    (hf : ∀ {a b scopes scopes'}, f a scopes = .ok (b, scopes') → scopes' = scopes)
    (kept : Nat → Bool) {as : List α} {bs : List β} (h : as.mapM f scopes = .ok (bs, scopes')) :
    (keepEntries kept as).mapM f scopes = .ok (keepEntries kept bs, scopes') := by
  have hfrom (k : Nat) : (((as.zipIdx k).filter fun x => kept x.2).map (·.1)).mapM f scopes =
      .ok (((bs.zipIdx k).filter fun x => kept x.2).map (·.1), scopes') := by
    induction as generalizing scopes bs k with
    | nil =>
        cases h
        rfl
    | cons a rest ih =>
        obtain ⟨b, mid, bs', ha, hrest, rfl⟩ := of_mapM_cons h
        obtain rfl := hf ha
        rw [List.zipIdx_cons, List.zipIdx_cons, List.filter_cons, List.filter_cons]
        cases hkept : kept k with
        | false =>
            exact ih hrest (k + 1)
        | true =>
            rw [if_pos rfl, if_pos rfl, List.map_cons, List.map_cons, List.mapM_cons]
            rw [StateT.bind_of_ok ha, StateT.bind_of_ok (ih hrest (k + 1))]
            rfl
  exact hfrom 0

/-- A block of declarations may be cut down before it is specialized or after. -/
theorem ItemRun.restrict {s t : Stmt} (h : p.ItemRun s t) (kept : Nat → Bool) :
    p.ItemRun (restrict kept s) (restrict kept t) := by
  cases s with
  | inputs b vs =>
      cases h
      rfl
  | outputs b vs =>
      cases h
      rfl
  | externals b vs =>
      cases h
      rfl
  | options b ds =>
      obtain ⟨ds', hds, rfl⟩ := of_stmt_options h
      have hkept := mapM_keepEntries (fun hd => (of_optionDeclaration hd).choose_spec.2.1) kept hds
      simp only [ItemRun, Extractor.restrict, stmt]
      rw [StateT.bind_of_ok hkept]
      rfl
  | consts b ds =>
      obtain ⟨ds', hds, rfl⟩ := of_stmt_consts h
      have hkept := mapM_keepEntries (fun hd => (of_constDeclaration hd).choose_spec.2.1) kept hds
      simp only [ItemRun, Extractor.restrict, stmt]
      rw [StateT.bind_of_ok hkept]
      rfl
  | _ =>
      rw [restrict_of_not_table rfl, restrict_of_not_table (outline_of_stmt h).table]
      exact h

/-- An item is specialized alike if both permutations agree on what it mentions. -/
theorem ItemRun.unique (hkeep : p.config.keepOptions = q.config.keepOptions) {s t u : Stmt}
    (hp : p.ItemRun s t) (hq : q.ItemRun s u) (h : p.AgreesOn q s.nodes) : t = u := by
  rw [ItemRun, stmt_congr hkeep s h, hq] at hp
  cases hp
  rfl

theorem agreesOn_types {α : Type} (as : List α) (f : α → Ty) :
    p.AgreesOn q (as.map fun a => .type (f a)) := by
  rintro n ⟨span, hmem⟩
  simp at hmem

/-- Options on which the kept entries agree are all that their table mentions. -/
theorem agreesOn_entries {α : Type} {entries : List α} {nodes : α → List Node}
    {kept : Nat → Bool}
    (h : ∀ n, kept n = true →
      p.AgreesOn q ((keepEntries (fun m => decide (some n = some m)) entries).flatMap nodes)) :
    p.AgreesOn q ((keepEntries kept entries).flatMap nodes) := by
  rintro name ⟨span, hmem⟩
  obtain ⟨a, ha, hmem⟩ := List.mem_flatMap.mp hmem
  obtain ⟨n, hget, hkept⟩ := (mem_keepEntries_iff _ _ _).mp ha
  refine h n hkept name ⟨span, List.mem_flatMap.mpr ⟨a, ?_, hmem⟩⟩
  exact (mem_keepEntries_iff _ _ _).mpr ⟨n, hget, by simp⟩

/-- Two permutations agree on the reached part of an item if they do on every declaration
of it that is reached. -/
theorem agreesOn_restrict {s : Stmt} {i : Nat} {reached : List Site}
    (hany : reached.any (·.item = i) = true)
    (h : ∀ t ∈ reached, t.item = i → p.AgreesOn q (cut t s).nodes) :
    p.AgreesOn q
      (restrict (fun n => reached.any fun t => t.item = i && t.entry = some n) s).nodes := by
  have hentry (n : Nat) (hn : (reached.any fun t => t.item = i && t.entry = some n) = true) :
      p.AgreesOn q (restrict (fun m => decide (some n = some m)) s).nodes := by
    obtain ⟨t, ht, hplace⟩ := List.any_eq_true.mp hn
    rw [Bool.and_eq_true, decide_eq_true_eq, decide_eq_true_eq] at hplace
    rw [← hplace.2]
    exact h t ht hplace.1
  cases s with
  | inputs b vs => simp [restrict, Stmt.nodes, agreesOn_types]
  | outputs b vs => simp [restrict, Stmt.nodes, agreesOn_types]
  | externals b vs => simp [restrict, Stmt.nodes, agreesOn_types]
  | options b ds =>
      simp only [restrict, Stmt.nodes, agreesOn_cons] at hentry ⊢
      exact ⟨by simp, agreesOn_entries fun n hn => (hentry n hn).2⟩
  | consts b ds =>
      simp only [restrict, Stmt.nodes, agreesOn_cons] at hentry ⊢
      exact ⟨by simp, agreesOn_entries fun n hn => (hentry n hn).2⟩
  | _ =>
      obtain ⟨t, ht, hi⟩ := List.any_eq_true.mp hany
      exact h t ht (of_decide_eq_true hi)

/-- Two permutations that agree on what is reached of an item keep the same part of it. -/
theorem part?_of_itemRun (hkeep : p.config.keepOptions = q.config.keepOptions) {s t u : Stmt}
    (hp : p.ItemRun s t) (hq : q.ItemRun s u) {i : Nat} {reached : List Site}
    (h : ∀ r ∈ reached, r.item = i → p.AgreesOn q (cut r s).nodes) :
    part? reached t i = part? reached u i := by
  have hlibrary {a : Stmt} (ha : a.isLibrary = false) (b : Span) (path : List String) :
      a ≠ .library b path := by
    rintro rfl
    cases ha
  cases hlib : s.isLibrary with
  | true =>
      cases s with
      | library b path =>
          cases hp
          cases hq
          rfl
      | _ => cases hlib
  | false =>
      rw [part?_of_ne_library _ _ (hlibrary ((outline_of_stmt hp).library.trans hlib)),
        part?_of_ne_library _ _ (hlibrary ((outline_of_stmt hq).library.trans hlib))]
      cases hany : reached.any (·.item = i) with
      | false => rfl
      | true =>
          rw [ItemRun.unique hkeep (hp.restrict _) (hq.restrict _) (agreesOn_restrict hany h)]

end Cut

section Aligned

/-- Lists that are related place by place have related elements at each place. -/
theorem getElem?_of_forall₂ {α β : Type} {R : α → β → Prop} {as : List α} {bs : List β}
    (h : List.Forall₂ R as bs) (i : Nat) :
    as[i]? = none ∧ bs[i]? = none ∨ ∃ a b, as[i]? = some a ∧ bs[i]? = some b ∧ R a b := by
  induction h generalizing i with
  | nil => exact .inl ⟨rfl, rfl⟩
  | @cons a b _ _ hab _ ih =>
      cases i with
      | zero => exact .inr ⟨a, b, rfl, rfl, hab⟩
      | succ i => exact ih i

/-- Two relations from one list meet at every position. -/
theorem getElem?_of_forall₂_two {α β γ : Type} {R : α → β → Prop} {S : α → γ → Prop}
    {as : List α} {bs : List β} {cs : List γ} (hR : List.Forall₂ R as bs)
    (hS : List.Forall₂ S as cs) (i : Nat) :
    bs[i]? = none ∧ cs[i]? = none ∨
      ∃ a b c, as[i]? = some a ∧ bs[i]? = some b ∧ cs[i]? = some c ∧ R a b ∧ S a c := by
  rcases getElem?_of_forall₂ hR i with ⟨ha, hb⟩ | ⟨a, b, ha, hb, hab⟩
  · rcases getElem?_of_forall₂ hS i with ⟨_, hc⟩ | ⟨a, c, ha', _, _⟩
    · exact .inl ⟨hb, hc⟩
    · rw [ha] at ha'
      cases ha'
  · rcases getElem?_of_forall₂ hS i with ⟨hnone, _⟩ | ⟨a', c, ha', hc, hac⟩
    · rw [ha] at hnone
      cases hnone
    · cases ha.symm.trans ha'
      exact .inr ⟨a, b, c, ha, hb, hc, hab, hac⟩

theorem map_zipIdx_congr {α β γ : Type} (as : List α) (bs : List β) {f : α → Nat → γ}
    {g : β → Nat → γ} (h : ∀ i, (as[i]?).map (f · i) = (bs[i]?).map (g · i)) :
    as.zipIdx.map (fun x => f x.1 x.2) = bs.zipIdx.map fun x => g x.1 x.2 := by
  refine List.ext_getElem? fun i => ?_
  have hi := h i
  rw [List.getElem?_map, List.getElem?_map, List.getElem?_zipIdx, List.getElem?_zipIdx]
  cases ha : as[i]? <;> cases hb : bs[i]? <;> simp_all

variable {chosen items items' : List Stmt}

/-- The specialized items declare what the chosen ones do, at the same sites. -/
theorem allSites_of_items (h : List.Forall₂ p.ItemRun chosen items) :
    allSites items = allSites chosen := by
  have hmap := map_zipIdx_congr items chosen (f := fun s i => sites i s)
    (g := fun s i => sites i s) fun i => by
      rcases getElem?_of_forall₂ h i with ⟨hs, ht⟩ | ⟨s, t, hs, ht, hrun⟩
      · rw [hs, ht]
      · rw [hs, ht, Option.map_some, Option.map_some, (outline_of_stmt hrun).sites]
  simp only [allSites, List.flatMap_def]
  exact congrArg List.flatten hmap

theorem functions_of_items (h : List.Forall₂ p.ItemRun chosen items) :
    functions items = functions chosen := by
  have hsignature (ss : List Stmt) : functions ss = ss.filterMap Stmt.signature? := by
    rw [functions]
    apply List.filterMap_congr
    intro s _
    cases s <;> rfl
  rw [hsignature, hsignature]
  induction h with
  | nil => rfl
  | cons hrun _ ih =>
      rw [List.filterMap_cons, List.filterMap_cons, (outline_of_stmt hrun).signature, ih]

/-- No optional block is left among the specialized items. -/
theorem unspecialized?_of_items (h : List.Forall₂ p.ItemRun chosen items) :
    unspecialized? items = none := by
  rw [unspecialized?_eq_none_iff]
  intro b condition body otherwise hmem
  obtain ⟨i, hi⟩ := List.mem_iff_getElem?.mp hmem
  rcases getElem?_of_forall₂ h i with ⟨_, hnone⟩ | ⟨s, t, _, ht, hrun⟩
  · rw [hi] at hnone
    cases hnone
  · rw [hi] at ht
    cases ht
    exact absurd (outline_of_stmt hrun).optional (by simp [Stmt.isOptional])

end Aligned

/-- A source declaration is kept in a stage of the specialized items: what becomes of it is
reached from the stage's entry function. -/
def KeepsDeclaration (p : Permutation) (tree : Stmt) (items : List Stmt) (stage : Stage)
    (d : Stmt) : Prop :=
  ∃ entry t s, entrySites items stage = [entry] ∧ Reaches items entry t ∧
    (p.chosen tree)[t.item]? = some s ∧ d = cut t s

section Stages

variable {chosen items items' : List Stmt} {entry : Site}

/-- Permutations that agree on the declarations that are reached have the same reached
parts. -/
theorem sameReached_of_items (hkeep : p.config.keepOptions = q.config.keepOptions)
    (hp : List.Forall₂ p.ItemRun chosen items) (hq : List.Forall₂ q.ItemRun chosen items')
    (hentry : entry ∈ allSites items)
    (h : ∀ t s, Reaches items entry t → chosen[t.item]? = some s →
      p.AgreesOn q (cut t s).nodes) :
    SameReached items items' entry := by
  have hsites : allSites items' = allSites items :=
    (allSites_of_items hq).trans (allSites_of_items hp).symm
  refine ⟨hsites, fun t ht => ?_, ?_⟩
  · obtain ⟨a, ha, hta⟩ := (mem_allSites_iff items t).mp (mem_allSites_of_reaches hentry ht)
    rcases getElem?_of_forall₂_two hp hq t.item with
      ⟨hnone, _⟩ | ⟨s, a', b, hs, ha', hb, hsa, hsb⟩
    · rw [ha] at hnone
      cases hnone
    cases ha.symm.trans ha'
    have hcut : cut t a = cut t b :=
      ItemRun.unique hkeep (hsa.restrict _) (hsb.restrict _) (h t s ht hs)
    have htb : t ∈ sites t.item b := by
      rw [(outline_of_stmt hsb).sites, ← (outline_of_stmt hsa).sites]
      exact hta
    rw [siteUses, siteUses, externalNames, externalNames, hsites, usesOf, usesOf, ha, hb]
    simp only [declaration_cut _ hta, declaration_cut _ htb, hcut]
  · have hmap := map_zipIdx_congr items' items
      (f := fun s i => part? (reachedSites items entry) s i)
      (g := fun s i => part? (reachedSites items entry) s i) fun i => by
        rcases getElem?_of_forall₂_two hp hq i with ⟨ha, hb⟩ | ⟨s, a, b, hs, ha, hb, hsa, hsb⟩
        · rw [ha, hb]
        · rw [ha, hb, Option.map_some, Option.map_some, Option.some.injEq]
          refine (part?_of_itemRun hkeep hsa hsb fun t ht hi => ?_).symm
          exact h t s ((mem_reachedSites_iff hentry t).mp ht) (by rw [hi, hs])
    have hparts := congrArg (List.filterMap id) hmap
    rw [List.filterMap_map, List.filterMap_map] at hparts
    exact hparts

end Stages

end Permutation

namespace Specializer

/-- A name that may matter for a stage: a condition at file level mentions it, or a
declaration that the stage keeps. -/
def Matters (a : Specializer) (tree : Stmt) (stage : Stage) (n : String) : Prop :=
  (∃ c ∈ tree.fileConditions, Mentions c.nodes n) ∨
    ∃ p out d, Permutation.of a tree = .ok p ∧ a.process tree = .ok out ∧
      p.KeepsDeclaration tree (flatten out) stage d ∧ Mentions d.nodes n

/-- Options that do not matter for a stage may have any value or none: the stage is the same,
its tree with all spans and its reflection. -/
theorem extractStage_process_congr {a b : Specializer} {tree outA outB : Stmt} {stage : Stage}
    {x : ExtractedStage} (hconfig : a.config = b.config) (ha : a.process tree = .ok outA)
    (hb : b.process tree = .ok outB)
    (hdiffer : ∀ n, a.value? n ≠ b.value? n → ¬a.Matters tree stage n)
    (hx : extractStage outA stage = .ok x) : extractStage outB stage = .ok x := by
  obtain ⟨p, _, hp, hpconfig, hrunp⟩ := of_process ha
  obtain ⟨q, _, hq, hqconfig, hrunq⟩ := of_process hb
  have hkeep : p.config.keepOptions = q.config.keepOptions := by
    rw [hpconfig, hqconfig, hconfig]
  have hagrees {ns : List Node} (h : ∀ n, Mentions ns n → a.Matters tree stage n) :
      p.AgreesOn q ns := by
    intro n hn
    refine Permutation.value?_congr hconfig hp hq ?_
    by_contra hne
    exact hdiffer n hne (h n hn)
  have hchosen : p.chosen tree = q.chosen tree :=
    Permutation.chosen_congr hkeep tree fun c hc => hagrees fun n hn => .inl ⟨c, hc, hn⟩
  have hitems := Permutation.items_of_stmt tree (Permutation.itemRun_of_stmt hrunp)
  have hitems' := Permutation.items_of_stmt tree (Permutation.itemRun_of_stmt hrunq)
  rw [← hchosen] at hitems'
  refine extractStage_congr ?_ (Permutation.unspecialized?_of_items hitems') ?_
    (fun entry hone => ?_) hx
  · rw [(Permutation.outline_of_stmt hrunp).span, (Permutation.outline_of_stmt hrunq).span]
  · rw [Permutation.functions_of_items hitems, Permutation.functions_of_items hitems']
  · refine Permutation.sameReached_of_items hkeep hitems hitems'
      (mem_allSites_of_entrySites (hone ▸ List.mem_cons_self)) fun t s ht hs => ?_
    refine hagrees fun n hn => .inr ⟨p, outA, cut t s, hp, ha, ?_, hn⟩
    exact ⟨entry, t, s, hone, ht, hs, rfl⟩

/-- `option { bool S; } void g() { bool a = S; } [entry(vertex)] void main() { }` -/
def unusedTokens : List Token :=
  [.keyword .option, .symbol .lbrace, .ident "bool", .ident "S", .symbol .semicolon,
    .symbol .rbrace, .ident "void", .ident "g", .symbol .lparen, .symbol .rparen,
    .symbol .lbrace, .ident "bool", .ident "a", .symbol .eq, .ident "S", .symbol .semicolon,
    .symbol .rbrace, .symbol .lbracket, .ident "entry", .symbol .lparen, .ident "vertex",
    .symbol .rparen, .symbol .rbracket, .ident "void", .ident "main", .symbol .lparen,
    .symbol .rparen, .symbol .lbrace, .symbol .rbrace, .eof].map
      fun k => ⟨k, Span.dummy, Position.nowhere⟩

/-- An option that no kept item mentions may be bound or not. -/
theorem unused_extractStage :
    ∃ tree outA outB x, parseTokens unusedTokens Registry.standard = .ok tree ∧
      Specializer.process ⟨[("S", .bool true)], ⟨false, false⟩, .newest⟩ tree = .ok outA ∧
      Specializer.process ⟨[], ⟨false, false⟩, .newest⟩ tree = .ok outB ∧
      extractStage outA .vertex = .ok x ∧ extractStage outB .vertex = .ok x := by
  obtain ⟨tree, outA, outB, x, p, entry, s, m, f, t, hparse, ha, hb, hx, hp, hconditions, hentry,
      huses, hsource, hnodes⟩ :
      ∃ tree outA outB x p entry s m f t, parseTokens unusedTokens Registry.standard = .ok tree ∧
        Specializer.process ⟨[("S", .bool true)], ⟨false, false⟩, .newest⟩ tree = .ok outA ∧
        Specializer.process ⟨[], ⟨false, false⟩, .newest⟩ tree = .ok outB ∧
        extractStage outA .vertex = .ok x ∧
        Permutation.of ⟨[("S", .bool true)], ⟨false, false⟩, .newest⟩ tree = .ok p ∧
        tree.fileConditions = [] ∧ entrySites (flatten outA) .vertex = [entry] ∧
        siteUses (flatten outA) entry = Dependencies.empty ∧
        (p.chosen tree)[entry.item]? = some s ∧
        (cut entry s).nodes = [.stmt m, .function f, .type t] :=
    ⟨_, _, _, _, _, _, _, _, _, _, by rfl, by rfl, by rfl, by with_unfolding_all rfl, by rfl,
      by rfl, by rfl, by rfl, by rfl, by rfl⟩
  refine ⟨tree, outA, outB, x, hparse, ha, hb, hx,
    extractStage_process_congr (a := ⟨[("S", .bool true)], ⟨false, false⟩, .newest⟩)
      (b := ⟨[], ⟨false, false⟩, .newest⟩) rfl ha hb (fun n _ hmatters => ?_) hx⟩
  rcases hmatters with ⟨c, hc, _⟩ | ⟨p', out, d, hp', hout, ⟨entry', r, s', hone, hr, hs', rfl⟩, hn⟩
  · rw [hconditions] at hc
    cases hc
  · cases ha.symm.trans hout
    cases hp.symm.trans hp'
    cases hentry.symm.trans hone
    obtain rfl : r = entry := reaches_of_uses_empty huses hr
    cases hsource.symm.trans hs'
    obtain ⟨span, hmem⟩ := hn
    rw [hnodes] at hmem
    simp at hmem

end Specializer

end Shading
