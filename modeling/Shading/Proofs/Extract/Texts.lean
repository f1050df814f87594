import Shading.Proofs.Extract.Alike
import Shading.Proofs.Extract.Kept
import Shading.Proofs.Extract.Unreached

/-!
# Declarations without their places

What a declaration is, apart from where it stands: its item cut down to it, without spans.
It tells the category and the name of the declaration and the names that it refers to. When
a file has all that is reached in another one, the same is reached in it.
-/

namespace Shading

namespace Extractor

open DeclarationIndex

/-- The declaration of a site without its place. -/
def textAt (items : List Stmt) (s : Site) : Option Stmt :=
  items[s.item]?.map fun item => (cut s item).eraseSpans

section Texts

variable {items : List Stmt} {item : Stmt} {i : Nat} {s : Site}

/-- A site stands in an item, and its text is cut from that. -/
theorem textAt_of_mem_allSites (hs : s ∈ allSites items) :
    ∃ item, items[s.item]? = some item ∧ s ∈ sites s.item item ∧
      textAt items s = some (cut s item).eraseSpans := by
  obtain ⟨item, hget, hsite⟩ := (mem_allSites_iff items s).mp hs
  exact ⟨item, hget, hsite, by rw [textAt, hget]; rfl⟩

/-- Of all declarations of its item a declaration alone stays when the item is cut down to it. -/
theorem filter_staysIn (hs : s ∈ sites i item) :
    (sites i item).filter (staysIn fun n => decide (s.entry = some n)) = [s] := by
  refine List.perm_singleton.mp ((List.perm_ext_iff_of_nodup
    ((nodup_entries_sites i item).of_map.filter _) (List.nodup_singleton s)).mpr fun t => ?_)
  rw [List.mem_filter, List.mem_singleton]
  constructor
  · rintro ⟨ht, hstays⟩
    cases hentry : t.entry with
    | none => rw [sites_of_entry_eq_none ht hentry] at hs; exact (List.mem_singleton.mp hs).symm
    | some n =>
        rw [staysIn, hentry, decide_eq_true_eq] at hstays
        exact List.inj_on_of_nodup_map (nodup_entries_sites i item) ht hs
          (hentry.trans hstays.symm)
  · rintro rfl
    exact ⟨hs, by cases hentry : t.entry <;> simp [staysIn, hentry]⟩

/-- What an item contributes when it is cut down to a declaration. -/
theorem BySite.cut {β : Type} {f : Stmt → List β} {g : Site → List β} (hfg : BySite items f g)
    (hget : items[s.item]? = some item) (hs : s ∈ sites s.item item) :
    f (Extractor.cut s item) = g s := by
  rw [Extractor.cut, hfg.restrict _ _ hget, filter_staysIn hs, List.flatMap_singleton]

/-- What an item declares does not depend on spans. -/
theorem declares_eraseSpans (item : Stmt) : declares item.eraseSpans = declares item := by
  cases item <;> simp [declares, sites, map_blockSites, Function.comp_def] <;>
    intros <;> rfl

/-- The entries of blocks are the sites with a position in their item. -/
theorem entry_of_mem_sites (hs : s ∈ sites i item) :
    (s.entry.map fun _ => 0) = if (cut s item).eraseSpans.isTable then some 0 else none := by
  have hblock {α : Type} {c : Category} {name : α → String} {span : α → Span}
      {entries : List α} (h : s ∈ blockSites c i name span entries) :
      (s.entry.map fun _ => 0) = some 0 := by
    obtain ⟨_, _, rfl⟩ := List.mem_map.mp h
    rfl
  cases item with
  | inputs p vs => exact hblock hs
  | outputs p vs => exact hblock hs
  | externals p vs => exact hblock hs
  | consts p ds => exact hblock hs
  | options p ds => exact hblock hs
  | function p f body => rw [List.mem_singleton.mp hs]; rfl
  | struct p d => rw [List.mem_singleton.mp hs]; rfl
  | var p d => rw [List.mem_singleton.mp hs]; rfl
  | _ => cases hs

end Texts

section Two

variable {items items' : List Stmt} {s s' : Site}

/-- The text of a declaration tells its category and its name. -/
theorem declares_of_textAt (hs : s ∈ allSites items) (hs' : s' ∈ allSites items')
    (h : textAt items' s' = textAt items s) : s'.category = s.category ∧ s'.name = s.name := by
  obtain ⟨item, hget, hsite, htext⟩ := textAt_of_mem_allSites hs
  obtain ⟨item', hget', hsite', htext'⟩ := textAt_of_mem_allSites hs'
  rw [htext, htext', Option.some.injEq] at h
  have hdeclares := congrArg declares h
  rw [declares_eraseSpans, declares_eraseSpans, (bySite_declares items).cut hget hsite,
    (bySite_declares items').cut hget' hsite'] at hdeclares
  simpa using hdeclares

/-- The text of a declaration tells the names that it refers to. -/
theorem namesOf_of_textAt (hs : s ∈ allSites items) (hs' : s' ∈ allSites items')
    (h : textAt items' s' = textAt items s) (k : Category) (n : String) :
    n ∈ (siteUses items' s').namesOf k ↔ n ∈ (siteUses items s).namesOf k := by
  have huses {items : List Stmt} {s : Site} (hs : s ∈ allSites items) {text : Stmt}
      (h : textAt items s = some text) :
      n ∈ (siteUses items s).namesOf k ↔
        n ∈ ((Collector.new []).declaration text
          (if text.isTable then some 0 else none)).found.namesOf k := by
    obtain ⟨item, hget, hsite, htext⟩ := textAt_of_mem_allSites hs
    rw [htext, Option.some.injEq] at h
    subst h
    rw [siteUses, usesOf, hget, ← entry_of_mem_sites hsite]
    dsimp only
    rw [declaration_cut _ hsite]
    exact ((Collector.Alike.new (externalNames items) []).declaration (cut s item) _).symm.names k n
  obtain ⟨item, _, _, htext⟩ := textAt_of_mem_allSites hs
  rw [huses hs htext, huses hs' (h.trans htext)]

/-- When a file has all that is reached in another one, it is reached in it from the
declaration that the entry stands for. -/
theorem reaches_of_textAt {entry entry' : Site} (hentry : entry ∈ allSites items)
    (hall : ∀ t, Reaches items entry t → ∃ t' ∈ allSites items', textAt items' t' = textAt items t)
    (hone : ∀ t' ∈ allSites items', textAt items' t' = textAt items entry → t' = entry')
    {t : Site} (ht : Reaches items entry t) {t' : Site} (ht' : t' ∈ allSites items')
    (h : textAt items' t' = textAt items t) : Reaches items' entry' t' := by
  induction ht generalizing t' with
  | refl => rw [hone t' ht' h]
  | @tail b c hb href ih =>
      obtain ⟨b', hb', htext⟩ := hall b hb
      refine (ih hb' htext).tail ⟨ht', ?_⟩
      obtain ⟨hcategory, hname⟩ := declares_of_textAt href.1 ht' h
      rw [hcategory, hname, namesOf_of_textAt (mem_allSites_of_reaches hentry hb) hb' htext]
      exact href.2

/-- So it resolves what is resolved in the other one, if it declares the same names. -/
theorem resolves_of_textAt (hs : s ∈ allSites items) (hs' : s' ∈ allSites items')
    (h : textAt items' s' = textAt items s) {kept : List Site}
    (hresolves : (siteUses items s).Resolves kept) : (siteUses items' s').Resolves kept := by
  have hnames := namesOf_of_textAt hs hs' h
  exact ⟨fun n hn => hresolves.functions n ((hnames .function n).mp hn),
    fun n hn => hresolves.structs n ((hnames .struct n).mp hn),
    fun n hn => hresolves.values n ((hnames .global n).mp hn)⟩

/-- Whether a declaration is an entry of the stage is read off its item. -/
theorem mem_entrySites_iff {stage : Stage} (hs : s ∈ allSites items) :
    s ∈ entrySites items stage ↔ ∃ item,
      items[s.item]? = some item ∧ item.stageEntries stage ≠ [] := by
  obtain ⟨item, hget, hsite, _⟩ := textAt_of_mem_allSites hs
  constructor
  · intro h
    obtain ⟨⟨f, t⟩, hf, rfl⟩ := List.mem_map.mp h
    obtain ⟨hf, hstage⟩ := List.mem_filter.mp hf
    obtain ⟨⟨item, j⟩, hitem, hsite⟩ := List.mem_filterMap.mp hf
    cases item with
    | function p g body =>
        cases hsite
        exact ⟨_, List.mem_zipIdx_iff_getElem?.mp hitem, by simp [Stmt.stageEntries, hstage]⟩
    | _ => cases hsite
  · rintro ⟨item', hget', hstage⟩
    obtain rfl : item = item' := Option.some.inj (hget.symm.trans hget')
    cases item with
    | function p f body =>
        have hentry : f.isEntryFor stage = true := by
          by_contra hother
          exact hstage (if_neg hother)
        refine List.mem_map.mpr ⟨(f, s), List.mem_filter.mpr ⟨?_, hentry⟩, rfl⟩
        refine List.mem_filterMap.mpr ⟨(_, s.item), List.mem_zipIdx_iff_getElem?.mpr hget, ?_⟩
        exact congrArg (fun t => some (f, t)) (List.mem_singleton.mp hsite).symm
    | _ => exact absurd rfl hstage

theorem stageEntries_eraseSpans (stage : Stage) (item : Stmt) :
    (item.eraseSpans.stageEntries stage).map (·.1) =
      (item.stageEntries stage).map (·.1.erased) := by
  cases item with
  | function p f body =>
      have hentry : f.erased.isEntryFor stage = f.isEntryFor stage := rfl
      rw [Stmt.erased_function, Stmt.stageEntries, Stmt.stageEntries, hentry]
      cases f.isEntryFor stage <;> rfl
  | _ => simp [Stmt.stageEntries]

/-- The text of an entry function is that of an entry of the stage. -/
theorem mem_entrySites_of_textAt {stage : Stage} (hs : s ∈ entrySites items stage)
    (hs' : s' ∈ allSites items') (h : textAt items' s' = textAt items s) :
    s' ∈ entrySites items' stage := by
  have hin := mem_allSites_of_entrySites hs
  obtain ⟨item, hget, hsite, htext⟩ := textAt_of_mem_allSites hin
  obtain ⟨item', hget', hsite', htext'⟩ := textAt_of_mem_allSites hs'
  obtain ⟨_, hget'', hstage⟩ := (mem_entrySites_iff hin).mp hs
  obtain rfl := Option.some.inj (hget.symm.trans hget'')
  have hcut {items : List Stmt} {s : Site} {item : Stmt} (hget : items[s.item]? = some item)
      (hsite : s ∈ sites s.item item) :
      ((cut s item).eraseSpans.stageEntries stage).map (·.1) =
        (item.stageEntries stage).map (·.1.erased) := by
    rw [stageEntries_eraseSpans, (bySite_stageEntries items stage).cut hget hsite, hget,
      Option.toList_some, List.flatMap_singleton]
  rw [htext, htext', Option.some.injEq] at h
  have heq := hcut hget' hsite'
  rw [h, hcut hget hsite] at heq
  refine (mem_entrySites_iff hs').mpr ⟨item', hget', fun hnone => hstage ?_⟩
  rw [hnone] at heq
  exact List.map_eq_nil_iff.mp heq

end Two

end Extractor

end Shading
