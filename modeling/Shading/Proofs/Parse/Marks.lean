import Shading.Parse.Names

/-!
# Marks among tokens

The points and the names of structs are what a reading has to agree on with the text it
was read from: the points because a number may swallow one, the names because they say
which identifiers are types.
-/

namespace Shading

namespace Parse

/-- The points and the names after the word `struct`, in their order. -/
def marks : List Kind → List (Option String)
  | .symbol .dot :: rest => none :: marks rest
  | .keyword .struct :: .ident name :: rest => some name :: marks rest
  | _ :: rest => marks rest
  | [] => []

/-- A token that is no mark and starts none. -/
def isPlain (k : Kind) : Bool := k != .symbol .dot && k != .keyword .struct

/-- A plain token marks nothing. -/
theorem marks_cons_of_isPlain {k : Kind} (hk : isPlain k = true) (ks : List Kind) :
    marks (k :: ks) = marks ks := by
  simp only [isPlain, Bool.and_eq_true, bne_iff_ne] at hk
  cases k with
  | symbol s =>
      cases s <;> first | rfl | exact absurd rfl hk.1
  | keyword k =>
      cases k <;> first | rfl | exact absurd rfl hk.2
  | int _ | uint _ | float _ | ident _ | eof => rfl

/-- The marks of the tokens, whatever follows them. -/
def Marked (ks : List Kind) (ms : List (Option String)) : Prop :=
  ∀ rest, marks (ks ++ rest) = ms ++ marks rest

/-- Plain tokens mark nothing. -/
theorem marked_of_isPlain {ks : List Kind} (h : ∀ k ∈ ks, isPlain k = true) : Marked ks [] := by
  intro rest
  induction ks with
  | nil => rfl
  | cons k ks ih =>
      rw [List.cons_append, marks_cons_of_isPlain (h k (by simp))]
      exact ih fun l hl => h l (List.mem_cons_of_mem _ hl)

/-- Two lists of tokens with the same marks. -/
def Agree (ks ls : List Kind) : Prop := ∃ ms, Marked ks ms ∧ Marked ls ms

namespace Agree

variable {ks ls ks' ls' : List Kind} {k : Kind}

theorem of_isPlain (hks : ∀ k ∈ ks, isPlain k = true) (hls : ∀ k ∈ ls, isPlain k = true) :
    Agree ks ls := ⟨[], marked_of_isPlain hks, marked_of_isPlain hls⟩

theorem nil : Agree [] [] := of_isPlain (by simp) (by simp)

theorem append (h : Agree ks ls) (h' : Agree ks' ls') : Agree (ks ++ ks') (ls ++ ls') := by
  obtain ⟨ms, hks, hls⟩ := h
  obtain ⟨ns, hks', hls'⟩ := h'
  refine ⟨ms ++ ns, fun rest => ?_, fun rest => ?_⟩
  · rw [List.append_assoc, hks, hks', List.append_assoc]
  · rw [List.append_assoc, hls, hls', List.append_assoc]

theorem left (hks : ∀ k ∈ ks, isPlain k = true) (h : Agree ks' ls') : Agree (ks ++ ks') ls' := by
  have hnil : Agree ks [] := of_isPlain hks (by simp)
  exact append hnil h

theorem right (hls : ∀ k ∈ ls, isPlain k = true) (h : Agree ks' ls') : Agree ks' (ls ++ ls') := by
  have hnil : Agree [] ls := of_isPlain (by simp) hls
  exact append hnil h

theorem cons (hk : isPlain k = true) (h : Agree ks ls) : Agree (k :: ks) (k :: ls) := by
  have hplain : ∀ l ∈ [k], isPlain l = true := by simpa using hk
  exact append (of_isPlain hplain hplain) h

theorem consLeft (hk : isPlain k = true) (h : Agree ks ls) : Agree (k :: ks) ls := by
  have hplain : ∀ l ∈ [k], isPlain l = true := by simpa using hk
  exact left hplain h

theorem concat (hk : isPlain k = true) (h : Agree ks ls) : Agree (ks ++ [k]) (ls ++ [k]) :=
  append h (cons hk nil)

theorem dot (h : Agree ks ls) : Agree (.symbol .dot :: ks) (.symbol .dot :: ls) := by
  have hdot : Agree [.symbol .dot] [.symbol .dot] := ⟨[none], fun _ => rfl, fun _ => rfl⟩
  exact append hdot h

/-- A structure is marked by its name. -/
theorem struct (name : String) (h : Agree ks ls) :
    Agree (.keyword .struct :: .ident name :: ks) (.keyword .struct :: .ident name :: ls) := by
  have hname : Agree [.keyword .struct, .ident name] [.keyword .struct, .ident name] :=
    ⟨[some name], fun _ => rfl, fun _ => rfl⟩
  exact append hname h

theorem marks_eq (h : Agree ks ls) : marks ks = marks ls := by
  obtain ⟨ms, hks, hls⟩ := h
  calc marks ks = ms ++ marks [] := by simpa using hks []
    _ = marks ls := by simpa using (hls []).symm

end Agree

/-- The points among the tokens are the points among their marks. -/
theorem count_dot_eq (ks : List Kind) : ks.count (.symbol .dot) = (marks ks).count none := by
  induction ks using marks.induct with
  | case1 rest ih => simp [marks, ih]
  | case2 name rest ih => simp [marks, ih]
  | case3 k rest hdot hstruct ih =>
      rw [marks]
      · rw [List.count_cons_of_ne hdot, ih]
      · exact hdot
      · exact hstruct
  | case4 => rfl

/-- The names of structs among the tokens are the names among their marks. -/
theorem structNames_eq (ts : List Token) :
    Names.structNames ts = (marks (ts.map Token.kind)).filterMap id := by
  induction ts using Names.structNames.induct with
  | case1 s p t rest name ht ih =>
      have htail : marks (.ident name :: rest.map Token.kind) = marks (rest.map Token.kind) :=
        marks_cons_of_isPlain rfl _
      simp only [List.map_cons, ht, htail] at ih
      simp only [Names.structNames, ht, List.map_cons, marks, ih]
      rfl
  | case2 s p t rest hname ih =>
      have htail : marks (.keyword .struct :: t.kind :: rest.map Token.kind)
          = marks (t.kind :: rest.map Token.kind) := by
        rw [marks]
        · simp
        · intro name tail _ heq
          exact hname name (List.cons.inj heq).1
      simp only [List.map_cons] at ih ⊢
      rw [htail, ← ih, Names.structNames]
      split
      · rename_i name heq
        exact absurd heq (hname name)
      · rfl
  | case3 t rest hstruct ih =>
      have hmarks : (marks (t.kind :: rest.map Token.kind)).filterMap id
          = (marks (rest.map Token.kind)).filterMap id := by
        by_cases hplain : isPlain t.kind = true
        · rw [marks_cons_of_isPlain hplain]
        by_cases hdot : t.kind = .symbol .dot
        · rw [hdot, marks]
          rfl
        · have hkind : t.kind = .keyword .struct := by simpa [isPlain, hdot] using hplain
          cases rest with
          | nil => rw [hkind]; rfl
          | cons u rest => exact (hstruct t.span t.position u rest (by rw [← hkind]) rfl).elim
      rw [Names.structNames, List.map_cons, hmarks, ih]
      exact hstruct
  | case4 => rfl

end Parse

end Shading
