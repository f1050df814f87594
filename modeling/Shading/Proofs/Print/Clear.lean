import Shading.Proofs.Print.Lines
import Shading.Proofs.Print.Pieces
import Shading.Proofs.Token.Digits

/-!
# Texts without pairs

A printed text is names with words and signs between them. It has no carriage return right
before a line feed if no name has, since a name never ends a line.
-/

namespace Shading

variable {H : Prop} {s t : String}

/-- The text has no pair if the names count. Where `H` does not hold, nothing is asked of the
characters. -/
def Clear (H : Prop) (s : String) : Prop := H → Unpaired s.toList

/-- A clear text that a line feed may follow. -/
def Sealed (H : Prop) (s : String) : Prop := H → Unpaired (s.toList ++ ['\n'])

/-- Whether a character is no part of a line end. -/
def staysOnLine (c : Char) : Bool := c ≠ '\r' && c ≠ '\n'

/-- Whether the text breaks no line. -/
def isInline (s : String) : Bool := s.toList.all staysOnLine

/-- Whether the text breaks no line and is not empty. -/
def isWord (s : String) : Bool := isInline s && s ≠ ""

theorem isInline_iff : isInline s = true ↔ ∀ c ∈ s.toList, c ≠ '\r' ∧ c ≠ '\n' := by
  simp [isInline, staysOnLine]

theorem isInline_of_isWord (h : isWord s = true) : isInline s = true :=
  (Bool.and_eq_true_iff.mp h).1

@[simp] theorem isInline_append : isInline (s ++ t) = (isInline s && isInline t) := by
  simp [isInline]

theorem isInline_ite {c : Prop} [Decidable c] (hs : isInline s = true) (ht : isInline t = true) :
    isInline (if c then s else t) = true := by
  split
  · exact hs
  · exact ht

@[simp] theorem isInline_ofList {cs : List Char} :
    isInline (String.ofList cs) = cs.all staysOnLine := by
  simp [isInline]

namespace Sealed

theorem clear (h : Sealed H s) : Clear H s := fun hH => (Unpaired.append_iff.mp (h hH)).1

/-- A sealed text has no carriage return at its end, so that any clear text may follow. -/
theorem append (hs : Sealed H s) (ht : Clear H t) : Clear H (s ++ t) := by
  intro hH
  obtain ⟨hleft, -, hlast⟩ := Unpaired.append_iff.mp (hs hH)
  rw [String.toList_append, Unpaired.append_iff]
  exact ⟨hleft, ht hH, fun h => absurd rfl (hlast h)⟩

/-- Two sealed texts make a sealed one. -/
theorem concat (hs : Sealed H s) (ht : Sealed H t) : Sealed H (s ++ t) := by
  intro hH
  have hline : Clear H (t ++ "\n") := fun _ => by simpa using ht hH
  simpa using hs.append hline hH

theorem of_isInline (h : isInline s = true) : Sealed H s := fun _ => by
  rw [isInline_iff] at h
  refine .of_notMem fun hmem => ?_
  rcases List.mem_append.mp hmem with hmem | hmem
  · exact (h _ hmem).1 rfl
  · exact absurd (List.mem_singleton.mp hmem) (by decide)

theorem word (h : isWord s = true) : Sealed H s := of_isInline (isInline_of_isWord h)

end Sealed

namespace Clear

theorem of_isInline (h : isInline s = true) : Clear H s := (Sealed.of_isInline h).clear

/-- What is on the line after a name may be anything but the end of the line. -/
theorem inline (hs : Clear H s) (ht : isInline t = true) : Clear H (s ++ t) := by
  intro hH
  rw [String.toList_append, Unpaired.append_iff]
  refine ⟨hs hH, of_isInline ht hH, fun _ hhead => ?_⟩
  exact (isInline_iff.mp ht _ (List.mem_of_mem_head? hhead)).2 rfl

/-- A word after a name seals it. -/
theorem word (hs : Clear H s) (ht : isWord t = true) : Sealed H (s ++ t) := by
  intro hH
  have hinline := isInline_iff.mp (isInline_of_isWord ht)
  have hne : t.toList ≠ [] := by
    have hne : t ≠ "" := by simpa using (Bool.and_eq_true_iff.mp ht).2
    simpa using hne
  rw [Unpaired.append_iff]
  refine ⟨hs.inline (isInline_of_isWord ht) hH, .of_notMem (by decide), fun hlast => ?_⟩
  rw [String.toList_append, List.getLast?_append_of_ne_nil _ hne] at hlast
  exact absurd rfl (hinline _ (List.mem_of_getLast? hlast)).1

/-- After a line feed any text may follow, another line feed too. -/
theorem sealed (hs : Clear H s) (hends : EndsLine s.toList) : Sealed H s := by
  intro hH
  rw [Unpaired.append_iff]
  refine ⟨hs hH, .of_notMem (by decide), fun hlast => ?_⟩
  exact absurd (hends _ hlast) (by decide)

theorem between {m : String} (hs : Clear H s) (hm : isWord m = true) (ht : Clear H t) :
    Clear H (s ++ m ++ t) := (hs.word hm).append ht

end Clear

section Words

theorem staysOnLine_of_isDigit {c : Char} (h : Number.isDigit c = true) :
    staysOnLine c = true := by
  rw [staysOnLine, Bool.and_eq_true, decide_eq_true_eq, decide_eq_true_eq]
  constructor <;> rintro rfl <;> exact absurd h (by decide)

/-- A number is written on one line. -/
theorem all_toDigits (n : Nat) : (Nat.toDigits 10 n).all staysOnLine = true := by
  rw [List.all_eq_true]
  exact fun c hc => staysOnLine_of_isDigit (Number.isDigit_of_mem_toDigits hc)

@[simp] theorem isInline_toString (n : Nat) : isInline (toString n) = true := by
  have htext : (toString n).toList = Nat.toDigits 10 n := Nat.toList_repr
  rw [isInline, htext]
  exact all_toDigits n

@[simp] theorem isInline_toString_int (i : Int) : isInline (toString i) = true := by
  cases i with
  | ofNat n => exact isInline_toString n
  | negSucc n =>
      change isInline ("-" ++ toString (n + 1)) = true
      rw [isInline_append, isInline_toString]
      decide

/-- The layout of a number only adds a point, zeros and an exponent. -/
theorem all_layout {digits : List Char} (h : digits.all staysOnLine = true) (lead : Int) :
    (Binary32.layout digits lead).all staysOnLine = true := by
  have hlead : (toString lead).toList.all staysOnLine = true := isInline_toString_int lead
  have hzeros (n : Nat) : (List.replicate n '0').all staysOnLine = true := by
    simp [staysOnLine]
  have htake (n : Nat) : (digits.take n).all staysOnLine = true := by
    rw [List.all_eq_true] at h ⊢
    exact fun c hc => h c (List.mem_of_mem_take hc)
  have hdrop (n : Nat) : (digits.drop n).all staysOnLine = true := by
    rw [List.all_eq_true] at h ⊢
    exact fun c hc => h c (List.mem_of_mem_drop hc)
  have hsigns : staysOnLine '.' = true ∧ staysOnLine 'e' = true ∧ staysOnLine '0' = true := by
    decide
  obtain ⟨hpoint, he, hzero⟩ := hsigns
  unfold Binary32.layout
  dsimp only
  split
  · split <;> simp only [List.all_append, List.all_cons, List.all_nil, htake, hdrop, hlead, hpoint,
      he, Bool.and_self]
  · split
    · simp only [List.all_append, List.all_cons, hzeros, hpoint, hzero, h, Bool.and_self]
    · split <;> simp only [List.all_append, List.all_cons, List.all_nil, htake, hdrop, hzeros,
        hpoint, hzero, Bool.and_self]

/-- The text of a constant breaks no line. -/
theorem isInline_text (c : Constant) : isInline c.text = true := by
  cases c with
  | bool b => cases b <;> decide
  | int i => exact isInline_toString_int i.toInt
  | uint u =>
      rw [Constant.text, isInline_append, isInline_toString]
      decide
  | float x =>
      have hmagnitude : x.magnitudeChars.all staysOnLine = true := by
        unfold Binary32.magnitudeChars
        split
        · decide
        · split
          · decide
          · split
            · decide
            · exact all_layout (all_toDigits _) _
      rw [Constant.text, Binary32.text, isInline_ofList]
      split
      · rw [List.all_cons, hmagnitude]
        decide
      · exact hmagnitude

theorem isInline_suffixes (t : Ty) : isInline t.suffixes = true := by
  rw [Ty.suffixes]
  generalize t.dims = dims
  induction dims with
  | nil => decide
  | cons d ds ih =>
      have hd : isInline d.text = true := by
        cases d with
        | implicit => decide
        | fixed n =>
            simp only [ArraySize.text, isInline_append, isInline_toString]
            decide
      rw [List.map_cons, String.join_cons, isInline_append, hd, ih]
      rfl

theorem isInline_swizzle (w : Swizzle) : isInline w.text = true := by
  have hletters : w.set.letters.all staysOnLine = true := by
    cases w.set <;> decide
  rw [Swizzle.text, isInline_ofList, List.all_map, List.all_eq_true]
  intro i _
  rw [Function.comp_apply, List.getD_eq_getElem?_getD]
  cases hi : w.set.letters[i]? with
  | none => decide
  | some c => exact List.all_eq_true.mp hletters c (List.mem_of_getElem? hi)

theorem isInline_targetName (f : BuiltinFunction) : isInline f.targetName = true := by
  cases f <;> decide

theorem isInline_builtin (f : BuiltinFunction) : isInline f.name = true := by
  cases f <;> decide

end Words

namespace Clear

theorem type {t : Ty} (h : Clear H t.baseName) : Clear H t.text := h.inline (isInline_suffixes t)

/-- Clear texts between words are clear. -/
theorem intercalate {m : String} (hm : isWord m = true) {parts : List String}
    (h : ∀ p ∈ parts, Clear H p) : Clear H (String.intercalate m parts) := by
  induction parts with
  | nil => exact of_isInline rfl
  | cons p ps ih =>
      have hp : Clear H p := h p List.mem_cons_self
      cases ps with
      | nil => simpa using hp
      | cons q qs =>
          rw [String.intercalate_cons_cons]
          exact hp.between hm (ih fun r hr => h r (List.mem_cons_of_mem _ hr))

/-- A name and a list in parentheses. -/
theorem list {parts : List String} (hs : Clear H s) (h : ∀ p ∈ parts, Clear H p) :
    Sealed H (s ++ parenthesizedList parts) := by
  rw [parenthesizedList, ← String.append_assoc, ← String.append_assoc]
  exact (hs.between (by decide) (intercalate (by decide) h)).word (by decide)

end Clear

namespace Kind

/-- A name without pairs, or any other token. -/
def IsClear (H : Prop) : Kind → Prop
  | .ident name => Clear H name
  | _ => True

/-- All of the tokens are clear. -/
def AllClear (H : Prop) (ks : List Kind) : Prop := ∀ k ∈ ks, k.IsClear H

variable {k : Kind} {ks ls : List Kind}

/-- Where names do not count, all are clear. -/
theorem allClear_false (ks : List Kind) : AllClear False ks := by
  intro k _
  cases k with
  | ident name => exact False.elim
  | _ => exact trivial

@[simp] theorem isClear_ident {name : String} : (ident name).IsClear H ↔ Clear H name := Iff.rfl

@[simp] theorem isClear_symbol {x : Symbol} : (symbol x).IsClear H := trivial

@[simp] theorem isClear_keyword {x : Keyword} : (keyword x).IsClear H := trivial

@[simp] theorem isClear_int {n : Nat} : (int n).IsClear H := trivial

@[simp] theorem allClear_nil : AllClear H [] := by
  simp [AllClear]

@[simp] theorem allClear_cons : AllClear H (k :: ks) ↔ k.IsClear H ∧ AllClear H ks := by
  simp [AllClear]

@[simp] theorem allClear_append : AllClear H (ks ++ ls) ↔ AllClear H ks ∧ AllClear H ls := by
  simp [AllClear, or_imp, forall_and]

@[simp] theorem allClear_parenthesized : AllClear H (parenthesized ks) ↔ AllClear H ks := by
  simp [parenthesized]

@[simp] theorem allClear_braced : AllClear H (braced ks) ↔ AllClear H ks := by
  simp [braced]

@[simp] theorem allClear_wrapped {parens : Bool} :
    AllClear H (wrapped parens ks) ↔ AllClear H ks := by
  cases parens <;> simp [wrapped]

@[simp] theorem allClear_flatMap {α : Type} {xs : List α} {f : α → List Kind} :
    AllClear H (xs.flatMap f) ↔ ∀ x ∈ xs, AllClear H (f x) := by
  induction xs with
  | nil => simp
  | cons x xs ih => simp [ih]

/-- Commas are clear, so the parts decide. -/
theorem allClear_commas {parts : List (List Kind)} :
    AllClear H (Parse.commas parts) ↔ ∀ part ∈ parts, AllClear H part := by
  induction parts with
  | nil => simp [Parse.commas]
  | cons p ps ih =>
      cases ps with
      | nil => simp [Parse.commas]
      | cons q qs => simp [Parse.commas, ih]

@[simp] theorem allClear_argumentList {parts : List (List Kind)} :
    AllClear H (Parse.argumentList parts) ↔ ∀ part ∈ parts, AllClear H part := by
  simp [Parse.argumentList, allClear_commas]

/-- Of a type only the name at its base is a name. -/
@[simp] theorem allClear_type {t : Ty} : AllClear H t.kinds ↔ Clear H t.baseName := by
  have hdims (d : ArraySize) : AllClear H d.kinds := by
    cases d <;> simp [ArraySize.kinds]
  simp [Ty.kinds, hdims]

/-- Points are clear, so the names decide. -/
@[simp] theorem allClear_dottedKinds {path : List String} :
    AllClear H (dottedKinds path) ↔ ∀ part ∈ path, Clear H part := by
  induction path with
  | nil => simp [dottedKinds]
  | cons p ps ih =>
      cases ps with
      | nil => simp [dottedKinds]
      | cons q qs => simp [dottedKinds, ih]

/-- A literal has no names. -/
@[simp] theorem allClear_literal {c : Constant} : AllClear H c.literal := by
  have hmagnitude : c.magnitude.IsClear H := by
    cases c <;> exact trivial
  unfold Constant.literal
  split <;> simp [hmagnitude]

end Kind

end Shading
