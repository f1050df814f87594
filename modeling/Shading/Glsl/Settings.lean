import Shading.Types.Stage

/-!
# Target versions and settings
-/

namespace Shading

namespace Glsl

/-- A version of the target language: 4.50 is major 4 and minor 50. -/
structure Version where
  major : UInt32
  minor : UInt32
deriving DecidableEq

namespace Version

/-- The number that the text announces, a word like its parts: 4.50 has the number 450,
and a version too large for a word has what remains modulo `2 ^ 32`. -/
def number (v : Version) : UInt32 := v.major * 100 + v.minor

/-- The version that a number such as 450 stands for. -/
def ofNumber (n : UInt32) : Version := ⟨n / 100, n % 100⟩

/-- The minor part has at least two digits. -/
def text (v : Version) : String :=
  toString v.major ++ "." ++ (if v.minor < 10 then "0" else "") ++ toString v.minor

theorem toNat_number (v : Version) :
    v.number.toNat = (v.major.toNat * 100 + v.minor.toNat) % 4294967296 := by
  simp [number, UInt32.toNat_add, UInt32.toNat_mul]

theorem number_ofNumber (n : UInt32) : (ofNumber n).number = n := by
  have bound := n.toNat_lt
  apply UInt32.toNat_inj.mp
  simp only [toNat_number, ofNumber, UInt32.toNat_div, UInt32.toNat_mod, UInt32.toNat_ofNat,
    Nat.reducePow, Nat.reduceMod]
  omega

end Version

/-- What the text is generated for. -/
structure Settings where
  version : Version
  /-- The embedded variant of the language. -/
  embedded : Bool
  /-- Descriptor sets and the other conventions of explicit graphics drivers. -/
  vulkan : Bool
  /-- The stage to generate when the tree holds entries of several. -/
  stage : Option Stage
  /-- How many bindings a set takes when sets are flattened. -/
  bindingsPerSet : Nat
deriving DecidableEq

namespace Settings

/-- Desktop 4.50. -/
def desktop : Settings := ⟨⟨4, 50⟩, false, false, none, 16⟩

/-- Desktop 4.50 with descriptor sets. -/
def forVulkan : Settings := { desktop with vulkan := true }

/-- The settings of the embedded variant; the rest is as on desktop. -/
def forEmbedded (version : Version) : Settings := { desktop with version, embedded := true }

/-- The settings with a stage to choose the entry by. -/
def withStage (s : Settings) (stage : Stage) : Settings := { s with stage := some stage }

/-- Of a pair of version numbers the one that applies. -/
def applicable (s : Settings) (desktop embedded : UInt32) : UInt32 :=
  if s.embedded then embedded else desktop

/-- Whether the version reaches the number that applies. -/
def supports (s : Settings) (desktop embedded : UInt32) : Bool :=
  s.applicable desktop embedded ≤ s.version.number

/-- Externals keep their set and binding apart. -/
def usesDescriptorSets (s : Settings) : Bool :=
  s.vulkan && !s.embedded && 450 ≤ s.version.number

/-- Bindings are written at all. -/
def writesBindings (s : Settings) : Bool := s.supports 420 310

end Settings

end Glsl

end Shading
