import ShaderModule.Numbered

/-!
# Target profiles

A profile such as `cs_6_0` names the shader stage and the version that a module is compiled for.
Its text is the abbreviation of the stage and two decimal numerals, joined by underscores.
-/

namespace ShaderModule

/-- The shader stages, as profiles and function properties number them (`ShaderKind`). -/
inductive Stage where
  | pixel
  | vertex
  | geometry
  | hull
  | domain
  | compute
deriving DecidableEq, Repr

instance : Numbered Stage where
  all := [.pixel, .vertex, .geometry, .hull, .domain, .compute]
  code a := UInt32.ofNat a.ctorIdx
  name
    | .pixel => "Pixel"
    | .vertex => "Vertex"
    | .geometry => "Geometry"
    | .hull => "Hull"
    | .domain => "Domain"
    | .compute => "Compute"
  mem_all a := by cases a <;> decide
  nodup_code := by decide

namespace Stage

/-- The two letters that a profile of the stage starts with (`prefix`). -/
def abbreviation : Stage → String
  | .pixel => "ps"
  | .vertex => "vs"
  | .geometry => "gs"
  | .hull => "hs"
  | .domain => "ds"
  | .compute => "cs"

/-- The stage of an abbreviation (`from_prefix`). -/
def ofAbbreviation? (text : String) : Option Stage :=
  (Numbered.all : List Stage).find? fun s => s.abbreviation == text

theorem ofAbbreviation?_abbreviation (s : Stage) : ofAbbreviation? s.abbreviation = some s := by
  cases s <;> decide

end Stage

namespace Numeral

/-- The number that decimal digits write, if there is at least one and nothing but digits. -/
def digits? (digits : List Char) : Option Nat :=
  if digits.isEmpty then none
  else digits.foldlM (fun n c => if c.isDigit then some (n * 10 + (c.toNat - '0'.toNat)) else none) 0

/-- A 32-bit numeral: digits of a number that fits, with a plus sign before them or not. -/
def parse? (text : List Char) : Option UInt32 := do
  let n ← digits? (if text.head? = some '+' then text.tail else text)
  if n < UInt32.size then some (UInt32.ofNat n) else none

end Numeral

/-- What a module is compiled for: a stage, and the version of the feature set (`ShaderModel`). -/
structure Profile where
  stage : Stage
  major : UInt32
  minor : UInt32
deriving DecidableEq, Repr

namespace Profile

/-- The text of a profile, as in `cs_6_0` (`fmt`). -/
def text (p : Profile) : String :=
  p.stage.abbreviation ++ "_" ++ toString p.major.toNat ++ "_" ++ toString p.minor.toNat

/-- The pieces of a text between the occurrences of a separator. -/
def pieces (separator : Char) : List Char → List (List Char)
  | [] => [[]]
  | c :: cs =>
    match pieces separator cs with
    | [] => [[]]
    | p :: ps => if c = separator then [] :: p :: ps else (c :: p) :: ps

/-- Reads exactly three pieces: an abbreviation and two numerals (`from_str`). -/
def parse? (text : String) : Option Profile :=
  match pieces '_' text.toList with
  | [stage, major, minor] => do
    return ⟨← Stage.ofAbbreviation? (String.ofList stage), ← Numeral.parse? major,
      ← Numeral.parse? minor⟩
  | _ => none

end Profile

end ShaderModule
