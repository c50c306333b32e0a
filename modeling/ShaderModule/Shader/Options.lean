/-!
# Code-generation options

Options are the bits of one word. Five of them have a meaning; the others are reserved.
-/

namespace ShaderModule

/-- The word of options (`HlOptions`). -/
structure Options where
  bits : UInt32
deriving DecidableEq, Repr

namespace Options

/-- Row-major matrices by default, strict floating point, all resources bound, no optimisation, and
legacy constant-buffer loads, from the lowest bit up. -/
def known : UInt32 := 31

def unset : Options := ⟨0⟩

/-- The bits of a word that have no meaning. -/
def reserved (bits : UInt32) : UInt32 := bits &&& ~~~known

/-- The options of a word without reserved bits (`from_raw`). -/
def ofBits? (bits : UInt32) : Option Options :=
  if reserved bits = 0 then some ⟨bits⟩ else none

/-- The options of a word whose reserved bits are to be overlooked (`from_raw_truncate`). -/
def ofBitsKnown (bits : UInt32) : Options := ⟨bits &&& known⟩

end Options

end ShaderModule
