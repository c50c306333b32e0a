import ShaderModule.Program.NodePath
import ShaderModule.Program.Promotion
import ShaderModule.Program.Text
import ShaderModule.Proofs.Precise.Direct
import ShaderModule.Proofs.Precise.Protocol
import ShaderModule.Proofs.Record.Emission
import ShaderModule.Proofs.Record.Exact
import ShaderModule.Proofs.Record.Stable
import ShaderModule.Proofs.Shader.Compatibility
import ShaderModule.Proofs.Shader.Idempotence
import ShaderModule.Proofs.Shader.Live
import ShaderModule.Proofs.Shader.Lists
import ShaderModule.Proofs.Shader.Persistence
import ShaderModule.Proofs.Shader.Removal
import ShaderModule.Shader.Declaration
import ShaderModule.Shader.Packing
import ShaderModule.Shader.Removal
import ShaderModule.Proofs.Shader.Arena
import ShaderModule.Proofs.Program.Trees
import ShaderModule.Proofs.Program.DebugRelocation
import ShaderModule.Proofs.Shader.Uniquing
import ShaderModule.Proofs.Record.Numbering
import ShaderModule.Proofs.Shader.SharedList
import ShaderModule.Proofs.Shader.Positions
import ShaderModule.Proofs.Precise.Conversion
import ShaderModule.Proofs.Program.Replacement
import ShaderModule.Proofs.Program.DebugIndexing
import ShaderModule.Proofs.Program.DebugSplitting
import ShaderModule.Proofs.Program.Simultaneous
import ShaderModule.Proofs.Shader.Refusal
import ShaderModule.Proofs.Precise.MarkerTypes
import ShaderModule.Proofs.Precise.RefusedSweep
import ShaderModule.Proofs.Program.RefusedEdits
import ShaderModule.Proofs.Shader.ObjectNames
import ShaderModule.Proofs.Program.ArrayLayers
import ShaderModule.Proofs.Shader.ProfileText
import ShaderModule.Proofs.Shader.ParameterShape
import ShaderModule.Proofs.Shader.IssuedTypes
import ShaderModule.Proofs.Shader.FieldSize
