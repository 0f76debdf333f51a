import ComponentCompiler.Config.Document
import ComponentCompiler.Error
import ComponentCompiler.Yaml.Decode

namespace ComponentCompiler.Config

def parse (text : String) : Except CompileError Config :=
  match (Yaml.parse? text).bind (Config.read Yaml.format) with
  | none => .error .unreadableConfig
  | some config => config.validate.map fun _ => config

end ComponentCompiler.Config
