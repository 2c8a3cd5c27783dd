import MipsToolchain.Settings.Basic
import MipsToolchain.Yaml.Writer

namespace MipsToolchain.Settings

/-- Settings as text that reads back as these settings. -/
def render (s : Settings) : String :=
  "arch: " ++ s.version.name ++ "\n"
    ++ "pseudo: " ++ toString s.pseudo ++ "\n"
    ++ "endian: " ++ s.order.name ++ "\n"
    ++ "werror: " ++ toString s.strict ++ "\n"
    ++ "link:\n"
    ++ "    text-base: " ++ toString s.link.textBase ++ "\n"
    ++ "    data-base: " ++ toString s.link.dataBase ++ "\n"
    ++ "    entry: " ++ Yaml.rawText 8 s.link.entry

end MipsToolchain.Settings
