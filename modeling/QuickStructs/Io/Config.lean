import QuickStructs.Utils.TomlParser
import QuickStructs.Lib.Decimal

/-!
# The configuration

`Config` reads its file with a parser of its own, and looks up what it is asked for. The port
is a text in the file; it becomes an `int`, and then 16 bits of it. The log messages are
left out.
-/

namespace QuickStructs.Io

open TomlParser Lib.Decimal

/-- `Config` -/
structure Config where
  mConfigPath : String := ""
  mParser : Parser := {}

/-- `Config(path)` -/
def Config.new (path : String) : Config where
  mConfigPath := path
  mParser := { mFilepath := path }

/-- `parse_config` -/
def Config.parseConfig (c : Config) (files : String → Option Str) : Bool × Config :=
  match c.mParser.load files with
  | (.ok success, parser) => (success, { c with mParser := parser })
  | (.error _, parser) => (false, { c with mParser := parser })

/-- `"network"` -/
def network : Str := ['n', 'e', 't', 'w', 'o', 'r', 'k']

/-- `"port"` -/
def port : Str := ['p', 'o', 'r', 't']

/-- `get_market_ip` -/
def Config.getMarketIp (c : Config) : Str := (c.mParser.getValue network ['i', 'p']).getD []

/-- `get_market_port` -/
def Config.getMarketPort (c : Config) : UInt16 :=
  match c.mParser.getValue network port with
  | none => 0
  | some opt =>
    match stoi opt with
    | some val => if val < 0 then 0 else UInt16.ofInt val
    | none => 0

end QuickStructs.Io
