import TangledGraph.Decimal.Layout
import TangledGraph.Json.Value
import TangledGraph.Text.Reader

/-!
# Writing JSON text

Values without white space; floats with the fewest digits that read back.
-/
namespace TangledGraph.Json

def escapeChar (c : Char) : List Char :=
  if c = '"' then ['\\', '"']
  else if c = '\\' then ['\\', '\\']
  else if c = '\n' then ['\\', 'n']
  else if c = '\r' then ['\\', 'r']
  else if c = '\t' then ['\\', 't']
  else if c = '\x08' then ['\\', 'b']
  else if c = '\x0c' then ['\\', 'f']
  else if c.toNat < 0x20 then '\\' :: 'u' :: Text.hexDigits 4 c.toNat
  else [c]

def quoted (s : String) : String :=
  "\"" ++ String.ofList (s.toList.flatMap escapeChar) ++ "\""

def numeral (x : Float) : String :=
  if x.isFinite then Decimal.compact x else "null"

mutual

def render : Json → String
  | null | unrepresentable => "null"
  | bool b => if b then "true" else "false"
  | integer n => toString n
  | real x => numeral x
  | string s => quoted s
  | array items => "[" ++ ",".intercalate (renderItems items) ++ "]"
  | object fields => "\x7b" ++ ",".intercalate (renderFields fields) ++ "\x7d"

def renderItems : List Json → List String
  | [] => []
  | j :: rest => j.render :: renderItems rest

def renderFields : List (String × Json) → List String
  | [] => []
  | (name, j) :: rest => (quoted name ++ ":" ++ j.render) :: renderFields rest

end

end TangledGraph.Json
