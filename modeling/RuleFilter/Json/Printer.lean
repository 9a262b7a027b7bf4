import RuleFilter.Binary64.Layout
import RuleFilter.Json.Basic

/-! Writing JSON, on one line or indented by two spaces a level. -/

namespace RuleFilter.Json

def quoteChar : Char → List Char
  | '"' => ['\\', '"']
  | '\\' => ['\\', '\\']
  | '\x08' => ['\\', 'b']
  | '\x0C' => ['\\', 'f']
  | '\n' => ['\\', 'n']
  | '\r' => ['\\', 'r']
  | '\t' => ['\\', 't']
  | c =>
    if c.toNat < 0x20 then
      ['\\', 'u', '0', '0', Nat.digitChar (c.toNat / 16), Nat.digitChar (c.toNat % 16)]
    else [c]

def quote (s : String) : String := String.ofList ('"' :: s.toList.flatMap quoteChar ++ ['"'])

def compact : Json → String
  | .null => "null"
  | .bool b => if b then "true" else "false"
  | .integer i => toString i
  | .real x => String.ofList x.jsonChars
  | .string s => quote s
  | .array items => "[" ++ String.intercalate "," (items.map fun v => compact v) ++ "]"
  | .object members =>
    "\x7b" ++ String.intercalate "," (members.map fun m => quote m.1 ++ ":" ++ compact m.2) ++
      "\x7d"
decreasing_by
  · have := List.sizeOf_lt_of_mem ‹_›; simp; omega
  · have := sizeOf_member_lt ‹_›; simp; omega

def newline (depth : Nat) : String := String.ofList ('\n' :: List.replicate (2 * depth) ' ')

/-- Lines between brackets; an empty block is the two brackets. -/
def block (opening closing : String) (depth : Nat) : List String → String
  | [] => opening ++ closing
  | lines =>
    opening ++ newline (depth + 1) ++ String.intercalate ("," ++ newline (depth + 1)) lines ++
      newline depth ++ closing

/-- The indented form, for a place that is already `depth` levels deep. -/
def indented (depth : Nat) : Json → String
  | .array items => block "[" "]" depth (items.map fun v => indented (depth + 1) v)
  | .object members =>
    block "\x7b" "\x7d" depth (members.map fun m => quote m.1 ++ ": " ++ indented (depth + 1) m.2)
  | v => compact v
termination_by v => v
decreasing_by
  · have := List.sizeOf_lt_of_mem ‹_›; simp; omega
  · have := sizeOf_member_lt ‹_›; simp; omega

def pretty (v : Json) : String := indented 0 v

end RuleFilter.Json
