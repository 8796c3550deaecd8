/-!
JSON values, and their compact and indented written forms.

Objects keep their members in order, repeated names included. A text is `none` when its escapes
leave a surrogate without its partner: such a text may be skipped but stands for no string.
-/

set_option autoImplicit false

namespace Lir

inductive Json where
  | null
  | bool (value : Bool)
  | integer (value : Int)
  /-- Any other number, among them `-0`. -/
  | fraction
  | text (value : Option String)
  | array (items : List Json)
  | object (members : List (Option String × Json))

namespace Json

instance : Inhabited Json := ⟨.null⟩

def str (value : String) : Json := .text (some value)

def nat (value : Nat) : Json := .integer value

def record (members : List (String × Json)) : Json :=
  .object (members.map fun member => (some member.1, member.2))

def ofOption {α : Type} (encode : α → Json) : Option α → Json
  | some value => encode value
  | none => .null

/-- The escape of a character inside a text: quotes, backslashes and control characters have one,
all other characters stand for themselves. -/
def escape (c : Char) : List Char :=
  if c = '"' then ['\\', '"']
  else if c = '\\' then ['\\', '\\']
  else if c = '\x08' then ['\\', 'b']
  else if c = '\t' then ['\\', 't']
  else if c = '\n' then ['\\', 'n']
  else if c = '\x0c' then ['\\', 'f']
  else if c = '\r' then ['\\', 'r']
  else if c.toNat < 0x20 then
    ['\\', 'u', '0', '0', (c.toNat / 16).digitChar, (c.toNat % 16).digitChar]
  else [c]

def quote (text : String) : String := .ofList ('"' :: text.toList.flatMap escape ++ ['"'])

mutual
/-- Without any space. What has no digits or no string to show is written as something that reads
back as the same value. -/
def render : Json → String
  | .null => "null"
  | .bool true => "true"
  | .bool false => "false"
  | .integer value => toString value
  | .fraction => "-0"
  | .text (some value) => quote value
  | .text none => "\"\\ud800\""
  | .array items => "[" ++ ",".intercalate (renderItems items) ++ "]"
  | .object members => "\x7b" ++ ",".intercalate (renderMembers members) ++ "\x7d"

def renderItems : List Json → List String
  | [] => []
  | item :: rest => item.render :: renderItems rest

def renderMembers : List (Option String × Json) → List String
  | [] => []
  | (name, value) :: rest =>
    ((match name with
      | some name => quote name
      | none => "\"\\ud800\"") ++ ":" ++ value.render) :: renderMembers rest
end

def renderBlock (opening closing : String) (depth : Nat) (parts : List String) : String :=
  if parts.isEmpty then opening ++ closing
  else
    let indent := "\n" ++ String.join (List.replicate (depth + 1) "  ")
    opening ++ indent ++ ("," ++ indent).intercalate parts ++
      "\n" ++ String.join (List.replicate depth "  ") ++ closing

mutual
def renderIndented (depth : Nat) : Json → String
  | .array items => renderBlock "[" "]" depth (renderIndentedItems depth items)
  | .object members => renderBlock "\x7b" "\x7d" depth (renderIndentedMembers depth members)
  | .null => render .null
  | .bool value => render (.bool value)
  | .integer value => render (.integer value)
  | .fraction => render .fraction
  | .text value => render (.text value)

def renderIndentedItems (depth : Nat) : List Json → List String
  | [] => []
  | item :: rest => item.renderIndented (depth + 1) :: renderIndentedItems depth rest

def renderIndentedMembers (depth : Nat) : List (Option String × Json) → List String
  | [] => []
  | (name, value) :: rest =>
    (render (.text name) ++ ": " ++ value.renderIndented (depth + 1)) ::
      renderIndentedMembers depth rest
end

end Json

end Lir
