import Loom.Json.Reader
import Loom.Json.Record
import Loom.Template.Basic

/-!
Reading a document from the JSON that the front end writes.
-/

namespace Loom

/-- A byte offset: a natural number that fits a machine word. -/
def Json.offset? : Json → Option Nat := Json.natBelow? Range.wordModulus

def Range.ofJson? (j : Json) : Option Range := do
  match ← j.fields? ["start", "end"] with
  | [start, stop] => some ⟨← Json.required Json.offset? start, ← Json.required Json.offset? stop⟩
  | _ => none

namespace Template

open Json (Place required defaulted optional list)

def ScriptBlock.ofJson? (j : Json) : Option ScriptBlock := do
  match ← j.fields? ["content", "module", "lang"] with
  | [content, module, lang] =>
    some ⟨← required Range.ofJson? content, ← defaulted false Json.bool? module,
      ← optional Json.string? lang⟩
  | _ => none

def AttributeValue.ofJson? (j : Json) : Option AttributeValue := do
  match ← j.tagged? .buffered ["text", "mustache"] with
  | (0, j) =>
    match ← j.fields? ["range", "value"] with
    | [range, value] =>
      some (.text (← required Range.ofJson? range) (← required Json.string? value))
    | _ => none
  | (_, j) =>
    match ← j.fields? ["range", "expression"] with
    | [range, e] => some (.mustache (← required Range.ofJson? range) (← required Range.ofJson? e))
    | _ => none

def Directive.ofJson? (j : Json) : Option Directive := do
  match ← j.fields? ["range", "kind", "name", "nameRange", "modifiers", "expression"] with
  | [range, kind, name, nameRange, modifiers, expression] =>
    some {
      range := ← required Range.ofJson? range
      kind := ← required (Json.oneOf .buffered DirectiveKind.all DirectiveKind.keyword) kind
      name := ← required Json.string? name
      nameRange := ← optional Range.ofJson? nameRange
      modifiers := ← defaulted [] (list Json.string?) modifiers
      expression := ← optional Range.ofJson? expression
    }
  | _ => none

def Attribute.ofJson? (j : Json) : Option Attribute := do
  match ← j.tagged? .buffered ["attribute", "shorthand", "spread", "directive"] with
  | (0, j) =>
    match ← j.fields? ["range", "name", "value"] with
    | [range, name, value] =>
      some (.plain (← required Range.ofJson? range) (← required Json.string? name)
        (← defaulted [] (list AttributeValue.ofJson?) value))
    | _ => none
  | (1, j) =>
    match ← j.fields? ["range", "name", "expression"] with
    | [range, name, e] =>
      some (.shorthand (← required Range.ofJson? range) (← required Json.string? name)
        (← required Range.ofJson? e))
    | _ => none
  | (2, j) =>
    match ← j.fields? ["range", "expression"] with
    | [range, e] => some (.spread (← required Range.ofJson? range) (← required Range.ofJson? e))
    | _ => none
  | (_, j) => (Directive.ofJson? j).map .directive

/-- The tags of the markup nodes, in the order of their numbers. -/
def Markup.tags : List String :=
  ["element", "text", "mustache", "if-block", "each-block", "await-block", "key-block",
    "snippet-block", "const-tag", "render-tag"]

def Branch.ofJson? (children : Json → Option (List Markup)) (j : Json) : Option Branch := do
  match ← j.fields? ["range", "children"] with
  | [range, cs] => some (.mk (← required Range.ofJson? range) (← defaulted [] children cs))
  | _ => none

def AwaitBranch.ofJson? (children : Json → Option (List Markup)) (j : Json) :
    Option AwaitBranch := do
  match ← j.fields? ["range", "binding", "children"] with
  | [range, binding, cs] =>
    some (.mk (← required Range.ofJson? range) (← optional Range.ofJson? binding)
      (← defaulted [] children cs))
  | _ => none

/-- Reads the fields of the markup node with the given tag number, given a reader for its
children. -/
def Markup.ofFields? (children : Json → Option (List Markup)) (tag : Nat) (j : Json) :
    Option Markup := do
  match tag with
  | 0 =>
    match ← j.fields? ["name", "kind", "range", "nameRange", "attributes", "children"] with
    | [name, kind, range, nameRange, attributes, cs] =>
      some (.element (← required Json.string? name)
        (← defaulted .html (Json.oneOf .buffered ElementKind.all ElementKind.name) kind)
        (← required Range.ofJson? range) (← optional Range.ofJson? nameRange)
        (← defaulted [] (list Attribute.ofJson?) attributes) (← defaulted [] children cs))
    | _ => none
  | 1 =>
    match ← j.fields? ["range", "value"] with
    | [range, value] =>
      some (.text (← required Range.ofJson? range) (← defaulted "" Json.string? value))
    | _ => none
  | 2 =>
    match ← j.fields? ["range", "expression", "raw"] with
    | [range, e, raw] =>
      some (.mustache (← required Range.ofJson? range) (← required Range.ofJson? e)
        (← defaulted false Json.bool? raw))
    | _ => none
  | 3 =>
    match ← j.fields? ["range", "test", "elseIf", "children", "elseBranch"] with
    | [range, test, elseIf, cs, elseBranch] =>
      some (.ifBlock (← required Range.ofJson? range) (← required Range.ofJson? test)
        (← defaulted false Json.bool? elseIf) (← defaulted [] children cs)
        (← optional (Branch.ofJson? children) elseBranch))
    | _ => none
  | 4 =>
    match ← j.fields? ["range", "expression", "context", "index", "key", "children",
        "elseBranch"] with
    | [range, e, context, index, key, cs, elseBranch] =>
      some (.eachBlock (← required Range.ofJson? range) (← required Range.ofJson? e)
        (← optional Range.ofJson? context) (← optional Range.ofJson? index)
        (← optional Range.ofJson? key) (← defaulted [] children cs)
        (← optional (Branch.ofJson? children) elseBranch))
    | _ => none
  | 5 =>
    match ← j.fields? ["range", "expression", "pending", "then", "catch"] with
    | [range, e, pending, fulfilled, rejected] =>
      some (.awaitBlock (← required Range.ofJson? range) (← required Range.ofJson? e)
        (← optional (Branch.ofJson? children) pending)
        (← optional (AwaitBranch.ofJson? children) fulfilled)
        (← optional (AwaitBranch.ofJson? children) rejected))
    | _ => none
  | 6 =>
    match ← j.fields? ["range", "expression", "children"] with
    | [range, e, cs] =>
      some (.keyBlock (← required Range.ofJson? range) (← required Range.ofJson? e)
        (← defaulted [] children cs))
    | _ => none
  | 7 =>
    match ← j.fields? ["range", "name", "params", "children"] with
    | [range, name, params, cs] =>
      some (.snippetBlock (← required Range.ofJson? range) (← required Range.ofJson? name)
        (← defaulted [] (list Range.ofJson?) params) (← defaulted [] children cs))
    | _ => none
  | 8 =>
    match ← j.fields? ["range", "declaration"] with
    | [range, d] => some (.constTag (← required Range.ofJson? range) (← required Range.ofJson? d))
    | _ => none
  | _ =>
    match ← j.fields? ["range", "expression"] with
    | [range, e] => some (.renderTag (← required Range.ofJson? range) (← required Range.ofJson? e))
    | _ => none

/-- Reads a markup node. Nested nodes are buffered; each takes one unit of fuel. -/
def Markup.ofJson? : Nat → Place → Json → Option Markup
  | 0, _, _ => none
  | fuel + 1, place, j => do
    let (tag, rest) ← j.tagged? place Markup.tags
    Markup.ofFields? (list (Markup.ofJson? fuel .buffered)) tag rest

/-- The number of nested arrays and objects that a text may have. -/
def nestingLimit : Nat := 127

/-- Reads a node of the top-level list, which stands inside two containers and is buffered whole. A
node takes at least one level of nesting, so the limit is fuel enough. -/
def Markup.ofTopJson? (j : Json) : Option Markup :=
  if j.bufferable (nestingLimit - 2) then Markup.ofJson? nestingLimit .streamed j else none

def Document.ofJson? (j : Json) : Option Document := do
  match ← j.fields? ["scripts", "nodes"] with
  | [scripts, nodes] =>
    some ⟨← defaulted [] (list ScriptBlock.ofJson?) scripts,
      ← defaulted [] (list Markup.ofTopJson?) nodes⟩
  | _ => none

def Document.read? (text : Text) : Option Document := (Json.read? text).bind Document.ofJson?

end Template

end Loom
