import Loom.Json.Printer
import Loom.Template.Basic

/-!
Writing a document as JSON: every field is present, missing values are `null`, and each markup node,
attribute and attribute part names its case in the member `type`.
-/

namespace Loom

def Range.toJson (r : Range) : Json :=
  .object [("start", .ofNat r.start), ("end", .ofNat r.stop)]

namespace Template

/-- A tagged union: the tag comes first. -/
def taggedJson (tag : String) (members : List (String × Json)) : Json :=
  .object (("type", .string tag) :: members)

def ScriptBlock.toJson (s : ScriptBlock) : Json :=
  .object [("content", s.content.toJson), ("module", .bool s.module),
    ("lang", .ofOption .string s.lang)]

def AttributeValue.toJson : AttributeValue → Json
  | .text r value => taggedJson "text" [("range", r.toJson), ("value", .string value)]
  | .mustache r e => taggedJson "mustache" [("range", r.toJson), ("expression", e.toJson)]

def Attribute.toJson : Attribute → Json
  | .plain r name value =>
    taggedJson "attribute"
      [("range", r.toJson), ("name", .string name), ("value", .ofList AttributeValue.toJson value)]
  | .shorthand r name e =>
    taggedJson "shorthand" [("range", r.toJson), ("name", .string name), ("expression", e.toJson)]
  | .spread r e => taggedJson "spread" [("range", r.toJson), ("expression", e.toJson)]
  | .directive d =>
    taggedJson "directive"
      [("range", d.range.toJson), ("kind", .string d.kind.keyword), ("name", .string d.name),
        ("nameRange", .ofOption Range.toJson d.nameRange),
        ("modifiers", .ofList .string d.modifiers),
        ("expression", .ofOption Range.toJson d.expression)]

mutual

def Markup.toJson : Markup → Json
  | .element name kind r nameRange attributes children =>
    taggedJson "element"
      [("name", .string name), ("kind", .string kind.name), ("range", r.toJson),
        ("nameRange", .ofOption Range.toJson nameRange),
        ("attributes", .ofList Attribute.toJson attributes),
        ("children", .array (Markup.listToJson children))]
  | .text r value => taggedJson "text" [("range", r.toJson), ("value", .string value)]
  | .mustache r e raw =>
    taggedJson "mustache" [("range", r.toJson), ("expression", e.toJson), ("raw", .bool raw)]
  | .ifBlock r test elseIf children elseBranch =>
    taggedJson "if-block"
      [("range", r.toJson), ("test", test.toJson), ("elseIf", .bool elseIf),
        ("children", .array (Markup.listToJson children)),
        ("elseBranch", Branch.optionToJson elseBranch)]
  | .eachBlock r e context index key children elseBranch =>
    taggedJson "each-block"
      [("range", r.toJson), ("expression", e.toJson),
        ("context", .ofOption Range.toJson context), ("index", .ofOption Range.toJson index),
        ("key", .ofOption Range.toJson key), ("children", .array (Markup.listToJson children)),
        ("elseBranch", Branch.optionToJson elseBranch)]
  | .awaitBlock r e pending fulfilled rejected =>
    taggedJson "await-block"
      [("range", r.toJson), ("expression", e.toJson), ("pending", Branch.optionToJson pending),
        ("then", AwaitBranch.optionToJson fulfilled),
        ("catch", AwaitBranch.optionToJson rejected)]
  | .keyBlock r e children =>
    taggedJson "key-block"
      [("range", r.toJson), ("expression", e.toJson),
        ("children", .array (Markup.listToJson children))]
  | .snippetBlock r name params children =>
    taggedJson "snippet-block"
      [("range", r.toJson), ("name", name.toJson), ("params", .ofList Range.toJson params),
        ("children", .array (Markup.listToJson children))]
  | .constTag r d => taggedJson "const-tag" [("range", r.toJson), ("declaration", d.toJson)]
  | .renderTag r e => taggedJson "render-tag" [("range", r.toJson), ("expression", e.toJson)]

def Markup.listToJson : List Markup → List Json
  | [] => []
  | m :: ms => m.toJson :: Markup.listToJson ms

def Branch.optionToJson : Option Branch → Json
  | none => .null
  | some (.mk r children) =>
    .object [("range", r.toJson), ("children", .array (Markup.listToJson children))]

def AwaitBranch.optionToJson : Option AwaitBranch → Json
  | none => .null
  | some (.mk r binding children) =>
    .object [("range", r.toJson), ("binding", .ofOption Range.toJson binding),
      ("children", .array (Markup.listToJson children))]

end

def Document.toJson (d : Document) : Json :=
  .object [("scripts", .ofList ScriptBlock.toJson d.scripts),
    ("nodes", .array (Markup.listToJson d.nodes))]

def Document.write (d : Document) : Text := d.toJson.write

end Template

end Loom
