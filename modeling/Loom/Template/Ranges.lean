import Loom.Template.Basic

/-!
The ranges that a document records, and their validation against a source text.

`Document.recordedRanges` lists every range of a document with its role, in the order in which they
are checked; `Document.validate` reports the first one that does not cut the source at boundaries.
-/

namespace Loom.Template

inductive RangeRole where
  | scriptContent
  | node
  | elementName
  | attribute
  | attributeText
  | attributeValue
  | attributeExpression
  | shorthandExpression
  | spreadExpression
  | directiveName
  | directiveExpression
  | mustacheExpression
  | ifTest
  | elseBranch
  | eachExpression
  | eachContext
  | eachIndex
  | eachKey
  | awaitExpression
  | pendingBranch
  | awaitBranch
  | awaitBinding
  | keyExpression
  | snippetName
  | snippetParameter
  | constDeclaration
  | renderExpression
deriving DecidableEq, Repr

def RangeRole.label : RangeRole → String
  | .scriptContent => "script content"
  | .node => "node"
  | .elementName => "element name"
  | .attribute => "attribute"
  | .attributeText => "attribute text"
  | .attributeValue => "attribute value"
  | .attributeExpression => "attribute expression"
  | .shorthandExpression => "shorthand expression"
  | .spreadExpression => "spread expression"
  | .directiveName => "directive name"
  | .directiveExpression => "directive expression"
  | .mustacheExpression => "mustache expression"
  | .ifTest => "if test"
  | .elseBranch => "else branch"
  | .eachExpression => "each expression"
  | .eachContext => "each context"
  | .eachIndex => "each index"
  | .eachKey => "each key"
  | .awaitExpression => "await expression"
  | .pendingBranch => "pending branch"
  | .awaitBranch => "await branch"
  | .awaitBinding => "await binding"
  | .keyExpression => "key expression"
  | .snippetName => "snippet name"
  | .snippetParameter => "snippet parameter"
  | .constDeclaration => "const declaration"
  | .renderExpression => "render expression"

abbrev RecordedRange := RangeRole × Range

def recordedOption (role : RangeRole) (r : Option Range) : List RecordedRange :=
  r.toList.map fun r => (role, r)

def AttributeValue.recordedRanges : AttributeValue → List RecordedRange
  | .text r _ => [(.attributeText, r)]
  | .mustache r e => [(.attributeValue, r), (.attributeExpression, e)]

def Attribute.recordedRanges : Attribute → List RecordedRange
  | .plain r _ value => (.attribute, r) :: value.flatMap AttributeValue.recordedRanges
  | .shorthand r _ e => [(.attribute, r), (.shorthandExpression, e)]
  | .spread r e => [(.attribute, r), (.spreadExpression, e)]
  | .directive d =>
    (.attribute, d.range) :: recordedOption .directiveName d.nameRange
      ++ recordedOption .directiveExpression d.expression

/-- The entries of a `then` or `catch` branch itself, without its content. -/
def AwaitBranch.ownRanges (b : Option AwaitBranch) : List RecordedRange :=
  match b with
  | none => []
  | some b => (.awaitBranch, b.range) :: recordedOption .awaitBinding b.binding

mutual

def Markup.recordedRanges : Markup → List RecordedRange
  | .element _ _ r nameRange attributes children =>
    (.node, r) :: recordedOption .elementName nameRange
      ++ attributes.flatMap Attribute.recordedRanges ++ Markup.recordedList children
  | .text r _ => [(.node, r)]
  | .mustache r e _ => [(.node, r), (.mustacheExpression, e)]
  | .ifBlock r test _ children elseBranch =>
    (.node, r) :: (.ifTest, test) :: recordedOption .elseBranch (elseBranch.map Branch.range)
      ++ Markup.recordedList children ++ Branch.recordedContent elseBranch
  | .eachBlock r e context index key children elseBranch =>
    (.node, r) :: (.eachExpression, e) :: recordedOption .eachContext context
      ++ recordedOption .eachIndex index ++ recordedOption .eachKey key
      ++ recordedOption .elseBranch (elseBranch.map Branch.range)
      ++ Markup.recordedList children ++ Branch.recordedContent elseBranch
  | .awaitBlock r e pending fulfilled rejected =>
    (.node, r) :: (.awaitExpression, e) :: recordedOption .pendingBranch (pending.map Branch.range)
      ++ AwaitBranch.ownRanges fulfilled ++ AwaitBranch.ownRanges rejected
      ++ Branch.recordedContent pending ++ AwaitBranch.recordedContent fulfilled
      ++ AwaitBranch.recordedContent rejected
  | .keyBlock r e children =>
    (.node, r) :: (.keyExpression, e) :: Markup.recordedList children
  | .snippetBlock r name params children =>
    (.node, r) :: (.snippetName, name) :: params.map (fun p => (.snippetParameter, p))
      ++ Markup.recordedList children
  | .constTag r d => [(.node, r), (.constDeclaration, d)]
  | .renderTag r e => [(.node, r), (.renderExpression, e)]

def Markup.recordedList : List Markup → List RecordedRange
  | [] => []
  | m :: ms => m.recordedRanges ++ Markup.recordedList ms

def Branch.recordedContent : Option Branch → List RecordedRange
  | none => []
  | some (.mk _ children) => Markup.recordedList children

def AwaitBranch.recordedContent : Option AwaitBranch → List RecordedRange
  | none => []
  | some (.mk _ _ children) => Markup.recordedList children

end

def Document.recordedRanges (d : Document) : List RecordedRange :=
  d.scripts.map (fun s => (.scriptContent, s.content)) ++ Markup.recordedList d.nodes

/-- Whether a range is ordered, inside the source, and ends on boundaries. -/
def validRange (source : Text) (r : Range) : Bool :=
  r.start ≤ r.stop && r.stop ≤ Text.byteSize source
    && Text.isBoundary source r.start && Text.isBoundary source r.stop

structure RangeFault where
  role : RangeRole
  range : Range
  sourceSize : Nat
deriving DecidableEq, Repr

def RangeFault.message (f : RangeFault) : String :=
  f.role.label ++ " range " ++ f.range.render ++ " is outside the " ++ toString f.sourceSize
    ++ " byte document"

/-- The first recorded range that does not fit the source. -/
def Document.rangeFault? (source : Text) (d : Document) : Option RangeFault :=
  (d.recordedRanges.find? fun r => !validRange source r.2).map fun r =>
    ⟨r.1, r.2, Text.byteSize source⟩

end Loom.Template
