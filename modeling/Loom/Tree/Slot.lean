import Loom.Tree.Kind

/-!
The writing view of a kind: its node-valued fields as slots, and the edits that act on them.

`Kind.slots` lists the slots in order, `Kind.mapSlots` edits them; the nodes seen here are those of
`Kind.childIds`.
-/

namespace Loom

inductive Slot where
  | one (id : NodeId)
  | opt (id : Option NodeId)
  | many (ids : List NodeId)
  | manyOpt (ids : List (Option NodeId))
deriving DecidableEq, Repr

namespace Slot

def nodeIds : Slot → List NodeId
  | .one id => [id]
  | .opt id => id.toList
  | .many ids => ids
  | .manyOpt ids => ids.filterMap id

/-- Whether a node can be taken out of the slot: it is there, and the slot may do without it. -/
def canRemove (child : NodeId) : Slot → Bool
  | .one _ => false
  | s => s.nodeIds.contains child

end Slot

structure SlotEdit where
  one : NodeId → NodeId
  opt : Option NodeId → Option NodeId
  many : List NodeId → List NodeId
  manyOpt : List (Option NodeId) → List (Option NodeId)

namespace SlotEdit

/-- Puts `new` wherever `old` stands. -/
def replace (old new : NodeId) : SlotEdit where
  one id := if id = old then new else id
  opt id := if id = some old then some new else id
  many ids := ids.map fun id => if id = old then new else id
  manyOpt ids := ids.map fun id => if id = some old then some new else id

/-- Takes `child` out of optional fields and lists; required fields keep it. -/
def remove (child : NodeId) : SlotEdit where
  one id := id
  opt id := if id = some child then none else id
  many ids := ids.filter (· != child)
  manyOpt ids := ids.filter (· != some child)

def apply (e : SlotEdit) : Slot → Slot
  | .one id => .one (e.one id)
  | .opt id => .opt (e.opt id)
  | .many ids => .many (e.many ids)
  | .manyOpt ids => .manyOpt (e.manyOpt ids)

end SlotEdit

inductive SlotField where
  | expression
  | nameExpression
  | context
  | index
  | key
  | value
  | error
  | id
  | param
  | declaration
deriving DecidableEq, Repr, Inhabited

namespace SlotField

def all : List SlotField :=
  [.expression, .nameExpression, .context, .index, .key, .value, .error, .id, .param, .declaration]

def name : SlotField → String
  | .expression => "Expression"
  | .nameExpression => "NameExpression"
  | .context => "Context"
  | .index => "Index"
  | .key => "Key"
  | .value => "Value"
  | .error => "Error"
  | .id => "Id"
  | .param => "Param"
  | .declaration => "Declaration"

end SlotField

namespace Kind

def slots : Kind → List Slot
  | .program _ body | .blockStatement body => [.many body]
  | .expressionStatement e => [.one e]
  | .emptyStatement | .debuggerStatement | .thisExpression | .super | .identifier _
  | .privateIdentifier _ | .literal .. | .templateElement .. | .markupText _ => []
  | .ifStatement test consequent alternate => [.one test, .one consequent, .opt alternate]
  | .labeledStatement label body => [.one label, .one body]
  | .returnStatement argument => [.opt argument]
  | .throwStatement argument | .spreadElement argument | .restElement argument
  | .awaitExpression argument | .unaryExpression _ argument | .updateExpression _ _ argument =>
    [.one argument]
  | .breakStatement label | .continueStatement label => [.opt label]
  | .whileStatement test body => [.one test, .one body]
  | .doWhileStatement body test => [.one body, .one test]
  | .withStatement object body => [.one object, .one body]
  | .switchStatement discriminant cases => [.one discriminant, .many cases]
  | .switchCase test consequent => [.opt test, .many consequent]
  | .forStatement init test update body => [.opt init, .opt test, .opt update, .one body]
  | .forInStatement left right body | .forOfStatement left right body =>
    [.one left, .one right, .one body]
  | .tryStatement block handler finalizer => [.one block, .opt handler, .opt finalizer]
  | .catchClause param body => [.opt param, .one body]
  | .variableDeclaration _ declarations => [.many declarations]
  | .variableDeclarator id init => [.one id, .opt init]
  | .function _ id params body _ _ => [.opt id, .many params, .one body]
  | .arrowFunction params body _ _ => [.many params, .one body]
  | .class _ id superClass body => [.opt id, .opt superClass, .one body]
  | .classBody body | .staticBlock body => [.many body]
  | .methodDefinition key value _ _ _ => [.one key, .one value]
  | .propertyDefinition key value _ _ => [.one key, .opt value]
  | .importDeclaration specifiers source => [.many specifiers, .one source]
  | .importSpecifier imported binding => [.one imported, .one binding]
  | .importDefaultSpecifier binding | .importNamespaceSpecifier binding => [.one binding]
  | .exportNamedDeclaration declaration specifiers source =>
    [.opt declaration, .many specifiers, .opt source]
  | .exportSpecifier binding exported => [.one binding, .one exported]
  | .exportDefaultDeclaration declaration => [.one declaration]
  | .exportAllDeclaration exported source => [.opt exported, .one source]
  | .arrayExpression elements | .arrayPattern elements => [.manyOpt elements]
  | .objectExpression properties | .objectPattern properties => [.many properties]
  | .property key value _ _ _ _ => [.one key, .one value]
  | .operatorExpression _ _ left right | .assignmentPattern left right => [.one left, .one right]
  | .conditionalExpression test consequent alternate =>
    [.one test, .one consequent, .one alternate]
  | .callExpression callee arguments _ | .newExpression callee arguments =>
    [.one callee, .many arguments]
  | .memberExpression object member _ _ | .metaProperty object member => [.one object, .one member]
  | .sequenceExpression expressions => [.many expressions]
  | .yieldExpression argument _ => [.opt argument]
  | .templateLiteral quasis expressions => [.many quasis, .many expressions]
  | .taggedTemplateExpression tag quasi => [.one tag, .one quasi]
  | .importExpression source options => [.one source, .opt options]
  | .chainExpression e | .typedExpression _ e => [.one e]
  | .typedDeclaration _ id => [.opt id]
  | .markupElement _ _ nameExpression attributes children =>
    [.opt nameExpression, .many attributes, .many children]
  | .markupMustacheTag _ e | .markupConstTag e | .markupRenderTag e | .markupSpreadAttribute e
  | .markupShorthandAttribute _ e => [.opt e]
  | .markupIfBlock _ e children elseBlock => [.opt e, .many children, .opt elseBlock]
  | .markupElseBlock children | .markupAwaitPendingBlock children => [.many children]
  | .markupEachBlock e context index key children elseBlock =>
    [.opt e, .opt context, .opt index, .opt key, .many children, .opt elseBlock]
  | .markupAwaitBlock e pending fulfilled rejected =>
    [.opt e, .opt pending, .opt fulfilled, .opt rejected]
  | .markupAwaitThenBlock binding children | .markupAwaitCatchBlock binding children
  | .markupKeyBlock binding children => [.opt binding, .many children]
  | .markupSnippetBlock id params children => [.opt id, .many params, .many children]
  | .markupAttribute _ value => [.many value]
  | .markupDirective _ _ _ nameExpression e => [.opt nameExpression, .opt e]

def slotIds (k : Kind) : List NodeId := k.slots.flatMap Slot.nodeIds

def mapSlots (s : SlotEdit) : Kind → Kind
  | .program sourceType body => .program sourceType (s.many body)
  | .expressionStatement e => .expressionStatement (s.one e)
  | .blockStatement body => .blockStatement (s.many body)
  | .emptyStatement => .emptyStatement
  | .ifStatement test consequent alternate =>
    .ifStatement (s.one test) (s.one consequent) (s.opt alternate)
  | .labeledStatement label body => .labeledStatement (s.one label) (s.one body)
  | .returnStatement argument => .returnStatement (s.opt argument)
  | .throwStatement argument => .throwStatement (s.one argument)
  | .breakStatement label => .breakStatement (s.opt label)
  | .continueStatement label => .continueStatement (s.opt label)
  | .debuggerStatement => .debuggerStatement
  | .whileStatement test body => .whileStatement (s.one test) (s.one body)
  | .doWhileStatement body test => .doWhileStatement (s.one body) (s.one test)
  | .withStatement object body => .withStatement (s.one object) (s.one body)
  | .switchStatement discriminant cases => .switchStatement (s.one discriminant) (s.many cases)
  | .switchCase test consequent => .switchCase (s.opt test) (s.many consequent)
  | .forStatement init test update body =>
    .forStatement (s.opt init) (s.opt test) (s.opt update) (s.one body)
  | .forInStatement left right body => .forInStatement (s.one left) (s.one right) (s.one body)
  | .forOfStatement left right body => .forOfStatement (s.one left) (s.one right) (s.one body)
  | .tryStatement block handler finalizer =>
    .tryStatement (s.one block) (s.opt handler) (s.opt finalizer)
  | .catchClause param body => .catchClause (s.opt param) (s.one body)
  | .variableDeclaration kind declarations => .variableDeclaration kind (s.many declarations)
  | .variableDeclarator id init => .variableDeclarator (s.one id) (s.opt init)
  | .function form id params body isAsync generator =>
    .function form (s.opt id) (s.many params) (s.one body) isAsync generator
  | .arrowFunction params body expression isAsync =>
    .arrowFunction (s.many params) (s.one body) expression isAsync
  | .class form id superClass body => .class form (s.opt id) (s.opt superClass) (s.one body)
  | .classBody body => .classBody (s.many body)
  | .methodDefinition key value kind computed isStatic =>
    .methodDefinition (s.one key) (s.one value) kind computed isStatic
  | .propertyDefinition key value computed isStatic =>
    .propertyDefinition (s.one key) (s.opt value) computed isStatic
  | .staticBlock body => .staticBlock (s.many body)
  | .importDeclaration specifiers source => .importDeclaration (s.many specifiers) (s.one source)
  | .importSpecifier imported binding => .importSpecifier (s.one imported) (s.one binding)
  | .importDefaultSpecifier binding => .importDefaultSpecifier (s.one binding)
  | .importNamespaceSpecifier binding => .importNamespaceSpecifier (s.one binding)
  | .exportNamedDeclaration declaration specifiers source =>
    .exportNamedDeclaration (s.opt declaration) (s.many specifiers) (s.opt source)
  | .exportSpecifier binding exported => .exportSpecifier (s.one binding) (s.one exported)
  | .exportDefaultDeclaration declaration => .exportDefaultDeclaration (s.one declaration)
  | .exportAllDeclaration exported source => .exportAllDeclaration (s.opt exported) (s.one source)
  | .identifier name => .identifier name
  | .privateIdentifier name => .privateIdentifier name
  | .literal value raw => .literal value raw
  | .thisExpression => .thisExpression
  | .super => .super
  | .arrayExpression elements => .arrayExpression (s.manyOpt elements)
  | .objectExpression properties => .objectExpression (s.many properties)
  | .property key value kind computed shorthand method =>
    .property (s.one key) (s.one value) kind computed shorthand method
  | .spreadElement argument => .spreadElement (s.one argument)
  | .unaryExpression operator argument => .unaryExpression operator (s.one argument)
  | .updateExpression operator leading argument =>
    .updateExpression operator leading (s.one argument)
  | .operatorExpression family operator left right =>
    .operatorExpression family operator (s.one left) (s.one right)
  | .conditionalExpression test consequent alternate =>
    .conditionalExpression (s.one test) (s.one consequent) (s.one alternate)
  | .callExpression callee arguments optional =>
    .callExpression (s.one callee) (s.many arguments) optional
  | .newExpression callee arguments => .newExpression (s.one callee) (s.many arguments)
  | .memberExpression object member computed optional =>
    .memberExpression (s.one object) (s.one member) computed optional
  | .sequenceExpression expressions => .sequenceExpression (s.many expressions)
  | .awaitExpression argument => .awaitExpression (s.one argument)
  | .yieldExpression argument delegate => .yieldExpression (s.opt argument) delegate
  | .templateLiteral quasis expressions => .templateLiteral (s.many quasis) (s.many expressions)
  | .templateElement raw cooked tail => .templateElement raw cooked tail
  | .taggedTemplateExpression tag quasi => .taggedTemplateExpression (s.one tag) (s.one quasi)
  | .metaProperty object member => .metaProperty (s.one object) (s.one member)
  | .importExpression source options => .importExpression (s.one source) (s.opt options)
  | .chainExpression e => .chainExpression (s.one e)
  | .typedExpression form e => .typedExpression form (s.one e)
  | .typedDeclaration form id => .typedDeclaration form (s.opt id)
  | .objectPattern properties => .objectPattern (s.many properties)
  | .arrayPattern elements => .arrayPattern (s.manyOpt elements)
  | .assignmentPattern left right => .assignmentPattern (s.one left) (s.one right)
  | .restElement argument => .restElement (s.one argument)
  | .markupElement name kind nameExpression attributes children =>
    .markupElement name kind (s.opt nameExpression) (s.many attributes) (s.many children)
  | .markupText value => .markupText value
  | .markupMustacheTag raw e => .markupMustacheTag raw (s.opt e)
  | .markupIfBlock elseIf e children elseBlock =>
    .markupIfBlock elseIf (s.opt e) (s.many children) (s.opt elseBlock)
  | .markupElseBlock children => .markupElseBlock (s.many children)
  | .markupEachBlock e context index key children elseBlock =>
    .markupEachBlock (s.opt e) (s.opt context) (s.opt index) (s.opt key) (s.many children)
      (s.opt elseBlock)
  | .markupAwaitBlock e pending fulfilled rejected =>
    .markupAwaitBlock (s.opt e) (s.opt pending) (s.opt fulfilled) (s.opt rejected)
  | .markupAwaitPendingBlock children => .markupAwaitPendingBlock (s.many children)
  | .markupAwaitThenBlock value children => .markupAwaitThenBlock (s.opt value) (s.many children)
  | .markupAwaitCatchBlock error children =>
    .markupAwaitCatchBlock (s.opt error) (s.many children)
  | .markupKeyBlock e children => .markupKeyBlock (s.opt e) (s.many children)
  | .markupSnippetBlock id params children =>
    .markupSnippetBlock (s.opt id) (s.many params) (s.many children)
  | .markupConstTag declaration => .markupConstTag (s.opt declaration)
  | .markupRenderTag e => .markupRenderTag (s.opt e)
  | .markupAttribute key value => .markupAttribute key (s.many value)
  | .markupShorthandAttribute key e => .markupShorthandAttribute key (s.opt e)
  | .markupSpreadAttribute e => .markupSpreadAttribute (s.opt e)
  | .markupDirective directive key modifiers nameExpression e =>
    .markupDirective directive key modifiers (s.opt nameExpression) (s.opt e)

/-- The kind with `child` in the named slot of a markup node; none when the kind has no such slot.
Parameters of a snippet are appended, other slots are overwritten. -/
def attach? (child : NodeId) : SlotField → Kind → Option Kind
  | .expression, .markupMustacheTag raw _ => some (.markupMustacheTag raw (some child))
  | .expression, .markupIfBlock elseIf _ children elseBlock =>
    some (.markupIfBlock elseIf (some child) children elseBlock)
  | .expression, .markupEachBlock _ context index key children elseBlock =>
    some (.markupEachBlock (some child) context index key children elseBlock)
  | .expression, .markupAwaitBlock _ pending fulfilled rejected =>
    some (.markupAwaitBlock (some child) pending fulfilled rejected)
  | .expression, .markupKeyBlock _ children => some (.markupKeyBlock (some child) children)
  | .expression, .markupRenderTag _ => some (.markupRenderTag (some child))
  | .expression, .markupShorthandAttribute key _ =>
    some (.markupShorthandAttribute key (some child))
  | .expression, .markupSpreadAttribute _ => some (.markupSpreadAttribute (some child))
  | .expression, .markupDirective directive key modifiers nameExpression _ =>
    some (.markupDirective directive key modifiers nameExpression (some child))
  | .nameExpression, .markupElement name kind _ attributes children =>
    some (.markupElement name kind (some child) attributes children)
  | .nameExpression, .markupDirective directive key modifiers _ e =>
    some (.markupDirective directive key modifiers (some child) e)
  | .context, .markupEachBlock e _ index key children elseBlock =>
    some (.markupEachBlock e (some child) index key children elseBlock)
  | .index, .markupEachBlock e context _ key children elseBlock =>
    some (.markupEachBlock e context (some child) key children elseBlock)
  | .key, .markupEachBlock e context index _ children elseBlock =>
    some (.markupEachBlock e context index (some child) children elseBlock)
  | .value, .markupAwaitThenBlock _ children => some (.markupAwaitThenBlock (some child) children)
  | .error, .markupAwaitCatchBlock _ children =>
    some (.markupAwaitCatchBlock (some child) children)
  | .id, .markupSnippetBlock _ params children =>
    some (.markupSnippetBlock (some child) params children)
  | .param, .markupSnippetBlock id params children =>
    some (.markupSnippetBlock id (params ++ [child]) children)
  | .declaration, .markupConstTag _ => some (.markupConstTag (some child))
  | _, _ => none

/-- The kind with `child` at the end of its body or its children; none when it has no such list. -/
def pushChild? (child : NodeId) : Kind → Option Kind
  | .program sourceType body => some (.program sourceType (body ++ [child]))
  | .blockStatement body => some (.blockStatement (body ++ [child]))
  | .markupElement name kind nameExpression attributes children =>
    some (.markupElement name kind nameExpression attributes (children ++ [child]))
  | .markupIfBlock elseIf e children elseBlock =>
    some (.markupIfBlock elseIf e (children ++ [child]) elseBlock)
  | .markupElseBlock children => some (.markupElseBlock (children ++ [child]))
  | .markupEachBlock e context index key children elseBlock =>
    some (.markupEachBlock e context index key (children ++ [child]) elseBlock)
  | .markupAwaitPendingBlock children => some (.markupAwaitPendingBlock (children ++ [child]))
  | .markupAwaitThenBlock value children =>
    some (.markupAwaitThenBlock value (children ++ [child]))
  | .markupAwaitCatchBlock error children =>
    some (.markupAwaitCatchBlock error (children ++ [child]))
  | .markupKeyBlock e children => some (.markupKeyBlock e (children ++ [child]))
  | .markupSnippetBlock id params children =>
    some (.markupSnippetBlock id params (children ++ [child]))
  | _ => none

end Kind

end Loom
