import Loom.Double
import Loom.Options
import Loom.Template.Basic

/-!
The kinds of node in a unified tree: script nodes, named as in ESTree, and markup nodes.

Nodes refer to each other by number. `Kind.fields` is the reading view of a kind, all its fields in
source order; the writing view is in `Loom.Tree.Slot`.
-/

namespace Loom

abbrev NodeId := Nat

inductive VariableKind where
  | var
  | let
  | const
  | using
  | awaitUsing
deriving DecidableEq, Repr

namespace VariableKind

def name : VariableKind → String
  | .var => "var"
  | .let => "let"
  | .const => "const"
  | .using => "using"
  | .awaitUsing => "await using"

/-- Whether the variables belong to the block rather than to the function. -/
def isLexical (k : VariableKind) : Bool := k != .var

end VariableKind

inductive PropertyKind where
  | init
  | get
  | set
deriving DecidableEq, Repr

namespace PropertyKind

def name : PropertyKind → String
  | .init => "init"
  | .get => "get"
  | .set => "set"

end PropertyKind

inductive MethodKind where
  | constructor
  | method
  | get
  | set
deriving DecidableEq, Repr

namespace MethodKind

def name : MethodKind → String
  | .constructor => "constructor"
  | .method => "method"
  | .get => "get"
  | .set => "set"

end MethodKind

inductive LiteralValue where
  | string (value : String)
  | number (value : Double)
  | boolean (value : Bool)
  | null
  /-- A large integer, by its digits. -/
  | bigint (digits : String)
  | regex (pattern flags : String)
deriving DecidableEq, Repr

/-- Functions and classes are statements or expressions. -/
inductive DefinitionForm where
  | declaration
  | expression
deriving DecidableEq, Repr

inductive OperatorFamily where
  | binary
  | logical
  | assignment
deriving DecidableEq, Repr

inductive TypedExpression where
  | asType
  | satisfies
  | assertion
  | nonNull
  | instantiation
  | exportAssignment
deriving DecidableEq, Repr

namespace TypedExpression

def typeName : TypedExpression → String
  | .asType => "TSAsExpression"
  | .satisfies => "TSSatisfiesExpression"
  | .assertion => "TSTypeAssertion"
  | .nonNull => "TSNonNullExpression"
  | .instantiation => "TSInstantiationExpression"
  | .exportAssignment => "TSExportAssignment"

end TypedExpression

/-- Type-level declarations, of which only the name is kept. -/
inductive TypedDeclaration where
  | typeAlias
  | interface
  | enum
  | module
  | global
  | importEquals
  | namespaceExport
  | declareFunction
deriving DecidableEq, Repr

namespace TypedDeclaration

def typeName : TypedDeclaration → String
  | .typeAlias => "TSTypeAliasDeclaration"
  | .interface => "TSInterfaceDeclaration"
  | .enum => "TSEnumDeclaration"
  | .module => "TSModuleDeclaration"
  | .global => "TSGlobalDeclaration"
  | .importEquals => "TSImportEqualsDeclaration"
  | .namespaceExport => "TSNamespaceExportDeclaration"
  | .declareFunction => "TSDeclareFunction"

end TypedDeclaration

inductive Kind where
  | program (sourceType : SourceType) (body : List NodeId)
  | expressionStatement (expression : NodeId)
  | blockStatement (body : List NodeId)
  | emptyStatement
  | ifStatement (test consequent : NodeId) (alternate : Option NodeId)
  | labeledStatement (label body : NodeId)
  | returnStatement (argument : Option NodeId)
  | throwStatement (argument : NodeId)
  | breakStatement (label : Option NodeId)
  | continueStatement (label : Option NodeId)
  | debuggerStatement
  | whileStatement (test body : NodeId)
  | doWhileStatement (body test : NodeId)
  | withStatement (object body : NodeId)
  | switchStatement (discriminant : NodeId) (cases : List NodeId)
  | switchCase (test : Option NodeId) (consequent : List NodeId)
  | forStatement (init test update : Option NodeId) (body : NodeId)
  | forInStatement (left right body : NodeId)
  | forOfStatement (left right body : NodeId)
  | tryStatement (block : NodeId) (handler finalizer : Option NodeId)
  | catchClause (param : Option NodeId) (body : NodeId)
  | variableDeclaration (kind : VariableKind) (declarations : List NodeId)
  | variableDeclarator (id : NodeId) (init : Option NodeId)
  | function (form : DefinitionForm) (id : Option NodeId) (params : List NodeId) (body : NodeId)
      (isAsync generator : Bool)
  | arrowFunction (params : List NodeId) (body : NodeId) (expression isAsync : Bool)
  | class (form : DefinitionForm) (id superClass : Option NodeId) (body : NodeId)
  | classBody (body : List NodeId)
  | methodDefinition (key value : NodeId) (kind : MethodKind) (computed isStatic : Bool)
  | propertyDefinition (key : NodeId) (value : Option NodeId) (computed isStatic : Bool)
  | staticBlock (body : List NodeId)
  | importDeclaration (specifiers : List NodeId) (source : NodeId)
  | importSpecifier (imported binding : NodeId)
  | importDefaultSpecifier (binding : NodeId)
  | importNamespaceSpecifier (binding : NodeId)
  | exportNamedDeclaration (declaration : Option NodeId) (specifiers : List NodeId)
      (source : Option NodeId)
  | exportSpecifier (binding exported : NodeId)
  | exportDefaultDeclaration (declaration : NodeId)
  | exportAllDeclaration (exported : Option NodeId) (source : NodeId)
  | identifier (name : String)
  | privateIdentifier (name : String)
  | literal (value : LiteralValue) (raw : String)
  | thisExpression
  | super
  | arrayExpression (elements : List (Option NodeId))
  | objectExpression (properties : List NodeId)
  | property (key value : NodeId) (kind : PropertyKind) (computed shorthand method : Bool)
  | spreadElement (argument : NodeId)
  | unaryExpression (operator : String) (argument : NodeId)
  | updateExpression (operator : String) (leading : Bool) (argument : NodeId)
  | operatorExpression (family : OperatorFamily) (operator : String) (left right : NodeId)
  | conditionalExpression (test consequent alternate : NodeId)
  | callExpression (callee : NodeId) (arguments : List NodeId) (optional : Bool)
  | newExpression (callee : NodeId) (arguments : List NodeId)
  | memberExpression (object property : NodeId) (computed optional : Bool)
  | sequenceExpression (expressions : List NodeId)
  | awaitExpression (argument : NodeId)
  | yieldExpression (argument : Option NodeId) (delegate : Bool)
  | templateLiteral (quasis expressions : List NodeId)
  | templateElement (raw : String) (cooked : Option String) (tail : Bool)
  | taggedTemplateExpression (tag quasi : NodeId)
  | metaProperty (object property : NodeId)
  | importExpression (source : NodeId) (options : Option NodeId)
  | chainExpression (expression : NodeId)
  | typedExpression (form : TypedExpression) (expression : NodeId)
  | typedDeclaration (form : TypedDeclaration) (id : Option NodeId)
  | objectPattern (properties : List NodeId)
  | arrayPattern (elements : List (Option NodeId))
  | assignmentPattern (left right : NodeId)
  | restElement (argument : NodeId)
  | markupElement (name : String) (kind : ElementKind) (nameExpression : Option NodeId)
      (attributes children : List NodeId)
  | markupText (value : String)
  | markupMustacheTag (raw : Bool) (expression : Option NodeId)
  | markupIfBlock (elseIf : Bool) (expression : Option NodeId) (children : List NodeId)
      (elseBlock : Option NodeId)
  | markupElseBlock (children : List NodeId)
  | markupEachBlock (expression context index key : Option NodeId) (children : List NodeId)
      (elseBlock : Option NodeId)
  | markupAwaitBlock (expression pending fulfilled rejected : Option NodeId)
  | markupAwaitPendingBlock (children : List NodeId)
  | markupAwaitThenBlock (value : Option NodeId) (children : List NodeId)
  | markupAwaitCatchBlock (error : Option NodeId) (children : List NodeId)
  | markupKeyBlock (expression : Option NodeId) (children : List NodeId)
  | markupSnippetBlock (id : Option NodeId) (params children : List NodeId)
  | markupConstTag (declaration : Option NodeId)
  | markupRenderTag (expression : Option NodeId)
  | markupAttribute (key : String) (value : List NodeId)
  | markupShorthandAttribute (key : String) (expression : Option NodeId)
  | markupSpreadAttribute (expression : Option NodeId)
  | markupDirective (directive : DirectiveKind) (key : String) (modifiers : List String)
      (nameExpression expression : Option NodeId)

instance : Inhabited Kind := ⟨.emptyStatement⟩

inductive Field where
  | node (id : NodeId)
  | optNode (id : Option NodeId)
  | nodes (ids : List NodeId)
  | optNodes (ids : List (Option NodeId))
  | text (value : String)
  | texts (values : List String)
  | flag (value : Bool)
  | number (value : Double)
  | null
  | record (members : List (String × Option String))

def Field.nodeIds : Field → List NodeId
  | .node id => [id]
  | .optNode id => id.toList
  | .nodes ids => ids
  | .optNodes ids => ids.filterMap id
  | _ => []

namespace Kind

def typeName : Kind → String
  | .program .. => "Program"
  | .expressionStatement .. => "ExpressionStatement"
  | .blockStatement .. => "BlockStatement"
  | .emptyStatement => "EmptyStatement"
  | .ifStatement .. => "IfStatement"
  | .labeledStatement .. => "LabeledStatement"
  | .returnStatement .. => "ReturnStatement"
  | .throwStatement .. => "ThrowStatement"
  | .breakStatement .. => "BreakStatement"
  | .continueStatement .. => "ContinueStatement"
  | .debuggerStatement => "DebuggerStatement"
  | .whileStatement .. => "WhileStatement"
  | .doWhileStatement .. => "DoWhileStatement"
  | .withStatement .. => "WithStatement"
  | .switchStatement .. => "SwitchStatement"
  | .switchCase .. => "SwitchCase"
  | .forStatement .. => "ForStatement"
  | .forInStatement .. => "ForInStatement"
  | .forOfStatement .. => "ForOfStatement"
  | .tryStatement .. => "TryStatement"
  | .catchClause .. => "CatchClause"
  | .variableDeclaration .. => "VariableDeclaration"
  | .variableDeclarator .. => "VariableDeclarator"
  | .function .declaration .. => "FunctionDeclaration"
  | .function .expression .. => "FunctionExpression"
  | .arrowFunction .. => "ArrowFunctionExpression"
  | .class .declaration .. => "ClassDeclaration"
  | .class .expression .. => "ClassExpression"
  | .classBody .. => "ClassBody"
  | .methodDefinition .. => "MethodDefinition"
  | .propertyDefinition .. => "PropertyDefinition"
  | .staticBlock .. => "StaticBlock"
  | .importDeclaration .. => "ImportDeclaration"
  | .importSpecifier .. => "ImportSpecifier"
  | .importDefaultSpecifier .. => "ImportDefaultSpecifier"
  | .importNamespaceSpecifier .. => "ImportNamespaceSpecifier"
  | .exportNamedDeclaration .. => "ExportNamedDeclaration"
  | .exportSpecifier .. => "ExportSpecifier"
  | .exportDefaultDeclaration .. => "ExportDefaultDeclaration"
  | .exportAllDeclaration .. => "ExportAllDeclaration"
  | .identifier .. => "Identifier"
  | .privateIdentifier .. => "PrivateIdentifier"
  | .literal .. => "Literal"
  | .thisExpression => "ThisExpression"
  | .super => "Super"
  | .arrayExpression .. => "ArrayExpression"
  | .objectExpression .. => "ObjectExpression"
  | .property .. => "Property"
  | .spreadElement .. => "SpreadElement"
  | .unaryExpression .. => "UnaryExpression"
  | .updateExpression .. => "UpdateExpression"
  | .operatorExpression .binary .. => "BinaryExpression"
  | .operatorExpression .logical .. => "LogicalExpression"
  | .operatorExpression .assignment .. => "AssignmentExpression"
  | .conditionalExpression .. => "ConditionalExpression"
  | .callExpression .. => "CallExpression"
  | .newExpression .. => "NewExpression"
  | .memberExpression .. => "MemberExpression"
  | .sequenceExpression .. => "SequenceExpression"
  | .awaitExpression .. => "AwaitExpression"
  | .yieldExpression .. => "YieldExpression"
  | .templateLiteral .. => "TemplateLiteral"
  | .templateElement .. => "TemplateElement"
  | .taggedTemplateExpression .. => "TaggedTemplateExpression"
  | .metaProperty .. => "MetaProperty"
  | .importExpression .. => "ImportExpression"
  | .chainExpression .. => "ChainExpression"
  | .typedExpression form _ => form.typeName
  | .typedDeclaration form _ => form.typeName
  | .objectPattern .. => "ObjectPattern"
  | .arrayPattern .. => "ArrayPattern"
  | .assignmentPattern .. => "AssignmentPattern"
  | .restElement .. => "RestElement"
  | .markupElement .. => "MarkupElement"
  | .markupText .. => "MarkupText"
  | .markupMustacheTag .. => "MarkupMustacheTag"
  | .markupIfBlock .. => "MarkupIfBlock"
  | .markupElseBlock .. => "MarkupElseBlock"
  | .markupEachBlock .. => "MarkupEachBlock"
  | .markupAwaitBlock .. => "MarkupAwaitBlock"
  | .markupAwaitPendingBlock .. => "MarkupAwaitPendingBlock"
  | .markupAwaitThenBlock .. => "MarkupAwaitThenBlock"
  | .markupAwaitCatchBlock .. => "MarkupAwaitCatchBlock"
  | .markupKeyBlock .. => "MarkupKeyBlock"
  | .markupSnippetBlock .. => "MarkupSnippetBlock"
  | .markupConstTag .. => "MarkupConstTag"
  | .markupRenderTag .. => "MarkupRenderTag"
  | .markupAttribute .. => "MarkupAttribute"
  | .markupShorthandAttribute .. => "MarkupShorthandAttribute"
  | .markupSpreadAttribute .. => "MarkupSpreadAttribute"
  | .markupDirective .. => "MarkupDirective"

def literalFields (raw : String) : LiteralValue → List (String × Field)
  | .string s => [("value", .text s), ("raw", .text raw)]
  | .number n => [("value", .number n), ("raw", .text raw)]
  | .boolean b => [("value", .flag b), ("raw", .text raw)]
  | .null => [("value", .null), ("raw", .text raw)]
  | .bigint digits => [("value", .null), ("raw", .text raw), ("bigint", .text digits)]
  | .regex pattern flags =>
    [("value", .null), ("raw", .text raw),
      ("regex", .record [("pattern", some pattern), ("flags", some flags)])]

/-- All fields of a kind with their ESTree names, in source order. -/
def fields : Kind → List (String × Field)
  | .program sourceType body => [("sourceType", .text sourceType.name), ("body", .nodes body)]
  | .expressionStatement e => [("expression", .node e)]
  | .blockStatement body => [("body", .nodes body)]
  | .emptyStatement | .debuggerStatement | .thisExpression | .super => []
  | .ifStatement test consequent alternate =>
    [("test", .node test), ("consequent", .node consequent), ("alternate", .optNode alternate)]
  | .labeledStatement label body => [("label", .node label), ("body", .node body)]
  | .returnStatement argument => [("argument", .optNode argument)]
  | .throwStatement argument => [("argument", .node argument)]
  | .breakStatement label | .continueStatement label => [("label", .optNode label)]
  | .whileStatement test body => [("test", .node test), ("body", .node body)]
  | .doWhileStatement body test => [("body", .node body), ("test", .node test)]
  | .withStatement object body => [("object", .node object), ("body", .node body)]
  | .switchStatement discriminant cases =>
    [("discriminant", .node discriminant), ("cases", .nodes cases)]
  | .switchCase test consequent => [("test", .optNode test), ("consequent", .nodes consequent)]
  | .forStatement init test update body =>
    [("init", .optNode init), ("test", .optNode test), ("update", .optNode update),
      ("body", .node body)]
  | .forInStatement left right body | .forOfStatement left right body =>
    [("left", .node left), ("right", .node right), ("body", .node body)]
  | .tryStatement block handler finalizer =>
    [("block", .node block), ("handler", .optNode handler), ("finalizer", .optNode finalizer)]
  | .catchClause param body => [("param", .optNode param), ("body", .node body)]
  | .variableDeclaration kind declarations =>
    [("kind", .text kind.name), ("declarations", .nodes declarations)]
  | .variableDeclarator id init => [("id", .node id), ("init", .optNode init)]
  | .function _ id params body isAsync generator =>
    [("async", .flag isAsync), ("generator", .flag generator), ("id", .optNode id),
      ("params", .nodes params), ("body", .node body)]
  | .arrowFunction params body expression isAsync =>
    [("async", .flag isAsync), ("expression", .flag expression), ("params", .nodes params),
      ("body", .node body)]
  | .class _ id superClass body =>
    [("id", .optNode id), ("superClass", .optNode superClass), ("body", .node body)]
  | .classBody body | .staticBlock body => [("body", .nodes body)]
  | .methodDefinition key value kind computed isStatic =>
    [("kind", .text kind.name), ("static", .flag isStatic), ("computed", .flag computed),
      ("key", .node key), ("value", .node value)]
  | .propertyDefinition key value computed isStatic =>
    [("static", .flag isStatic), ("computed", .flag computed), ("key", .node key),
      ("value", .optNode value)]
  | .importDeclaration specifiers source =>
    [("specifiers", .nodes specifiers), ("source", .node source)]
  | .importSpecifier imported name => [("imported", .node imported), ("local", .node name)]
  | .importDefaultSpecifier name | .importNamespaceSpecifier name => [("local", .node name)]
  | .exportNamedDeclaration declaration specifiers source =>
    [("declaration", .optNode declaration), ("specifiers", .nodes specifiers),
      ("source", .optNode source)]
  | .exportSpecifier name exported => [("local", .node name), ("exported", .node exported)]
  | .exportDefaultDeclaration declaration => [("declaration", .node declaration)]
  | .exportAllDeclaration exported source =>
    [("exported", .optNode exported), ("source", .node source)]
  | .identifier name | .privateIdentifier name => [("name", .text name)]
  | .literal value raw => literalFields raw value
  | .arrayExpression elements | .arrayPattern elements => [("elements", .optNodes elements)]
  | .objectExpression properties | .objectPattern properties =>
    [("properties", .nodes properties)]
  | .property key value kind computed shorthand method =>
    [("kind", .text kind.name), ("method", .flag method), ("computed", .flag computed),
      ("shorthand", .flag shorthand), ("key", .node key), ("value", .node value)]
  | .spreadElement argument | .restElement argument | .awaitExpression argument =>
    [("argument", .node argument)]
  | .unaryExpression operator argument =>
    [("operator", .text operator), ("prefix", .flag true), ("argument", .node argument)]
  | .updateExpression operator leading argument =>
    [("operator", .text operator), ("prefix", .flag leading), ("argument", .node argument)]
  | .operatorExpression _ operator left right =>
    [("operator", .text operator), ("left", .node left), ("right", .node right)]
  | .assignmentPattern left right => [("left", .node left), ("right", .node right)]
  | .conditionalExpression test consequent alternate =>
    [("test", .node test), ("consequent", .node consequent), ("alternate", .node alternate)]
  | .callExpression callee arguments optional =>
    [("optional", .flag optional), ("callee", .node callee), ("arguments", .nodes arguments)]
  | .newExpression callee arguments => [("callee", .node callee), ("arguments", .nodes arguments)]
  | .memberExpression object member computed optional =>
    [("computed", .flag computed), ("optional", .flag optional), ("object", .node object),
      ("property", .node member)]
  | .sequenceExpression expressions => [("expressions", .nodes expressions)]
  | .yieldExpression argument delegate =>
    [("delegate", .flag delegate), ("argument", .optNode argument)]
  | .templateLiteral quasis expressions =>
    [("quasis", .nodes quasis), ("expressions", .nodes expressions)]
  | .templateElement raw cooked tail =>
    [("value", .record [("raw", some raw), ("cooked", cooked)]), ("tail", .flag tail)]
  | .taggedTemplateExpression tag quasi => [("tag", .node tag), ("quasi", .node quasi)]
  | .metaProperty object member => [("meta", .node object), ("property", .node member)]
  | .importExpression source options => [("source", .node source), ("options", .optNode options)]
  | .chainExpression e | .typedExpression _ e => [("expression", .node e)]
  | .typedDeclaration _ id => [("id", .optNode id)]
  | .markupElement name kind nameExpression attributes children =>
    [("name", .text name), ("kind", .text kind.name), ("nameExpression", .optNode nameExpression),
      ("attributes", .nodes attributes), ("children", .nodes children)]
  | .markupText value => [("value", .text value)]
  | .markupMustacheTag raw e =>
    [("kind", .text (if raw then "raw" else "text")), ("expression", .optNode e)]
  | .markupIfBlock elseIf e children elseBlock =>
    [("elseif", .flag elseIf), ("expression", .optNode e), ("children", .nodes children),
      ("else", .optNode elseBlock)]
  | .markupElseBlock children | .markupAwaitPendingBlock children =>
    [("children", .nodes children)]
  | .markupEachBlock e context index key children elseBlock =>
    [("expression", .optNode e), ("context", .optNode context), ("index", .optNode index),
      ("key", .optNode key), ("children", .nodes children), ("else", .optNode elseBlock)]
  | .markupAwaitBlock e pending fulfilled rejected =>
    [("expression", .optNode e), ("pending", .optNode pending), ("then", .optNode fulfilled),
      ("catch", .optNode rejected)]
  | .markupAwaitThenBlock value children =>
    [("value", .optNode value), ("children", .nodes children)]
  | .markupAwaitCatchBlock error children =>
    [("error", .optNode error), ("children", .nodes children)]
  | .markupKeyBlock e children => [("expression", .optNode e), ("children", .nodes children)]
  | .markupSnippetBlock id params children =>
    [("id", .optNode id), ("params", .nodes params), ("children", .nodes children)]
  | .markupConstTag declaration => [("declaration", .optNode declaration)]
  | .markupRenderTag e | .markupSpreadAttribute e => [("expression", .optNode e)]
  | .markupAttribute key value => [("key", .text key), ("value", .nodes value)]
  | .markupShorthandAttribute key e => [("key", .text key), ("expression", .optNode e)]
  | .markupDirective directive key modifiers nameExpression e =>
    [("kind", .text directive.label), ("key", .text key), ("modifiers", .texts modifiers),
      ("nameExpression", .optNode nameExpression), ("expression", .optNode e)]

def childIds (k : Kind) : List NodeId := k.fields.flatMap fun f => f.2.nodeIds

end Kind

end Loom
