import GraphQLClient.Json.Printer
import GraphQLClient.Schema.Definition
import GraphQLClient.Selection.Basic
import GraphQLClient.Text.Basic

/-!
# Documents

The text of an operation, two spaces deeper at each level. Values print as input literals: a text
that looks like a variable stands bare, names of object entries are not quoted.
-/
namespace GraphQLClient.Document

def isVariable : List Char → Bool
  | '$' :: name => Text.isNameList name
  | _ => false

mutual

def printLiteral : Json → List Char
  | .null => "null".toList
  | .bool true => "true".toList
  | .bool false => "false".toList
  | .number n => Json.printNumber n
  | .string s => if isVariable s.toList then s.toList else Json.printString s.toList
  | .array items => '[' :: printItems items ++ [']']
  | .object fields => '{' :: printEntries fields ++ ['}']

def printItems : List Json → List Char
  | [] => []
  | [item] => printLiteral item
  | item :: rest => printLiteral item ++ ", ".toList ++ printItems rest

def printEntries : List (String × Json) → List Char
  | [] => []
  | [(name, value)] => name.toList ++ ": ".toList ++ printLiteral value
  | (name, value) :: rest =>
    name.toList ++ ": ".toList ++ printLiteral value ++ ", ".toList ++ printEntries rest

end

/-- An empty object prints like no arguments. Only an object passes the check of a selection. -/
def printArguments : Option Json → List Char
  | none => []
  | some (.object []) => []
  | some (.object entries) => '(' :: printEntries entries ++ [')']
  | some other => '(' :: printLiteral other ++ [')']

def indent (level : Nat) : List Char := List.replicate (2 * level) ' '

mutual

/-- `level` is that of the node itself. -/
def printNode (level : Nat) : Node → List Char
  | .leaf key arguments => key.toList ++ printArguments arguments
  | .block key arguments children =>
    key.toList ++ printArguments arguments ++ " \x7b".toList ++ printNodes (level + 1) children ++
      '\n' :: indent level ++ ['}']

def printNodes (level : Nat) : List Node → List Char
  | [] => []
  | node :: rest => '\n' :: indent level ++ printNode level node ++ printNodes level rest

end

def printSelection (level : Nat) (nodes : List Node) : List Char :=
  '{' :: printNodes (level + 1) nodes ++ '\n' :: indent level ++ ['}']

def joined (separator : List Char) : List (List Char) → List Char
  | [] => []
  | [item] => item
  | item :: rest => item ++ separator ++ joined separator rest

def parenthesized : List (List Char) → List Char
  | [] => []
  | items => '(' :: joined ", ".toList items ++ [')']

def printDeclaration (entry : String × String) : List Char :=
  '$' :: entry.1.toList ++ ": ".toList ++ entry.2.toList

def printPassing (entry : String × String) : List Char :=
  entry.1.toList ++ ": $".toList ++ entry.1.toList

def printList (kind : OperationKind) (name : String) (declared : List (String × String))
    (nodes : List Node) : List Char :=
  kind.keyword.toList ++ ' ' :: name.toList ++
    parenthesized (declared.map printDeclaration) ++ " \x7b\n  ".toList ++
    name.toList ++ parenthesized (declared.map printPassing) ++
    (if nodes.isEmpty then [] else ' ' :: printSelection 1 nodes) ++ "\n\x7d".toList

/-- The document of an operation: its variables declared in the header and passed on under the same
names. -/
def print (kind : OperationKind) (name : String) (declared : OrderedMap String)
    (nodes : List Node) : String :=
  String.ofList (printList kind name declared.entries nodes)

def literal (value : Json) : String := String.ofList (printLiteral value)

end GraphQLClient.Document
