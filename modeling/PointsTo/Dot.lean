import PointsTo.Program.Basic

/-! Graphs as DOT text. A statement for a node or an edge carries its attributes in lists of one
attribute each, and in the finished text the lists of a statement are joined to one. -/

namespace PointsTo.Dot

inductive EdgeKind where
  | flow
  | call (kind : CallKind)
  deriving DecidableEq, Repr

structure Node where
  label : String
  id : Nat
  deriving DecidableEq, Repr

/-- An edge between two nodes given by their numbers. -/
structure Edge where
  source : Nat
  target : Nat
  label : String
  kind : EdgeKind
  deriving DecidableEq, Repr

structure Graph where
  name : String
  nodes : List Node
  edges : List Edge
  deriving DecidableEq, Repr

def EdgeKind.style : EdgeKind → String
  | flow | call .static | call .special => "solid"
  | call _ => "dashed"

def EdgeKind.color? : EdgeKind → Option String
  | call .interface => some "blue"
  | call .static => some "green"
  | _ => none

def isIdentifierStart (c : Char) : Bool :=
  ('a' ≤ c && c ≤ 'z') || ('A' ≤ c && c ≤ 'Z') || c == '_'

def isIdentifierChar (c : Char) : Bool := isIdentifierStart c || ('0' ≤ c && c ≤ '9')

def isIdentifier (name : List Char) : Bool :=
  match name with
  | [] => false
  | c :: cs => isIdentifierStart c && cs.all isIdentifierChar

/-- A character inside quotes. Printable ASCII stands for itself, apart from quotes and the backslash. -/
def escapeChar (c : Char) : List Char :=
  if c = '\t' then ['\\', 't']
  else if c = '\n' then ['\\', 'n']
  else if c = '\r' then ['\\', 'r']
  else if c = '\'' then ['\\', '\'']
  else if c = '"' then ['\\', '"']
  else if c = '\\' then ['\\', '\\']
  else if ' ' ≤ c && c ≤ '~' then [c]
  else ['\\', 'u', '\x7b'] ++ Nat.toDigits 16 c.toNat ++ ['\x7d']

def escape (label : List Char) : List Char := label.flatMap escapeChar

def quoted (label : String) : List Char := '"' :: escape label.toList ++ ['"']

/-- An attribute in brackets. -/
def attributeList (name : String) (value : String) : List Char :=
  '[' :: name.toList ++ '=' :: quoted value ++ [']']

/-- The number of a node behind the first letter of the graph's name. -/
def nodeName (g : Graph) (id : Nat) : List Char :=
  g.name.toList.take 1 ++ (toString id).toList

def nodeStatement (g : Graph) (n : Node) : List Char :=
  nodeName g n.id ++ attributeList "label" n.label ++ [';']

def edgeStatement (g : Graph) (e : Edge) : List Char :=
  let color :=
    match e.kind.color? with
    | none => []
    | some c => attributeList "color" c
  nodeName g e.source ++ " -> ".toList ++ nodeName g e.target ++ attributeList "label" e.label ++
    attributeList "style" e.kind.style ++ color ++ [';']

/-- Joins adjacent attribute lists, wherever a closing bracket meets an opening one. -/
def joinLists : List Char → List Char
  | ']' :: '[' :: rest => ' ' :: joinLists rest
  | c :: rest => c :: joinLists rest
  | [] => []

def indented (statement : List Char) : String :=
  String.ofList ("    ".toList ++ joinLists statement)

/-- The lines of a graph, whose name must be an identifier. -/
def render? (g : Graph) : Option (List String) :=
  if isIdentifier g.name.toList then
    some (("digraph " ++ g.name ++ " \x7b") ::
      (g.nodes.map (fun n => indented (nodeStatement g n)) ++
        g.edges.map (fun e => indented (edgeStatement g e)) ++ ["\x7d"]))
  else none

end PointsTo.Dot
