/-!
# Syntax trees

A node belongs to a rule of the grammar and has a forest of leaves and further
nodes below it.  The leaves carry data of any type: a parse puts tokens there,
and two trees are compared after their leaves have been mapped to what counts.
-/

namespace JackTree

inductive Rule where
  | classDec | classVarDec | subroutineDec | parameterList | subroutineBody | varDec
  | statements | letStatement | ifStatement | whileStatement | doStatement | returnStatement
  | expression | term | expressionList
  deriving DecidableEq, Repr

namespace Rule

def tag : Rule → String
  | classDec => "class"
  | classVarDec => "classVarDec"
  | subroutineDec => "subroutineDec"
  | parameterList => "parameterList"
  | subroutineBody => "subroutineBody"
  | varDec => "varDec"
  | statements => "statements"
  | letStatement => "letStatement"
  | ifStatement => "ifStatement"
  | whileStatement => "whileStatement"
  | doStatement => "doStatement"
  | returnStatement => "returnStatement"
  | expression => "expression"
  | term => "term"
  | expressionList => "expressionList"

/-- The name under which a rule is listed: its tag with a capital. -/
def name (rule : Rule) : String :=
  rule.tag.capitalize

/-- Every rule, once. -/
def all : List Rule :=
  [classDec, classVarDec, subroutineDec, parameterList, subroutineBody, varDec,
    statements, letStatement, ifStatement, whileStatement, doStatement, returnStatement,
    expression, term, expressionList]

theorem mem_all (rule : Rule) : rule ∈ all := by
  cases rule <;> decide

def ofTag? (tag : String) : Option Rule :=
  all.find? fun rule => rule.tag == tag

theorem ofTag?_tag (rule : Rule) : ofTag? rule.tag = some rule := by
  cases rule <;> decide

end Rule

/-! ## Forests -/

/-- Leaves and nodes side by side, each with what follows it. -/
inductive Forest (α : Type) where
  | nil
  | leaf (value : α) (rest : Forest α)
  | node (rule : Rule) (children rest : Forest α)
  deriving DecidableEq, Repr

structure Node (α : Type) where
  rule : Rule
  children : Forest α
  deriving DecidableEq, Repr

namespace Forest

variable {α β : Type}

def append : Forest α → Forest α → Forest α
  | nil, forest => forest
  | leaf value rest, forest => leaf value (rest.append forest)
  | node rule children rest, forest => node rule children (rest.append forest)

instance : Append (Forest α) := ⟨append⟩

def leaves : Forest α → List α
  | nil => []
  | leaf value rest => value :: rest.leaves
  | node _ children rest => children.leaves ++ rest.leaves

def nodes : Forest α → List (Node α)
  | nil => []
  | leaf _ rest => rest.nodes
  | node rule children rest => ⟨rule, children⟩ :: rest.nodes

def map (f : α → β) : Forest α → Forest β
  | nil => nil
  | leaf value rest => leaf (f value) (rest.map f)
  | node rule children rest => node rule (children.map f) (rest.map f)

@[simp] theorem nil_append (forest : Forest α) : nil ++ forest = forest := rfl

@[simp] theorem leaf_append (value : α) (rest forest : Forest α) :
    leaf value rest ++ forest = leaf value (rest ++ forest) := rfl

@[simp] theorem node_append (rule : Rule) (children rest forest : Forest α) :
    node rule children rest ++ forest = node rule children (rest ++ forest) := rfl

@[simp] theorem append_nil (forest : Forest α) : forest ++ nil = forest := by
  induction forest <;> simp_all

theorem append_assoc (left middle right : Forest α) :
    left ++ middle ++ right = left ++ (middle ++ right) := by
  induction left <;> simp_all

@[simp] theorem leaves_append (left right : Forest α) :
    (left ++ right).leaves = left.leaves ++ right.leaves := by
  induction left <;> simp_all [leaves]

@[simp] theorem map_append (f : α → β) (left right : Forest α) :
    (left ++ right).map f = left.map f ++ right.map f := by
  induction left <;> simp_all [map]

@[simp] theorem leaves_map (f : α → β) (forest : Forest α) :
    (forest.map f).leaves = forest.leaves.map f := by
  induction forest <;> simp_all [map, leaves]

end Forest

namespace Node

variable {α β : Type}

def leaves (node : Node α) : List α :=
  node.children.leaves

def nodes (node : Node α) : List (Node α) :=
  node.children.nodes

/-- The first node of a rule directly below a node. -/
def find? (node : Node α) (rule : Rule) : Option (Node α) :=
  node.nodes.find? fun child => child.rule == rule

def map (f : α → β) (node : Node α) : Node β :=
  ⟨node.rule, node.children.map f⟩

end Node

end JackTree
