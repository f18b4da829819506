import DeltaSlice.Model.Entity

/-!
Expressions: the nodes of routine bodies. Statements are expressions too. Every node carries a
number, its identity; the sub-expressions of a node are numbered by `children`, and index paths
through a body address nodes by these positions.
-/

namespace DeltaSlice

inductive UnaryOp where
  | not
  | neg
  | other (symbol : String)
deriving DecidableEq

namespace UnaryOp

def text : UnaryOp → String
  | not => "!"
  | neg => "-"
  | other s => s

def ofText : String → UnaryOp
  | "!" => not
  | "-" => neg
  | s => other s

end UnaryOp

/-- Operators. `assign` stores into its left operand; `both` and `either` build event lists. -/
inductive BinaryOp where
  | assign
  | both
  | either
  | and
  | or
  | eq
  | ne
  | add
  | sub
  | mul
  | div
  | mod
  | lt
  | le
  | gt
  | ge
  | other (symbol : String)
deriving DecidableEq

namespace BinaryOp

def text : BinaryOp → String
  | assign => "="
  | both => "&"
  | either => "|"
  | and => "&&"
  | or => "||"
  | eq => "=="
  | ne => "!="
  | add => "+"
  | sub => "-"
  | mul => "*"
  | div => "/"
  | mod => "%"
  | lt => "<"
  | le => "<="
  | gt => ">"
  | ge => ">="
  | other s => s

def ofText : String → BinaryOp
  | "=" => assign
  | "&" => both
  | "|" => either
  | "&&" => and
  | "||" => or
  | "==" => eq
  | "!=" => ne
  | "+" => add
  | "-" => sub
  | "*" => mul
  | "/" => div
  | "%" => mod
  | "<" => lt
  | "<=" => le
  | ">" => gt
  | ">=" => ge
  | s => other s

end BinaryOp

inductive Expr where
  | const (id : Nat) (value : Literal)
  /-- A variable: read, except as the target of an assignment. -/
  | var (id : Nat) (decl : Decl)
  /-- An event of the instance that runs the code, by name. -/
  | event (id : Nat) (name : String)
  | unary (id : Nat) (op : UnaryOp) (x : Expr)
  | binary (id : Nat) (op : BinaryOp) (x y : Expr)
  | bracket (id : Nat) (x : Expr)
  | block (id : Nat) (list : List Expr)
  | branch (id : Nat) (cond : Expr) (yes no : List Expr)
  | whileLoop (id : Nat) (label : String) (cond : Expr) (body : List Expr)
  /-- The body runs before the condition is evaluated for the first time. -/
  | doLoop (id : Nat) (label : String) (cond : Expr) (body : List Expr)
  | forLoop (id : Nat) (label : String) (init cond post : Expr) (body : List Expr)
  | switch (id : Nat) (label : String) (tag : Expr) (cases : List Expr)
  /-- A case of a switch; without a value, the default case. -/
  | arm (id : Nat) (value : Option Expr) (body : List Expr)
  | exit (id : Nat) (label : String)
  | next (id : Nat) (label : String)
  | ret (id : Nat) (value : Option Expr)
  | call (id : Nat) (routine : Routine) (args : List Expr)
  /-- The value of `x` qualifies `member`, a call or a field. -/
  | access (id : Nat) (x member : Expr)
  /-- No delay: at once. One delay: a delay or the zero unit. Two: amount and unit. -/
  | notify (id : Nat) (target : Expr) (delays : List Expr)
  | stop (id : Nat)
  | empty (id : Nat)

namespace Expr

def id : Expr → Nat
  | const i _ | var i _ | event i _ | unary i _ _ | binary i _ _ _ | bracket i _ | block i _
  | branch i _ _ _ | whileLoop i _ _ _ | doLoop i _ _ _ | forLoop i _ _ _ _ _ | switch i _ _ _
  | arm i _ _ | exit i _ | next i _ | ret i _ | call i _ _ | access i _ _ | notify i _ _
  | stop i | empty i => i

/-- The sub-expressions in index order. -/
def children : Expr → List Expr
  | unary _ _ x | bracket _ x => [x]
  | binary _ _ x y | access _ x y => [x, y]
  | block _ l => l
  | branch _ c yes no => c :: (yes ++ no)
  | whileLoop _ _ c body | doLoop _ _ c body => c :: body
  | forLoop _ _ init cond post body => init :: cond :: (body ++ [post])
  | switch _ _ tag cases => tag :: cases
  | arm _ none body => body
  | arm _ (some v) body => v :: body
  | ret _ (some v) => [v]
  | call _ _ args => args
  | notify _ target delays => target :: delays
  | const .. | var .. | event .. | exit .. | next .. | ret _ none | stop _ | empty _ => []

/-- The label of a loop. -/
def loopLabel? : Expr → Option String
  | whileLoop _ l _ _ | doLoop _ l _ _ | forLoop _ l _ _ _ _ => some l
  | _ => none

/-- Statements in braces: each followed by a semicolon, divided by blanks. -/
def statements (texts : List String) : String :=
  " ".intercalate (texts.map (· ++ ";"))

mutual

def text : Expr → String
  | const _ v => v.render
  | var _ d => d.name
  | event _ n => n
  | unary _ op x => op.text ++ x.text
  | binary _ op x y => x.text ++ " " ++ op.text ++ " " ++ y.text
  | bracket _ x => "(" ++ x.text ++ ")"
  | block _ l => "\x7b" ++ statements (texts l) ++ "\x7d"
  | branch _ c yes [] => "if (" ++ c.text ++ ") \x7b" ++ statements (texts yes) ++ "\x7d"
  | branch _ c yes (e :: no) =>
    "if (" ++ c.text ++ ") \x7b" ++ statements (texts yes) ++ "\x7d else \x7b"
      ++ statements (e.text :: texts no) ++ "\x7d"
  | whileLoop _ _ c body => "while (" ++ c.text ++ ") \x7b" ++ statements (texts body) ++ "\x7d"
  | doLoop _ _ c body => "do \x7b" ++ statements (texts body) ++ "\x7d while (" ++ c.text ++ ")"
  | forLoop _ _ init cond post body =>
    "for (" ++ init.text ++ "; " ++ cond.text ++ "; " ++ post.text ++ ") \x7b"
      ++ statements (texts body) ++ "\x7d"
  | switch _ _ tag cases => "switch (" ++ tag.text ++ ") \x7b" ++ String.join (texts cases) ++ "\x7d"
  | arm _ none body => "default: " ++ statements (texts body)
  | arm _ (some v) body => "case " ++ v.text ++ ": " ++ statements (texts body)
  | exit _ _ => "break"
  | next _ _ => "continue"
  | ret _ none => "return"
  | ret _ (some v) => "return " ++ v.text
  | call _ r args => r.name ++ "(" ++ ", ".intercalate (texts args) ++ ")"
  | access _ x m => x.text ++ "." ++ m.text
  | notify _ e delays => e.text ++ ".notify(" ++ ", ".intercalate (texts delays) ++ ")"
  | stop _ => "sc_stop()"
  | empty _ => ";"

def texts : List Expr → List String
  | [] => []
  | e :: es => e.text :: texts es

end

mutual

/-- The node `e`, met below `parent`, and every node below `e`, each with the node above it. -/
def links (parent : Option Expr) (e : Expr) : List (Nat × Expr) :=
  parent.toList.map (e.id, ·) ++ match e with
  | unary _ _ x | bracket _ x => x.links e
  | binary _ _ x y | access _ x y => x.links e ++ y.links e
  | block _ l => linksAll e l
  | branch _ c yes no => c.links e ++ (linksAll e yes ++ linksAll e no)
  | whileLoop _ _ c body | doLoop _ _ c body => c.links e ++ linksAll e body
  | forLoop _ _ init cond post body =>
    init.links e ++ (cond.links e ++ (linksAll e body ++ post.links e))
  | switch _ _ tag cases => tag.links e ++ linksAll e cases
  | arm _ none body => linksAll e body
  | arm _ (some v) body => v.links e ++ linksAll e body
  | ret _ (some v) => v.links e
  | call _ _ args => linksAll e args
  | notify _ target delays => target.links e ++ linksAll e delays
  | const .. | var .. | event .. | exit .. | next .. | ret _ none | stop _ | empty _ => []

def linksAll (parent : Option Expr) : List Expr → List (Nat × Expr)
  | [] => []
  | e :: es => e.links parent ++ linksAll parent es

end

end Expr

end DeltaSlice
