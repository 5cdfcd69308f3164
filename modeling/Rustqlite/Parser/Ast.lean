import Rustqlite.Foundation.Double

/-!
# The syntax tree

The expressions that the parser builds.  A nested SELECT and the window of a
window function stay opaque: they are the types `S` and `W`.
-/

namespace Rustqlite.Parser

open Foundation

/-- A real that is written out is never a NaN. -/
structure RealLiteral where
  bits : UInt64
  notNaN : Double.isNaN bits = false
  deriving DecidableEq

inductive Literal where
  | null
  | integer (n : Int64)
  | real (r : RealLiteral)
  | text (s : String)
  | blob (b : Bytes)
  | bool (b : Bool)
  deriving DecidableEq

inductive UnaryOp where
  | negate
  | positive
  | not
  | bitNot
  deriving DecidableEq

inductive BinaryOp where
  | or
  | and
  | eq
  | ne
  | lt
  | le
  | gt
  | ge
  | add
  | sub
  | mul
  | div
  | mod
  | concat
  | is
  | isNot
  | like
  | glob
  | regexp
  | «match»
  | bitAnd
  | bitOr
  | shiftLeft
  | shiftRight
  | jsonExtract
  | jsonExtractText
  deriving DecidableEq

mutual

inductive Expr (S W : Type) where
  | literal (lit : Literal)
  | column (schema table : Option String) (name : String)
  | unary (op : UnaryOp) (expr : Expr S W)
  | binary (op : BinaryOp) (left right : Expr S W)
  | function (name : String) (distinct : Bool) (args : FunctionArgs S W)
      (filter : Option (Expr S W)) («over» : Option W)
  | bindParam (name : String)
  | between (expr low high : Expr S W) (negated : Bool)
  | «in» (expr : Expr S W) (values : List (Expr S W)) (negated : Bool)
  | inSubquery (expr : Expr S W) (subquery : S) (negated : Bool)
  | «exists» (subquery : S)
  | subquery (subquery : S)
  | row (values : List (Expr S W))
  | cast (expr : Expr S W) (typeName : String)
  | case (base : Option (Expr S W)) (whenThen : List (Expr S W × Expr S W))
      (elseExpr : Option (Expr S W))
  | collate (expr : Expr S W) (collation : String)
  | isDistinctFrom (left right : Expr S W) (negated : Bool)
  | aggRef (reg : Int)
  | coalesce2 (left right : Expr S W)

inductive FunctionArgs (S W : Type) where
  | star
  | list (args : List (Expr S W))

end

/-! ## Equality -/

section

variable {S W : Type}

def Literal.beq : Literal → Literal → Bool
  | .real r, .real r' => Double.value r.bits = Double.value r'.bits
  | l, l' => l = l'

mutual

def Expr.beq [BEq S] [BEq W] : Expr S W → Expr S W → Bool
  | .literal l, .literal l' => l.beq l'
  | .column s t n, .column s' t' n' => s = s' && t = t' && n = n'
  | .unary op e, .unary op' e' => op = op' && e.beq e'
  | .binary op l r, .binary op' l' r' => op = op' && l.beq l' && r.beq r'
  | .function n d a f w, .function n' d' a' f' w' =>
      n = n' && d = d' && a.beq a' && Expr.beqOption f f' && w == w'
  | .bindParam n, .bindParam n' => n = n'
  | .between e lo hi neg, .between e' lo' hi' neg' =>
      e.beq e' && lo.beq lo' && hi.beq hi' && neg = neg'
  | .in e vs neg, .in e' vs' neg' => e.beq e' && Expr.beqList vs vs' && neg = neg'
  | .inSubquery e s neg, .inSubquery e' s' neg' => e.beq e' && s == s' && neg = neg'
  | .exists s, .exists s' => s == s'
  | .subquery s, .subquery s' => s == s'
  | .row vs, .row vs' => Expr.beqList vs vs'
  | .cast e t, .cast e' t' => e.beq e' && t = t'
  | .case b wt el, .case b' wt' el' =>
      Expr.beqOption b b' && Expr.beqPairs wt wt' && Expr.beqOption el el'
  | .collate e c, .collate e' c' => e.beq e' && c = c'
  | .isDistinctFrom l r neg, .isDistinctFrom l' r' neg' => l.beq l' && r.beq r' && neg = neg'
  | .aggRef r, .aggRef r' => r = r'
  | .coalesce2 l r, .coalesce2 l' r' => l.beq l' && r.beq r'
  | _, _ => false
termination_by structural e => e

def FunctionArgs.beq [BEq S] [BEq W] : FunctionArgs S W → FunctionArgs S W → Bool
  | .star, .star => true
  | .list vs, .list vs' => Expr.beqList vs vs'
  | _, _ => false
termination_by structural e => e

def Expr.beqOption [BEq S] [BEq W] : Option (Expr S W) → Option (Expr S W) → Bool
  | none, none => true
  | some e, some e' => e.beq e'
  | _, _ => false
termination_by structural e => e

def Expr.beqList [BEq S] [BEq W] : List (Expr S W) → List (Expr S W) → Bool
  | [], [] => true
  | e :: es, e' :: es' => e.beq e' && Expr.beqList es es'
  | _, _ => false
termination_by structural e => e

def Expr.beqPairs [BEq S] [BEq W] : List (Expr S W × Expr S W) → List (Expr S W × Expr S W) → Bool
  | [], [] => true
  | p :: ps, p' :: ps' => Expr.beqPair p p' && Expr.beqPairs ps ps'
  | _, _ => false
termination_by structural ps => ps

def Expr.beqPair [BEq S] [BEq W] : Expr S W × Expr S W → Expr S W × Expr S W → Bool
  | (w, t), (w', t') => w.beq w' && t.beq t'
termination_by structural p => p

end

end

inductive NullsOrder where
  | first
  | last
  deriving DecidableEq

structure OrderingTerm (S W : Type) where
  expr : Expr S W
  desc : Bool
  nulls : Option NullsOrder

end Rustqlite.Parser
