import StackAlgebra.Expr.Basic

/-!
# The canonical order

Every expression has a `Key`: its tree with the children of sums and products sorted. Keys are
ordered numbers first, then constants, then variables, then compound expressions by kind and by
children from left to right. Two expressions are the same (`Expr.same`) if their keys are, that is,
up to the order of terms and factors at any depth; `Expr.sort` sorts a list by keys.

An angle function may lack its measure, and there is no order between a measure and none. Keys that
differ there first are not comparable (`Key.comparable`). `Expr.compare` and `Expr.sorted` refuse
such expressions; a list of them could be put in no order at all, whatever the way of sorting.
-/

namespace StackAlgebra

/-- The key of an expression. An angle measure is the last child of its function's key. -/
inductive Key where
  | measure (name : Option String)
  | num (value : Rat)
  | const (name : String)
  | var (name : String)
  | node (kind : Nat) (children : List Key)

namespace Key

/-- The order of rationals. -/
def compareRat (x y : Rat) : Ordering :=
  if x < y then .lt else if y < x then .gt else .eq

/-- The order of names, by code point; no name comes first. -/
def compareName : Option String → Option String → Ordering
  | none, none => .eq
  | none, some _ => .lt
  | some _, none => .gt
  | some x, some y => compare x y

/-- The kinds of keys in their order. -/
def rank : Key → Nat
  | measure _ => 0
  | num _ => 1
  | const _ => 2
  | var _ => 3
  | node _ _ => 4

mutual
/-- The order of keys. -/
def cmp : Key → Key → Ordering
  | measure x, measure y => compareName x y
  | num x, num y => compareRat x y
  | const x, const y => compare x y
  | var x, var y => compare x y
  | node x xs, node y ys => (compare x y).then (cmpList xs ys)
  | x, y => compare x.rank y.rank

/-- The order of lists of keys: by the first difference, a list before its continuations. -/
def cmpList : List Key → List Key → Ordering
  | [], [] => .eq
  | [], _ :: _ => .lt
  | _ :: _, [] => .gt
  | x :: xs, y :: ys => (cmp x y).then (cmpList xs ys)
end

mutual
/-- The keys are the same, or what they differ in first can be ordered. -/
def comparable : Key → Key → Bool
  | measure x, measure y => x.isSome == y.isSome
  | node x xs, node y ys => x ≠ y || comparableList xs ys
  | _, _ => true

/-- The lists of keys are the same, or what they differ in first can be ordered. -/
def comparableList : List Key → List Key → Bool
  | x :: xs, y :: ys => if cmp x y = .eq then comparableList xs ys else comparable x y
  | _, _ => true
end

/-- Any two of the keys are comparable. -/
def areComparable : List Key → Bool
  | [] => true
  | x :: xs => xs.all (comparable x) && areComparable xs

/-- Place a key before the first one that is not smaller. -/
def insert (x : Key) : List Key → List Key
  | [] => [x]
  | y :: ys => if cmp y x = .lt then y :: insert x ys else x :: y :: ys

/-- The keys in order. -/
def sort (xs : List Key) : List Key :=
  xs.foldr insert []

end Key

/-- The place of a function in the order of kinds. -/
def UnaryFunction.kind : UnaryFunction → Nat
  | neg => 3
  | recip => 4
  | abs => 5
  | sqrt => 6
  | square => 7
  | ln => 8

/-- The place of a function in the order of kinds. -/
def AngleFunction.kind : AngleFunction → Nat
  | sin => 11
  | cos => 12
  | tan => 13
  | asin => 14
  | acos => 15
  | atan => 16

namespace Expr

mutual
/-- The key of an expression. -/
def key : Expr → Key
  | num q => .num q
  | const c => .const c.name
  | var x => .var x
  | power b e => .node 0 [b.key, e.key]
  | product fs => .node 1 (Key.sort (keys fs))
  | sum ts => .node 2 (Key.sort (keys ts))
  | unary f x => .node f.kind [x.key]
  | log x b => .node 9 [x.key, b.key]
  | mod x d => .node 10 [x.key, d.key]
  | angle f x m => .node f.kind [x.key, .measure m]

/-- The keys of expressions. -/
def keys : List Expr → List Key
  | [] => []
  | e :: es => e.key :: keys es
end

/-- The canonical order of expressions. -/
def cmp (a b : Expr) : Ordering :=
  a.key.cmp b.key

/-- The expressions are equal up to the order of terms and factors. -/
def same (a b : Expr) : Bool :=
  a.cmp b == .eq

/-- Place an expression before the first one that is not smaller. -/
def insert (a : Expr) : List Expr → List Expr
  | [] => [a]
  | b :: bs => if b.cmp a = .lt then b :: insert a bs else a :: b :: bs

/-- The expressions in canonical order; those that are the same keep their order. -/
def sort (es : List Expr) : List Expr :=
  es.foldr insert []

/-! ## Expressions without an order -/

/-- Any two of the expressions are comparable. -/
def areComparable (es : List Expr) : Bool :=
  Key.areComparable (keys es)

/-- The terms or factors of the expression itself, if it has any, can be put in order. -/
def hasOrder : Expr → Bool
  | sum es | product es => areComparable es
  | _ => true

mutual
/-- Terms and factors can be put in order at any depth. -/
def isOrderly : Expr → Bool
  | num _ | const _ | var _ => true
  | sum es | product es => areOrderly es && areComparable es
  | unary _ x | angle _ x _ => x.isOrderly
  | power x y | log x y | mod x y => x.isOrderly && y.isOrderly

/-- Terms and factors of all expressions can be put in order. -/
def areOrderly : List Expr → Bool
  | [] => true
  | e :: es => e.isOrderly && areOrderly es
end

/-- How two expressions compare, if they do. -/
def compare (a b : Expr) : Except Error Ordering :=
  if areOrderly [a, b] && areComparable [a, b] then .ok (a.cmp b) else .error .incomparable

/-- The expressions in canonical order, if they have one. An expression alone is not looked at. -/
def sorted (es : List Expr) : Except Error (List Expr) :=
  if es.length ≤ 1 || (areOrderly es && areComparable es) then .ok (sort es)
  else .error .incomparable

end Expr
end StackAlgebra
