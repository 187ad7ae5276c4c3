import SymbolicCalculus.Grammar.Operand

/-!
# Chains of operands and operators

A chain lists operands and operators in the order of the source. It is brought down to a single
operand one kind of operator at a time.

1. A minus at the start, or right after `^`, is the sign of the one operand after it. So `-x^2` is
   the square of minus `x`.
2. Operators that begin or end the chain, or follow one another, are refused.
3. `^` is applied, left to right, then `*` and `/`.
4. Operands with nothing between them are multiplied. So `1/2x` is a half of `x`.
5. `+` and `-` are applied, left to right.
-/

namespace SymbolicCalculus

/-- A link of a chain. -/
inductive Link (K : Type) where
  | operand (x : Operand K)
  | operator (op : Operator) (span : Span)

/-- The link is the given operator. -/
def Link.isOperator {K : Type} (op : Operator) : Link K → Bool
  | operator other _ => other == op
  | operand _ => false

/-- Operands and operators in the order of the source. -/
abbrev Chain (K : Type) := List (Link K)

namespace Chain

variable {K : Type}

/-! ### Signs -/

section Signs

variable [Scalar K]

/-- The operand multiplied by minus one; `sign` is where the minus was written. -/
def negated (sign : Span) (x : Operand K) : Operand K :=
  x.below (fun e => .product [.number Scalar.minusOne, e]) (sign.through x.span)

/-- A minus between the link `previous` and the chain `rest` is a sign. At the start of the chain an
operand has to follow; right after `^` it can mean nothing else. -/
def isSign (previous : Option (Link K)) (rest : Chain K) : Bool :=
  match previous, rest with
  | none, .operand _ :: _ => true
  | none, _ => false
  | some link, _ => link.isOperator .pow

/-- Multiplies the operand after each sign by minus one, in a chain that comes after the link
`previous`. -/
def applySignsAfter (maxDepth : Nat) :
    (previous : Option (Link K)) → Chain K → Except (Located ParseError) (Chain K)
  | _, [] => .ok []
  | previous, .operator .sub sign :: rest =>
    if isSign previous rest then
      match rest with
      | .operand x :: rest => do
        let x ← (negated sign x).limit maxDepth
        let rest ← applySignsAfter maxDepth (some (.operand x)) rest
        return .operand x :: rest
      -- only after `^`, since a sign at the start has its operand
      | .operator _ span :: _ => .error (.atSpan .adjacentOperators (sign.through span))
      | [] => .error (.atSpan (.missingOperand false) sign)
    else do
      let rest ← applySignsAfter maxDepth (some (.operator .sub sign)) rest
      return .operator .sub sign :: rest
  | _, link :: rest => do
    let rest ← applySignsAfter maxDepth (some link) rest
    return link :: rest

/-- Multiplies the operand after each sign by minus one. -/
def applySigns (maxDepth : Nat) (chain : Chain K) : Except (Located ParseError) (Chain K) :=
  applySignsAfter maxDepth none chain

end Signs

/-! ### Misplaced operators -/

/-- Refuses misplaced operators in a chain that comes after the link `previous`. A minus may begin
the chain, unless it is all there is. -/
def checkAfter : (previous : Option (Link K)) → Chain K → Except (Located ParseError) Unit
  | _, [] => .ok ()
  | _, .operand x :: rest => checkAfter (some (.operand x)) rest
  | previous, .operator op span :: rest =>
    match previous with
    | none =>
      -- nothing comes before the operator, and only a minus may do without
      if rest.isEmpty || op != .sub then .error (.atSpan (.missingOperand true) span)
      else checkAfter (some (.operator op span)) rest
    | some link =>
      if rest.isEmpty then .error (.atSpan (.missingOperand false) span)
      else
        match link with
        | .operator _ before => .error (.atSpan .adjacentOperators (before.through span))
        | .operand _ => checkAfter (some (.operator op span)) rest

/-- Refuses an operator at the start or at the end of the chain and one right after another. -/
def check (chain : Chain K) : Except (Located ParseError) Unit := checkAfter none chain

/-! ### Applying the operators -/

section Apply

variable [Scalar K]

/-- The left operand of an operator with the links before that operand, where `before` are the links
before the operator, nearest first. A minus with nothing before it subtracts from zero. -/
def leftOperand (op : Operator) (span : Span) (before : Chain K) :
    Except (Located ParseError) (Operand K × Chain K) :=
  match before with
  | .operand x :: before => .ok (x, before)
  | [] =>
    -- the sign step and the check leave no such minus in a chain
    if op = .sub then .ok (.atom (.number 0) span, [])
    else .error (.atSpan (.missingOperand true) span)
  | .operator _ _ :: _ => .error (.atSpan (.missingOperand true) span)

/-- Applies every operator of the tier to its neighbours, where `before` are the links that were
dealt with, nearest first. -/
def applyTierAfter (tier : Operator → Bool) (maxDepth : Nat) :
    (before : Chain K) → Chain K → Except (Located ParseError) (Chain K)
  | before, [] => .ok before.reverse
  | before, .operand x :: rest => applyTierAfter tier maxDepth (.operand x :: before) rest
  | before, .operator op span :: rest =>
    if tier op then
      match rest with
      | .operand y :: rest => do
        let (x, before) ← leftOperand op span before
        let z ← (x.apply op y).limit maxDepth
        applyTierAfter tier maxDepth (.operand z :: before) rest
      | _ => .error (.atSpan (.missingOperand false) span)
    else applyTierAfter tier maxDepth (.operator op span :: before) rest

/-- Applies every operator of the tier to its neighbours, left to right. -/
def applyTier (tier : Operator → Bool) (maxDepth : Nat) (chain : Chain K) :
    Except (Located ParseError) (Chain K) :=
  applyTierAfter tier maxDepth [] chain

end Apply

/-- Multiplies neighbouring operands, where `before` are the links that were dealt with, nearest
first. -/
def multiplyAfter (maxDepth : Nat) :
    (before : Chain K) → Chain K → Except (Located ParseError) (Chain K)
  | before, [] => .ok before.reverse
  -- the product takes the place of both, and may have another neighbour
  | .operand x :: before, .operand y :: rest => do
    let z ← (x.apply .mul y).limit maxDepth
    multiplyAfter maxDepth (.operand z :: before) rest
  | before, link :: rest => multiplyAfter maxDepth (link :: before) rest

/-- Multiplies operands with nothing between them, left to right. -/
def multiplyNeighbours (maxDepth : Nat) (chain : Chain K) :
    Except (Located ParseError) (Chain K) :=
  multiplyAfter maxDepth [] chain

/-! ### All steps -/

/-- The tier of the powers. -/
def isPower (op : Operator) : Bool := op == .pow

/-- The tier of the explicit products and quotients. -/
def isMultiplicative (op : Operator) : Bool := op == .mul || op == .div

/-- The tier of the sums and differences. -/
def isAdditive (op : Operator) : Bool := op == .add || op == .sub

variable [Scalar K]

/-- Applies the operators of a chain in which none is misplaced. -/
def applyOperators (maxDepth : Nat) (chain : Chain K) : Except (Located ParseError) (Chain K) := do
  let chain ← applyTier isPower maxDepth chain
  let chain ← applyTier isMultiplicative maxDepth chain
  let chain ← multiplyNeighbours maxDepth chain
  applyTier isAdditive maxDepth chain

/-- Brings a chain that was read from `span` down to one operand. -/
def toOperand (maxDepth : Nat) (span : Span) (chain : Chain K) :
    Except (Located ParseError) (Operand K) := do
  let chain ← applySigns maxDepth chain
  check chain
  match ← applyOperators maxDepth chain with
  | [.operand x] => .ok x
  -- not reached by a chain that was let pass
  | _ => .error (.atSpan .invalidSyntax span)

end Chain

end SymbolicCalculus
