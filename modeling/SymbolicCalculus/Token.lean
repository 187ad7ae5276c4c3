import SymbolicCalculus.Source.Span
import SymbolicCalculus.Text.WhiteSpace

/-!
# Tokens

A source text is cut into tokens: each operator and each parenthesis is a token of its own, and
what is left falls into runs of white space and runs of raw text. Runs are as long as they can be.

A token holds its glyphs, and the tokens of a source hold exactly the glyphs of the source, in
order.
-/

namespace SymbolicCalculus

/-- The operators between two operands. -/
inductive Operator where
  | add
  | sub
  | mul
  | div
  | pow
  deriving DecidableEq

/-- The kinds of tokens. -/
inductive TokenKind where
  | whiteSpace
  | operator (op : Operator)
  | openParen
  | closeParen
  /-- A run of any other characters. -/
  | raw
  deriving DecidableEq

namespace TokenKind

/-- The kind of token that a character belongs to. -/
def ofChar : Char → TokenKind
  | '+' => operator .add
  | '-' => operator .sub
  | '*' => operator .mul
  | '/' => operator .div
  | '^' => operator .pow
  | '(' => openParen
  | ')' => closeParen
  | c => if Text.isWhiteSpace c then whiteSpace else raw

/-- Tokens of the kind are runs, which take in neighbouring characters of the same kind. -/
def isRun : TokenKind → Bool
  | whiteSpace => true
  | raw => true
  | _ => false

end TokenKind

/-- A token of a source text. -/
structure Token where
  kind : TokenKind
  glyphs : List Glyph
  deriving DecidableEq

namespace Token

/-- The bytes of the token. -/
def span (t : Token) : Span := Glyph.cover t.glyphs

/-- The text of the token. -/
def lexeme (t : Token) : String := Glyph.text t.glyphs

/-- Puts a character in front of the tokens that follow it. It joins the first of them if both
belong to a run of the same kind. -/
def push (g : Glyph) : List Token → List Token
  | [] => [⟨.ofChar g.char, [g]⟩]
  | t :: ts =>
    let kind := TokenKind.ofChar g.char
    if kind.isRun && kind == t.kind then ⟨kind, g :: t.glyphs⟩ :: ts
    else ⟨kind, [g]⟩ :: t :: ts

/-- The tokens of a list of glyphs. -/
def ofGlyphs (gs : List Glyph) : List Token := gs.foldr push []

/-- All tokens of a source text. -/
def tokenize (source : String) : List Token := ofGlyphs (Glyph.ofSource source)

/-- The token is white space. -/
def isWhiteSpace (t : Token) : Bool := t.kind == .whiteSpace

/-- The tokens of a source text that are not white space. -/
def significant (source : String) : List Token :=
  (tokenize source).filter fun t => !t.isWhiteSpace

/-- The tokens hold the glyphs of the source: none is lost, added or moved. -/
theorem flatMap_glyphs_ofGlyphs (gs : List Glyph) : (ofGlyphs gs).flatMap glyphs = gs := by
  induction gs with
  | nil => rfl
  | cons g gs ih =>
    have push_glyphs (ts : List Token) : (push g ts).flatMap glyphs = g :: ts.flatMap glyphs := by
      cases ts with
      | nil => rfl
      | cons t ts => simp only [push]; split <;> simp
    rw [ofGlyphs, List.foldr_cons, push_glyphs]
    exact congrArg (g :: ·) ih

end Token

end SymbolicCalculus
