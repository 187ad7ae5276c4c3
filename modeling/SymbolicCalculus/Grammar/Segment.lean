import SymbolicCalculus.Grammar.ParseError
import SymbolicCalculus.Token

/-!
# Grouping by parentheses

The tokens of a source become nested lists of segments: raw text, operators, and groups for what
stands between matching parentheses. White space ends here. Raw tokens that only white space kept
apart become one segment, so `x y` is the text `xy`.

`Segment.ofTokens` reads the tokens left to right and keeps the groups that are still open on a
stack.
-/

namespace SymbolicCalculus

/-- A segment of a source text. -/
inductive Segment where
  | raw (text : List Glyph)
  | operator (op : Operator) (span : Span)
  /-- The segments between matching parentheses; the span includes both of them. -/
  | group (segments : List Segment) (span : Span)

namespace Segment

/-- A group that has not been closed yet. -/
structure OpenGroup where
  /-- The segments before its opening parenthesis, the nearest one first. -/
  before : List Segment
  /-- Its opening parenthesis. -/
  paren : Span

/-- Adds raw text after the segments, given the nearest one first. Text right after text continues
it. -/
def pushRaw (text : List Glyph) : List Segment → List Segment
  | raw previous :: before => raw (previous ++ text) :: before
  | before => raw text :: before

/-- Reads the remaining tokens. `groups` are the groups that are open, innermost first, and
`segments` are those read since the innermost one was opened, the nearest one first. -/
def collect (maxNesting : Nat) :
    List OpenGroup → List Segment → List Token → Except (Located ParseError) (List Segment)
  | [], segments, [] => .ok segments.reverse
  -- of several open groups the innermost one is reported
  | unclosed :: _, _, [] =>
    .error (.atSpan (.unclosedParenthesis true) ⟨unclosed.paren.start, unclosed.paren.start + 1⟩)
  | groups, segments, token :: tokens =>
    match token.kind with
    | .whiteSpace => collect maxNesting groups segments tokens
    | .raw => collect maxNesting groups (pushRaw token.glyphs segments) tokens
    | .operator op => collect maxNesting groups (operator op token.span :: segments) tokens
    | .openParen =>
      if groups.length ≥ maxNesting then .error (.atSpan (.nestingTooDeep maxNesting) token.span)
      else collect maxNesting (⟨segments, token.span⟩ :: groups) [] tokens
    | .closeParen =>
      match groups with
      | [] => .error (.atSpan (.unclosedParenthesis false) token.span)
      | closed :: groups =>
        let span := closed.paren.through token.span
        -- white space is no segment, so parentheses around blanks are empty too
        if segments.isEmpty then .error (.atSpan .emptyParenthesis span)
        else collect maxNesting groups (group segments.reverse span :: closed.before) tokens

/-- The segments of a list of tokens, with parentheses nested at most `maxNesting` deep. -/
def ofTokens (maxNesting : Nat) (tokens : List Token) :
    Except (Located ParseError) (List Segment) :=
  collect maxNesting [] [] tokens

end Segment

end SymbolicCalculus
