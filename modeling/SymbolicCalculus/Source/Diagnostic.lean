import SymbolicCalculus.Source.Span

/-!
# Diagnostics and reports

A `Diagnostic` is what is said to the reader about an error: a message, a label for the place in
the source that is pointed at, and a hint at what to do.

`Diagnostic.report` lays it out below a one-line source: the line, an underline of the place with a
tick in its middle, the label hanging off the tick, and the hint.
-/

namespace SymbolicCalculus

/-- What is said about an error. -/
structure Diagnostic where
  /-- What went wrong. -/
  message : String
  /-- What is wrong with the place that is pointed at. -/
  label : Option String
  /-- What to do about it. -/
  help : Option String
  deriving DecidableEq

namespace Diagnostic

/-- The same character a number of times. -/
def ruler (c : Char) (count : Nat) : String := String.ofList (List.replicate count c)

/-- A line without the blanks at its end. -/
def trimLine (line : String) : String :=
  String.ofList (line.toList.reverse.dropWhile (· == ' ')).reverse

/-- The underline of a span, from the left margin of the source: a dash below every column, but a
tick below the middle one. -/
def underline (span : Span) : String :=
  let middle := (span.start + span.stop) / 2
  ruler ' ' span.start ++ ruler '─' (middle - span.start) ++ "┬" ++
    ruler '─' (span.stop - middle - 1)

/-- The label of a span, hanging off the tick of its underline. -/
def hangingLabel (span : Span) (label : String) : String :=
  let middle := (span.start + span.stop) / 2
  ruler ' ' middle ++ "╰" ++ ruler '─' (span.stop + 1 - middle) ++ " " ++ label

/-- The lines that show a span of a one-line source and its label. -/
def excerpt (name source : String) (span : Span) (label : String) : List String :=
  [ "   ╭─[" ++ name ++ ":1:" ++ toString (span.start + 1) ++ "]",
    "   │",
    " 1 │ " ++ source,
    "   │ " ++ underline span,
    "   │ " ++ hangingLabel span label ]

/-- The lines of the hint. -/
def helpLines : Option String → List String
  | none => []
  | some help => ["   │", "   │ Help: " ++ help]

/-- The lines of the report about a one-line source of the given name. Without a place to show it
consists of the message alone. -/
def report (d : Diagnostic) (spans : List Span) (name source : String) : List String :=
  let title := "Error: " ++ d.message
  match spans, d.label with
  | span :: _, some label =>
    (title :: excerpt name source span label ++ helpLines d.help ++ ["───╯"]).map trimLine
  | _, _ => [trimLine title]

end Diagnostic

end SymbolicCalculus
