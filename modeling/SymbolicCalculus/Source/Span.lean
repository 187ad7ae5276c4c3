/-!
# Places in a source text

Places in a source text are byte offsets into its UTF-8 encoding. A `Glyph` is a character with
the place at which it starts, so a list of glyphs taken out of a text still knows where each of its
characters came from, even after what stood between them was dropped.
-/

namespace SymbolicCalculus

/-- The bytes of a source text from `start` up to `stop`, the latter excluded. -/
structure Span where
  /-- The offset of the first byte. -/
  start : Nat
  /-- The offset after the last byte. -/
  stop : Nat
  deriving DecidableEq

namespace Span

/-- From the start of the one span to the end of the other. -/
def through (first last : Span) : Span := ⟨first.start, last.stop⟩

/-- The span without its first and its last byte. -/
def inner (span : Span) : Span := ⟨span.start + 1, span.stop - 1⟩

/-- The empty span at the end of a span. -/
def after (span : Span) : Span := ⟨span.stop, span.stop⟩

end Span

/-- A character of a source text, with the offset at which it starts. -/
structure Glyph where
  char : Char
  /-- The offset of its first byte. -/
  offset : Nat
  deriving DecidableEq

namespace Glyph

/-- The bytes of the character. -/
def span (g : Glyph) : Span := ⟨g.offset, g.offset + g.char.utf8Size⟩

/-- The characters of a text that starts at the given offset. -/
def ofChars (offset : Nat) : List Char → List Glyph
  | [] => []
  | c :: cs => ⟨c, offset⟩ :: ofChars (offset + c.utf8Size) cs

/-- The characters of a source text. -/
def ofSource (source : String) : List Glyph := ofChars 0 source.toList

/-- The text of a list of glyphs. -/
def text (gs : List Glyph) : String := String.ofList (gs.map char)

/-- From the first byte of the first glyph to the last byte of the last one. -/
def cover (gs : List Glyph) : Span :=
  match gs.head?, gs.getLast? with
  | some first, some last => first.span.through last.span
  | _, _ => ⟨0, 0⟩

/-- Taking the places off gives the characters back. -/
theorem map_char_ofChars (offset : Nat) (cs : List Char) : (ofChars offset cs).map char = cs := by
  induction cs generalizing offset with
  | nil => rfl
  | cons c cs ih => simp [ofChars, ih]

end Glyph

/-- Something that is said about the given places of a source text. Nothing may be pointed at. -/
structure Located (α : Type) where
  cause : α
  spans : List Span
  deriving DecidableEq

namespace Located

variable {α : Type}

/-- Says something about one place. -/
def atSpan (cause : α) (span : Span) : Located α := ⟨cause, [span]⟩

/-- Says something about no place in particular. -/
def nowhere (cause : α) : Located α := ⟨cause, []⟩

/-- The offset of the first place. -/
def offset? (l : Located α) : Option Nat := l.spans.head?.map Span.start

end Located

end SymbolicCalculus
