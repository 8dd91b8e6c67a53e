import Downlevel.Text.Bytes

/-! A span is a stretch of source text, given by the byte offsets of its two ends. -/

namespace Downlevel

/-- The stretch from the byte offset `start` up to, and without, the byte offset `stop`. -/
structure Span where
  start : Nat
  stop : Nat
deriving DecidableEq, Inhabited

namespace Span

/-- The number of bytes covered; a span whose ends are reversed covers none. -/
def size (span : Span) : Nat :=
  span.stop - span.start

/-- A span is empty when it covers no byte. -/
def isEmpty (span : Span) : Bool :=
  span.stop ≤ span.start

/-- The empty span where this one begins. -/
def startPoint (span : Span) : Span :=
  ⟨span.start, span.start⟩

/-- The smallest span that covers both. -/
def cover (a b : Span) : Span :=
  ⟨min a.start b.start, max a.stop b.stop⟩

/-- A line and a column, both counted from one; columns count bytes. -/
structure Position where
  line : Nat
  column : Nat
deriving DecidableEq

/-- Where the span starts in the text, unless its start splits a character. -/
def position? (span : Span) (source : String) : Option Position := do
  -- Everything before the start decides the line, and what follows the last break the column.
  let before ← Text.before? span.start source.toList
  let lastLine := (before.reverse.takeWhile (· != '\n')).reverse
  let lines := before.count '\n'
  -- An offset past the end still counts on from the last break.
  let column :=
    if lines = 0 then span.start + 1
    else span.start + 1 + Text.byteSize lastLine - Text.byteSize before
  return ⟨lines + 1, column⟩

end Span

end Downlevel
