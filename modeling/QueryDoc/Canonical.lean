import QueryDoc.Operation
import QueryDoc.Source.Mask
import QueryDoc.Grammar.Parser
import QueryDoc.Grammar.Printer

/-!
# QueryDoc.Canonical

The canonical form of a document: what the printer makes of the document that the parser
reads, with all float literals and object values as they were written.
-/

namespace QueryDoc

/-- How documents are laid out. -/
structure Layout where
  /-- The number of blanks per level. -/
  indent : UInt32
deriving DecidableEq, Repr

/-- Two blanks per level. -/
def Layout.standard : Layout := ⟨2⟩

/-- A document that has no canonical form. -/
structure ParseError where
  /-- The place of what cannot continue the document, in its masked text. -/
  place : Grammar.Position
  document : String
deriving DecidableEq, Repr

/-- The canonical form of a document. -/
def canonicalize (layout : Layout) (document : String) : Except ParseError String :=
  let masked := Source.mask document.toList
  match Grammar.parse masked.text with
  | .error place => .error ⟨place, document⟩
  | .ok parsed =>
    .ok (String.ofList
      (masked.unmask (Grammar.print layout.indent.toNat parsed).toList))

/-- The canonical form of an operation's text. -/
def Operation.render (layout : Layout) (o : Operation) : Except ParseError String :=
  canonicalize layout o.text

end QueryDoc
