/-
  SvgComponent.Markup.Fault — why a text is no document, and how that is said.

  Positions are bytes: of a reference in the text or value it stands in, of an attribute in the content of its tag.
-/

namespace SvgComponent.Markup

inductive Construct where
  | instruction
  | comment
  | doctype
  | cdata
  | tag
  deriving DecidableEq

def Construct.description : Construct → String
  | instruction => "processing instruction or xml declaration"
  | comment => "comment"
  | doctype => "DOCTYPE"
  | cdata => "CDATA"
  | tag => "tag"

/-- What would have closed it. -/
def Construct.closing : Construct → String
  | instruction => "?>"
  | comment => "-->"
  | doctype => ">"
  | cdata => "]]>"
  | tag => ">"

inductive MarkupFault where
  /-- An exclamation mark that begins nothing. -/
  | stray
  | unclosed (c : Construct)
  | unnamedDoctype
  | mismatched (expected found : String)
  | unmatched (name : String)
  deriving DecidableEq

def MarkupFault.message : MarkupFault → String
  | stray => "syntax error: unknown or missed symbol in markup"
  | unclosed c =>
    "syntax error: " ++ c.description ++ " not closed: `" ++ c.closing ++ "` not found before end of input"
  | unnamedDoctype => "ill-formed document: `<!DOCTYPE>` declaration does not contain a name of a document type"
  | mismatched expected found =>
    "ill-formed document: expected `</" ++ expected ++ ">`, but `</" ++ found ++ ">` was found"
  | unmatched name => "ill-formed document: close tag `</" ++ name ++ ">` does not match any open tag"

/-- Why a numeric reference names no character. -/
inductive NumberFault where
  | signed
  | missing
  | notDigit
  | tooLarge
  | zero
  | notCharacter (code : Nat)
  deriving DecidableEq

def NumberFault.message : NumberFault → String
  | signed => "invalid character reference: unexpected number sign"
  | missing => "invalid character reference: cannot parse integer from empty string"
  | notDigit => "invalid character reference: invalid digit found in string"
  | tooLarge => "invalid character reference: number too large to fit in target type"
  | zero => "invalid character reference: 0x0 character is not permitted in XML"
  | notCharacter code => "invalid character reference: `" ++ toString code ++ "` is not a valid codepoint"

inductive ReferenceFault where
  | unknown (start stop : Nat) (name : String)
  | unterminated (start stop : Nat)
  | number (f : NumberFault)
  deriving DecidableEq

def ReferenceFault.message : ReferenceFault → String
  | unknown start stop name => s!"at {start}..{stop}: unrecognized entity `{name}`"
  | unterminated start stop => s!"Error while escaping character at range {start}..{stop}: Cannot find ';' after '&'"
  | number f => f.message

inductive AttributeFault where
  | noEquals (position : Nat)
  | noValue (position : Nat)
  | unquoted (position : Nat)
  | unclosed (position : Nat) (quote : Char)
  | duplicate (position first : Nat)
  deriving DecidableEq

def AttributeFault.message : AttributeFault → String
  | noEquals p => s!"position {p}: attribute key must be directly followed by `=` or space"
  | noValue p => s!"position {p}: `=` must be followed by an attribute value"
  | unquoted p => s!"position {p}: attribute value must be enclosed in `\"` or `'`"
  | unclosed p quote => s!"position {p}: missing closing quote `{quote}` in attribute value"
  | duplicate p first => s!"position {p}: duplicated attribute, previous declaration at position {first}"

/-- Why a text is no document. -/
inductive Fault where
  | markup (f : MarkupFault)
  | reference (f : ReferenceFault)
  | attr (f : AttributeFault)
  | looseText
  | looseCdata
  | neverClosed (name : String)
  | secondRoot (name : String)
  | noRoot
  | foreignRoot (name : String)
  | unsized
  deriving DecidableEq

namespace Fault

/-- Well-formed markup that is no usable image, rather than text that is no markup. -/
def isStructural : Fault → Bool
  | foreignRoot _ => true
  | unsized => true
  | _ => false

def message : Fault → String
  | markup f => "XML parsing error: " ++ f.message
  | reference f => "XML parsing error: " ++ f.message
  | attr f => "Malformed SVG: Invalid attribute: " ++ f.message
  | looseText => "Malformed SVG: Text content outside the root element"
  | looseCdata => "Malformed SVG: CDATA section outside the root element"
  | neverClosed name => "Malformed SVG: Unexpected end of input: <" ++ name ++ "> is never closed"
  | secondRoot name => "Malformed SVG: Unexpected element <" ++ name ++ "> after the root element"
  | noRoot => "Malformed SVG: No root element found"
  | foreignRoot name => "Unsupported SVG: Root element is <" ++ name ++ ">, expected <svg>"
  | unsized => "Unsupported SVG: SVG is missing a viewBox or width/height attributes"

end Fault

end SvgComponent.Markup
