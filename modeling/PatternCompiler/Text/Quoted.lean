import PatternCompiler.Unicode.Property

/-! Characters written so that they can be read back.

Three ways of writing a text: as a literal in the generated source
(`charLiteral`, `stringLiteral`), inside a one-line comment (`comment`), and in
a message for the reader (`charDiagnostic`, `stringDiagnostic`). All of them
escape a backslash, a line break and the quote that ends the text, if one does;
they differ in which other characters are written by their number. -/
namespace PatternCompiler.Quoted

/-- The number of a character, in hexadecimal between braces. -/
def byNumber (c : Char) : List Char :=
  "\\u\x7b".toList ++ Nat.toDigits 16 c.toNat ++ "\x7d".toList

/-- One character of a literal that ends at `quote`: letters, digits and the visible
ASCII characters stand for themselves. -/
def literalChar (quote c : Char) : List Char :=
  if c = '\\' then ['\\', '\\']
  else if c = '\n' then ['\\', 'n']
  else if c = '\r' then ['\\', 'r']
  else if c = '\t' then ['\\', 't']
  else if c.toNat = 0 then ['\\', '0']
  else if c = quote then ['\\', c]
  else if (' ' ≤ c && c ≤ '~') || Unicode.isAlphanumeric c then [c]
  else byNumber c

/-- A character between single quotes. -/
def charLiteral (c : Char) : String :=
  String.ofList ('\'' :: literalChar '\'' c ++ ['\''])

/-- A text between double quotes. -/
def stringLiteral (s : String) : String :=
  String.ofList ('"' :: s.toList.flatMap (literalChar '"') ++ ['"'])

/-- One character of a comment; control characters are written by their number, in capitals. -/
def commentChar (c : Char) : List Char :=
  if c = '\n' then ['\\', 'n']
  else if c = '\r' then ['\\', 'r']
  else if c = '\t' then ['\\', 't']
  else if Unicode.isControl c then
    "\\u\x7b".toList ++ (Nat.toDigits 16 c.toNat).map Char.toUpper ++ "\x7d".toList
  else [c]

/-- A text for a comment of one line. -/
def comment (s : String) : String := String.ofList (s.toList.flatMap commentChar)

/-- One character of a message that ends at `quote`: what does not show is written by its number. -/
def diagnosticChar (quote c : Char) : List Char :=
  if c.toNat = 0 then ['\\', '0']
  else if c = '\t' then ['\\', 't']
  else if c = '\r' then ['\\', 'r']
  else if c = '\n' then ['\\', 'n']
  else if c = '\\' then ['\\', '\\']
  else if c = quote then ['\\', c]
  else if Unicode.isInvisible c then byNumber c
  else [c]

def charDiagnostic (c : Char) : String :=
  String.ofList ('\'' :: diagnosticChar '\'' c ++ ['\''])

def stringDiagnostic (s : String) : String :=
  String.ofList ('"' :: s.toList.flatMap (diagnosticChar '"') ++ ['"'])

end PatternCompiler.Quoted
