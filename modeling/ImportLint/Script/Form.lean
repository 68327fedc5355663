import ImportLint.Script.Lexeme

/-!
# Forms: grammars as data

A **terminal** is a kind of token and knows its scanner. A **form** says what the parts of a
construct may be, as a regular expression over terminals and constructs. A grammar is then a
function from constructs to forms: data, which the search for a reading interprets and against which
a finished reading is checked.
-/

namespace ImportLint.Script

/-- The two dialects: in TypeScript proper an angle bracket before an expression is a type
assertion, in the other dialect it opens an element of markup. -/
inductive Dialect where
  | typescript
  | markup
  deriving DecidableEq, Repr

/-- How a punctuation mark is read. -/
inductive Fit where
  /-- After any gap, and never as a part of a longer operator. -/
  | whole
  /-- After any gap, whatever follows. -/
  | loose
  /-- Right after the token before it. -/
  | joined
  deriving DecidableEq, Repr

/-- The kinds of tokens. -/
inductive Terminal where
  | keyword (w : List Char)
  | mark (m : List Char) (fit : Fit)
  | name
  | privateName
  /-- A string literal. -/
  | text
  /-- A string literal that names the module of an import statement. -/
  | specifier
  | number
  | regex
  /-- The question mark of a conditional expression. -/
  | question
  | templateText
  | templateEscape
  | markupName
  | markupText
  | markupReference
  | markupString
  /-- The end of a statement, written or not; the flag says that an expression comes before it. -/
  | statementEnd (inExpression : Bool)
  | htmlComment
  | interpreterLine
  deriving DecidableEq, Repr

namespace Terminal

/-- Whether the token must follow the one before it without a gap. -/
def isJoined : Terminal → Bool
  | mark _ .joined | templateText | templateEscape | markupText | markupReference => true
  | _ => false

/-- The scanner of a token. The end of a statement is scanned on its own, since it has a say in the
gap before it; here it is the text that such an end may have. -/
def scan : Terminal → List Char → Option Split
  | keyword w, s => (word s).filter (·.1 == w)
  | mark m .whole, s => punctuation m s
  | mark m _, s => literally m s
  | name, s => word s
  | privateName, s => privateWord s
  | text, s => stringLiteral s
  | specifier, s => stringLiteral s
  | number, s => numberLiteral s
  | regex, s => regexLiteral s
  | question, s => questionMark s
  | templateText, s => nonempty (templateSpan s)
  | templateEscape, s => escape s
  | markupName, s => markupWord s
  | markupText, s => Script.markupText s
  | markupReference, s => Script.markupReference s
  | markupString, s => Script.markupString s
  | statementEnd _, s => if s.head? = some ';' then some ([';'], s.tail) else some ([], s)
  | htmlComment, s => Script.htmlComment s
  | interpreterLine, s => Script.interpreterLine s

/-- Whether a text, whole, is a token of the kind. -/
def admits (t : Terminal) (text : List Char) : Bool :=
  t.scan text == some (text, [])

end Terminal

/-- The constructs of the two dialects. -/
inductive Construct where
  | program | statement | block | expressionStatement
  | importStatement | importClause | namedImports | importRequire | importAttribute | importAlias
  | exportStatement | exportClause | qualifiedName
  | variableDeclaration | declarator | functionDeclaration | callSignature | parameters | parameter
  | decorator | classDeclaration | classRest | classBody | classMember | method
  | moduleDeclaration | ambientDeclaration | typeAlias | enumDeclaration | interfaceDeclaration
  | ifStatement | switchStatement | forStatement | forEachStatement | whileStatement | doStatement
  | tryStatement | withStatement | jumpStatement | returnStatement | throwStatement | labelledStatement
  | expressions | expression | arrowFunction | yieldExpression | assignment | conditional | binary
  | operand | chain | primary | identifier | parenthesised | objectLiteral | property | arrayLiteral
  | arguments | template | functionExpression | classExpression | newExpression | typeAssertion
  | pattern | objectPattern | propertyPattern | arrayPattern | propertyName | initializer
  | typeAscription | returnAscription | predicate | type | conditionalType | unionType
  | intersectionType | operatorType | postfixType | simpleType | functionType | tupleMember
  | templateType | importedType | queriedType | objectType | objectTypeMember | typeArguments
  | typeParameters | typeParameter
  | element | elementName | elementAttribute
  deriving DecidableEq, Ord, Repr

/-- What the parts of a construct may be. -/
inductive Form where
  /-- No part. -/
  | nothing
  /-- A token. -/
  | token (t : Terminal)
  /-- A construct. -/
  | part (c : Construct)
  /-- One form after another. -/
  | both (f g : Form)
  /-- One form or another. -/
  | either (f g : Form)
  /-- A form any number of times. -/
  | many (f : Form)
  /-- A form of one dialect only. -/
  | only (d : Dialect) (f : Form)
  /-- A form that does not start with one of these words. -/
  | barring (ws : List (List Char)) (f : Form)
  deriving Repr

/-- A spelling stands for its keyword or punctuation mark. -/
def Form.ofSpelling (s : String) : Form :=
  match s.toList with
  | c :: r => .token (if isWordChar c then .keyword (c :: r) else .mark (c :: r) .whole)
  | [] => .nothing

/-- A spelling stands for the form of it. -/
instance : Coe String Form := ⟨Form.ofSpelling⟩

/-- A terminal stands for the form of it. -/
instance : Coe Terminal Form := ⟨Form.token⟩

/-- A construct stands for the form of it. -/
instance : Coe Construct Form := ⟨Form.part⟩

namespace Form

/-- Forms in order. -/
def all : List Form → Form
  | [] => nothing
  | [f] => f
  | f :: fs => both f (all fs)

/-- One of several forms; of two readings with the same extent the earlier form's is taken. -/
def oneOf : List Form → Form
  | [] => nothing
  | [f] => f
  | f :: fs => either f (oneOf fs)

/-- A form or nothing. -/
def opt (f : Form) : Form := either f nothing

/-- A form once or more, with another one between. -/
def separated (sep f : Form) : Form := both f (many (both sep f))

/-- Punctuation whatever follows. -/
def loose (m : String) : Form := .token (.mark m.toList .loose)

/-- Punctuation right after the token before. -/
def joined (m : String) : Form := .token (.mark m.toList .joined)

/-- Any of some spellings. -/
def spellings (ws : List String) : Form := oneOf (ws.map ofSpelling)

/-- A form that does not start with one of some words. -/
def notStarting (ws : List String) (f : Form) : Form := barring (ws.map String.toList) f

/-- Items between commas, any of which may be left out. -/
def commaList (f : Form) : Form := both (opt f) (many (both "," (opt f)))

end Form

end ImportLint.Script
