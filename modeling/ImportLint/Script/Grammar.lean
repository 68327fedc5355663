import ImportLint.Script.Form

/-!
# The grammar of TypeScript and JavaScript

One table, `rule`, gives the form of every construct; no construct can start with itself, so a
search that goes down the table always reaches a token. Binary operators are kept flat, as their
grouping has no bearing on where statements stand. Words are reserved only where the table bars
them.
-/

namespace ImportLint.Script

open Form Construct

/-- A name. -/
def name : Form := .token .name

/-- A string literal. -/
def string : Form := .token .text

/-- The end of a statement that does not end in an expression. -/
def ending : Form := .token (.statementEnd false)

/-- The end of a statement that ends in an expression. -/
def expressionEnding : Form := .token (.statementEnd true)

/-- The words that, at the start of an expression, open another construct than a name. -/
def expressionWords : List String :=
  ["function", "class", "new", "typeof", "void", "delete", "import", "await"]

/-- The words that, at the start of a statement, open another construct than an expression. -/
def statementWords : List String :=
  ["var", "const", "if", "switch", "for", "while", "do", "try", "with", "break",
    "continue", "debugger", "return", "throw", "abstract", "interface", "enum"]

/-- The operators between two operands. -/
def binaryOperators : Form :=
  spellings ["&&", "||", "??", ">>>", ">>", "<<", "&", "^", "|", "+", "-", "**",
    "*", "/", "%", "<=", "<", "===", "==", "!==", "!=", ">=", ">", "instanceof", "in"]

/-- The operators that give a place a new value. -/
def assignmentOperators : Form :=
  spellings ["=", "+=", "-=", "*=", "/=", "%=", "**=", "<<=", ">>=", ">>>=",
    "&=", "|=", "^=", "&&=", "||=", "??="]

/-- The words that may come before the name of a member. -/
def modifiers : Form :=
  many (spellings ["public", "private", "protected", "static", "override", "readonly", "abstract",
    "declare", "async", "accessor"])

/-- The module that an export statement takes its names from. -/
def fromModule : Form := all ["from", string]

/-- A type in angle brackets, items between commas. -/
def angled (item : Form) : Form := all [loose "<", separated "," item, opt ",", loose ">"]

/-- What the parts of each construct may be. -/
def rule : Construct → Form
  | program =>
    all [opt Terminal.interpreterLine, many (oneOf [statement, Terminal.htmlComment])]
  -- Statements
  | statement =>
    oneOf [importStatement, importAlias, exportStatement, variableDeclaration, functionDeclaration,
      classDeclaration, moduleDeclaration, ambientDeclaration, typeAlias, enumDeclaration,
      interfaceDeclaration, block, ifStatement, switchStatement, forStatement, forEachStatement,
      whileStatement, doStatement, tryStatement, withStatement, jumpStatement, returnStatement,
      throwStatement, labelledStatement, expressionStatement, ";"]
  | block => all ["\x7b", many (oneOf [statement, Terminal.htmlComment]), "\x7d"]
  | expressionStatement => notStarting statementWords (all [expressions, expressionEnding])
  | importStatement =>
    all ["import", opt (spellings ["type", "typeof"]),
      oneOf [all [importClause, "from", Terminal.specifier], importRequire, Terminal.specifier],
      opt importAttribute, ending]
  | importClause =>
    oneOf [namedImports, all [name, opt (all [",", namedImports])]]
  | namedImports =>
    oneOf [all ["*", "as", name],
      all ["\x7b",
        opt (separated ","
          (all [opt (spellings ["type", "typeof"]),
            oneOf [name, all [oneOf [name, string], "as", name]]])),
        opt ",", "\x7d"]]
  | importRequire => all [name, "=", "require", "(", string, ")"]
  | importAttribute => all [spellings ["with", "assert"], objectLiteral]
  | importAlias => all ["import", name, "=", qualifiedName, ending]
  | qualifiedName => separated "." name
  | exportStatement =>
    oneOf [all ["export", "*", opt (all ["as", oneOf [name, string]]), fromModule, ending],
      all ["export", opt "type", exportClause, opt fromModule, ending],
      all ["export", "=", expressions, expressionEnding],
      all ["export", "as", "namespace", name, ending],
      all [many decorator, "export", opt "default",
        oneOf [variableDeclaration, functionDeclaration, classDeclaration, moduleDeclaration,
          ambientDeclaration, typeAlias, enumDeclaration, interfaceDeclaration, importAlias]],
      all [many decorator, "export", "default", expressions, expressionEnding]]
  | exportClause =>
    all ["\x7b",
      opt (separated ","
        (all [opt (spellings ["type", "typeof"]), oneOf [name, string],
          opt (all ["as", oneOf [name, string]])])),
      opt ",", "\x7d"]
  | variableDeclaration =>
    all [spellings ["let", "const", "var"], separated "," declarator,
      oneOf [expressionEnding, ending]]
  | declarator =>
    oneOf [all [name, "!", typeAscription],
      all [oneOf [name, objectPattern, arrayPattern], opt typeAscription, opt initializer]]
  | functionDeclaration =>
    all [opt "async", "function", opt "*", name, callSignature, oneOf [block, ending]]
  | callSignature => all [opt typeParameters, parameters, opt returnAscription]
  | parameters => all ["(", opt (all [separated "," parameter, opt ","]), ")"]
  | parameter =>
    all [many decorator,
      many (spellings ["public", "private", "protected", "override", "readonly"]), pattern,
      opt (loose "?"), opt typeAscription, opt initializer]
  | decorator =>
    all ["@",
      oneOf [all [qualifiedName,
          many (oneOf [all [opt typeArguments, arguments], all [".", name]])],
        parenthesised]]
  | classDeclaration => all [many decorator, opt "abstract", "class", name, classRest]
  | classRest =>
    all [opt typeParameters,
      opt (all ["extends", separated "," (all [chain, opt typeArguments])]),
      opt (all ["implements", separated "," type]),
      classBody]
  | classBody => all ["\x7b", many classMember, "\x7d"]
  | classMember =>
    oneOf [";",
      all ["static", block],
      all [many decorator, method],
      all [modifiers,
        oneOf [objectTypeMember, all [opt (spellings ["get", "set", "*"]), propertyName,
          opt (loose "?"), callSignature]],
        oneOf [ending, ","]],
      all [many decorator, modifiers, propertyName, opt (oneOf [loose "?", "!"]),
        opt typeAscription, opt initializer, oneOf [expressionEnding, ending, ","]]]
  | method =>
    all [modifiers, opt (spellings ["get", "set", "*"]), propertyName, opt (loose "?"),
      callSignature, block]
  | moduleDeclaration =>
    all [spellings ["module", "namespace"], oneOf [string, qualifiedName], opt block]
  | ambientDeclaration =>
    all ["declare",
      oneOf [all ["global", block],
        all ["module", ".", name, ":", type, ending],
        variableDeclaration, functionDeclaration, classDeclaration, moduleDeclaration, typeAlias,
        enumDeclaration, interfaceDeclaration, importAlias]]
  | typeAlias => all ["type", name, opt typeParameters, "=", type, ending]
  | enumDeclaration =>
    all [opt "const", "enum", name, "\x7b",
      opt (separated "," (all [propertyName, opt initializer])), opt ",", "\x7d"]
  | interfaceDeclaration =>
    all ["interface", name, opt typeParameters,
      opt (all ["extends", separated "," (all [qualifiedName, opt typeArguments])]), objectType]
  | ifStatement => all ["if", parenthesised, statement, opt (all ["else", statement])]
  | switchStatement =>
    all ["switch", parenthesised, "\x7b",
      many (all [oneOf [all ["case", expressions], "default"], ":",
        many (oneOf [statement, Terminal.htmlComment])]), "\x7d"]
  | forStatement =>
    all ["for", "(", oneOf [variableDeclaration, all [opt expressions, ";"]], opt expressions, ";",
      opt expressions, ")", statement]
  | forEachStatement =>
    all ["for", opt "await", "(",
      oneOf [all [spellings ["let", "const", "var"], oneOf [name, objectPattern, arrayPattern],
        opt initializer], chain, objectPattern, arrayPattern],
      spellings ["of", "in"], expressions, ")", statement]
  | whileStatement => all ["while", parenthesised, statement]
  | doStatement => all ["do", statement, "while", parenthesised, opt ending]
  | tryStatement =>
    all ["try", block,
      opt (all ["catch",
        opt (all ["(", oneOf [name, objectPattern, arrayPattern], opt typeAscription, ")"]),
        block]),
      opt (all ["finally", block])]
  | withStatement => all ["with", parenthesised, statement]
  | jumpStatement =>
    oneOf [all [spellings ["break", "continue"], opt name, ending], all ["debugger", ending]]
  | returnStatement => all ["return", oneOf [all [expressions, expressionEnding], ending]]
  | throwStatement => all ["throw", expressions, expressionEnding]
  | labelledStatement => notStarting statementWords (all [identifier, ":", statement])
  -- Expressions
  | expressions => separated "," expression
  | expression => oneOf [arrowFunction, yieldExpression, assignment, conditional]
  | arrowFunction =>
    all [opt "async", oneOf [identifier, callSignature], "=>", oneOf [block, expression]]
  | yieldExpression => all ["yield", oneOf [all ["*", expression], opt expression]]
  | assignment =>
    all [oneOf [objectPattern, arrayPattern, chain], assignmentOperators, expression]
  | conditional => all [binary, opt (all [Terminal.question, expression, ":", expression])]
  | binary =>
    all [operand,
      many (oneOf [all [binaryOperators, operand], all [spellings ["as", "satisfies"], type]])]
  | operand =>
    oneOf [all [spellings ["!", "~", "-", "+", "typeof", "void", "delete", "await", "++", "--"],
        operand],
      all [Terminal.privateName, "in", operand],
      .only .typescript typeAssertion,
      all [chain, opt (spellings ["++", "--"])]]
  | typeAssertion => all [loose "<", type, loose ">", operand]
  | chain =>
    all [primary,
      many (oneOf [all [spellings [".", "?."], oneOf [name, Terminal.privateName]],
        all [opt "?.", "[", expressions, "]"],
        all [opt "?.", opt typeArguments, arguments],
        typeArguments,
        template,
        "!"])]
  | primary =>
    oneOf [identifier, Terminal.number, string, template, Terminal.regex,
      objectLiteral, arrayLiteral, functionExpression, classExpression,
      parenthesised, newExpression, all ["import", oneOf [arguments, all [".", name]]],
      .only .markup element]
  | identifier => notStarting expressionWords name
  | parenthesised => all ["(", expressions, opt typeAscription, ")"]
  | objectLiteral => all ["\x7b", commaList property, "\x7d"]
  | property =>
    oneOf [all ["...", expression], all [propertyName, ":", expression], method, name]
  | arrayLiteral => all ["[", commaList (oneOf [expression, all ["...", expression]]), "]"]
  | arguments => all ["(", commaList (oneOf [expression, all ["...", expression]]), ")"]
  | template =>
    all ["\x60",
      many (oneOf [Terminal.templateText, Terminal.templateEscape,
        all [joined "$\x7b", expressions, "\x7d"]]),
      joined "\x60"]
  | functionExpression => all [opt "async", "function", opt "*", opt name, callSignature, block]
  | classExpression => all [many decorator, "class", opt name, classRest]
  | newExpression => all ["new", oneOf [all [".", "target"], chain]]
  | pattern => oneOf [name, chain, objectPattern, arrayPattern, all ["...", pattern]]
  | objectPattern => all ["\x7b", commaList propertyPattern, "\x7d"]
  | propertyPattern =>
    oneOf [all ["...", pattern], all [propertyName, ":", pattern, opt initializer],
      all [oneOf [name, objectPattern, arrayPattern], opt initializer]]
  | arrayPattern => all ["[", commaList (all [pattern, opt initializer]), "]"]
  | propertyName =>
    oneOf [name, Terminal.privateName, string, Terminal.number, all ["[", expression, "]"]]
  | initializer => all ["=", expression]
  -- Types
  | typeAscription => all [":", type]
  | returnAscription => all [":", oneOf [type, predicate]]
  | predicate =>
    oneOf [all ["asserts", name, opt (all ["is", type])], all [name, "is", type]]
  | type => oneOf [functionType, conditionalType]
  | conditionalType =>
    all [unionType, opt (all ["extends", type, loose "?", type, ":", type])]
  | unionType => all [opt "|", separated "|" (oneOf [functionType, intersectionType])]
  | intersectionType => all [opt "&", separated "&" (oneOf [functionType, operatorType])]
  | operatorType =>
    oneOf [all [spellings ["keyof", "readonly", "unique"], operatorType],
      all ["infer", name, opt (all ["extends", type])],
      all [loose "?", operatorType],
      postfixType]
  | postfixType => all [simpleType, many (all ["[", opt type, "]"])]
  | simpleType =>
    oneOf [queriedType, importedType, templateType, objectType, string,
      all [opt "-", Terminal.number], all ["(", type, ")"],
      all ["[", opt (all [separated "," tupleMember, opt ","]), "]"],
      "*",
      notStarting ["typeof", "import", "keyof", "infer", "unique"]
        (all [qualifiedName, opt typeArguments])]
  | functionType =>
    all [opt (all [opt "abstract", "new"]), opt typeParameters, parameters, "=>",
      oneOf [type, predicate]]
  | tupleMember =>
    oneOf [all [opt "...", name, opt (loose "?"), ":", type],
      all [opt "...", type, opt (loose "?")]]
  | templateType =>
    all ["\x60",
      many (oneOf [Terminal.templateText, Terminal.templateEscape,
        all [joined "$\x7b", type, "\x7d"]]),
      joined "\x60"]
  | importedType => all ["import", arguments, many (all [".", name]), opt typeArguments]
  | queriedType =>
    all ["typeof",
      oneOf [importedType,
        all [name, many (oneOf [all [spellings [".", "?."], oneOf [name, Terminal.privateName]],
          all ["[", type, "]"]]), opt typeArguments]]]
  | objectType =>
    all ["\x7b", opt (spellings [",", ";"]),
      opt (all [separated (oneOf [",", ending]) objectTypeMember, opt (oneOf [",", ending])]),
      "\x7d"]
  | objectTypeMember =>
    oneOf [all [modifiers, propertyName, opt (loose "?"), opt typeAscription],
      all [modifiers, opt (spellings ["get", "set", "*"]), propertyName,
        opt (loose "?"), callSignature],
      callSignature,
      all [opt "abstract", "new", callSignature],
      all [many (spellings ["readonly", "static", "-", "+"]), "[", name,
        oneOf [all [":", type], all ["in", type, opt (all ["as", type])]], "]",
        opt (oneOf [typeAscription,
          all [opt (oneOf [loose "-", loose "+"]), loose "?", typeAscription]])],
      exportStatement]
  | typeArguments => angled type
  | typeParameters => angled typeParameter
  | typeParameter =>
    all [many (spellings ["const", "in", "out"]), name,
      opt (all [spellings ["extends", ":"], type]), opt (all ["=", type])]
  -- Markup
  | element =>
    oneOf
      [all [loose "<", opt (all [elementName, opt typeArguments, many elementAttribute]),
        loose "/>"],
      all [loose "<", opt (all [elementName, opt typeArguments, many elementAttribute]), loose ">",
        many (oneOf [Terminal.markupText, Terminal.markupReference, element,
          all ["\x7b", opt (oneOf [expressions, all ["...", expression]]), "\x7d"]]),
        loose "</", opt elementName, loose ">"]]
  | elementName =>
    all [Terminal.markupName,
      opt (oneOf [all [":", Terminal.markupName], many (all [".", Terminal.markupName])])]
  | elementAttribute =>
    oneOf [all ["\x7b", oneOf [expressions, all ["...", expression]], "\x7d"],
      all [Terminal.markupName, opt (all [":", Terminal.markupName]),
        opt (all ["=", oneOf [Terminal.markupString, element,
          all ["\x7b", opt (oneOf [expressions, all ["...", expression]]), "\x7d"]]])]]

end ImportLint.Script
