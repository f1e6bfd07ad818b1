/-!
# Keywords

The words that lexing and the structure of a program depend on.  Qualifiers of captures (`weak`,
`unowned`) are not reserved: they are lexed as identifiers.
-/

namespace CaptureLint.Keyword

/-- The reserved words: of declarations, of statements, and of expressions and types. -/
def reserved : List String :=
  [ "associatedtype", "class", "deinit", "enum", "extension", "fileprivate", "func", "import",
    "init", "inout", "internal", "let", "open", "operator", "private", "precedencegroup",
    "protocol", "public", "rethrows", "static", "struct", "subscript", "typealias", "var", "actor",
    "break", "case", "catch", "continue", "default", "defer", "do", "else", "fallthrough", "for",
    "guard", "if", "in", "repeat", "return", "throw", "switch", "where", "while",
    "Any", "as", "await", "false", "is", "nil", "self", "Self", "super", "throws", "true", "try",
    "async", "some", "any", "_" ]

/-- Keywords that announce a body: the next `\x7b` after their header opens it. -/
def headers : List String :=
  [ "if", "guard", "while", "for", "switch", "catch", "func", "init", "deinit", "subscript",
    "class", "struct", "enum", "extension", "protocol", "actor" ]

/-- Words that open a body when they stand right before `\x7b`. -/
def bodyOpeners : List String :=
  [ "else", "do", "repeat", "defer", "get", "set", "willSet", "didSet" ]

def beforeExpression : List String := [ "return", "in", "throw", "try", "await" ]

def callees : List String := [ "self", "Self", "super", "init" ]

def isReserved (word : List Char) : Bool := reserved.contains (String.ofList word)

end CaptureLint.Keyword
