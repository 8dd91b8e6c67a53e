/-! The words with a meaning of their own: keywords, contextual keywords and the three
literal words. -/

namespace Downlevel

/-- A word that the lexer tells apart from identifiers. -/
inductive Keyword
  | accessorKw
  | asKw
  | asyncKw
  | awaitKw
  | breakKw
  | caseKw
  | catchKw
  | classKw
  | constKw
  | constructorKw
  | continueKw
  | debuggerKw
  | defaultKw
  | deleteKw
  | doKw
  | elseKw
  | enumKw
  | exportKw
  | extendsKw
  | finallyKw
  | forKw
  | fromKw
  | functionKw
  | getKw
  | ifKw
  | importKw
  | inKw
  | instanceofKw
  | letKw
  | newKw
  | ofKw
  | returnKw
  | setKw
  | staticKw
  | superKw
  | switchKw
  | thisKw
  | throwKw
  | tryKw
  | typeofKw
  | varKw
  | voidKw
  | whileKw
  | withKw
  | yieldKw
  | falseKw
  | nullKw
  | trueKw
deriving DecidableEq

namespace Keyword

/-- Every keyword, in the order of the constructors. -/
def all : List Keyword :=
  [.accessorKw, .asKw, .asyncKw, .awaitKw, .breakKw, .caseKw, .catchKw, .classKw, .constKw,
    .constructorKw, .continueKw, .debuggerKw, .defaultKw, .deleteKw, .doKw, .elseKw, .enumKw,
    .exportKw, .extendsKw, .finallyKw, .forKw, .fromKw, .functionKw, .getKw, .ifKw, .importKw,
    .inKw, .instanceofKw, .letKw, .newKw, .ofKw, .returnKw, .setKw, .staticKw, .superKw,
    .switchKw, .thisKw, .throwKw, .tryKw, .typeofKw, .varKw, .voidKw, .whileKw, .withKw,
    .yieldKw, .falseKw, .nullKw, .trueKw]

/-- How a keyword is spelled. -/
def text : Keyword → String
  | .accessorKw => "accessor"
  | .asKw => "as"
  | .asyncKw => "async"
  | .awaitKw => "await"
  | .breakKw => "break"
  | .caseKw => "case"
  | .catchKw => "catch"
  | .classKw => "class"
  | .constKw => "const"
  | .constructorKw => "constructor"
  | .continueKw => "continue"
  | .debuggerKw => "debugger"
  | .defaultKw => "default"
  | .deleteKw => "delete"
  | .doKw => "do"
  | .elseKw => "else"
  | .enumKw => "enum"
  | .exportKw => "export"
  | .extendsKw => "extends"
  | .finallyKw => "finally"
  | .forKw => "for"
  | .fromKw => "from"
  | .functionKw => "function"
  | .getKw => "get"
  | .ifKw => "if"
  | .importKw => "import"
  | .inKw => "in"
  | .instanceofKw => "instanceof"
  | .letKw => "let"
  | .newKw => "new"
  | .ofKw => "of"
  | .returnKw => "return"
  | .setKw => "set"
  | .staticKw => "static"
  | .superKw => "super"
  | .switchKw => "switch"
  | .thisKw => "this"
  | .throwKw => "throw"
  | .tryKw => "try"
  | .typeofKw => "typeof"
  | .varKw => "var"
  | .voidKw => "void"
  | .whileKw => "while"
  | .withKw => "with"
  | .yieldKw => "yield"
  | .falseKw => "false"
  | .nullKw => "null"
  | .trueKw => "true"

/-- The keyword spelled by the text, if any. -/
def ofText? (text : String) : Option Keyword :=
  all.find? (·.text == text)

/-- Contextual keywords that may also name a variable or a parameter. -/
def isUnreserved : Keyword → Bool
  | .accessorKw | .asKw | .asyncKw | .constructorKw | .fromKw | .getKw
  | .letKw | .ofKw | .setKw | .staticKw | .awaitKw | .yieldKw => true
  | _ => false

end Keyword

end Downlevel
