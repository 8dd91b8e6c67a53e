/-! Punctuators, the tokens made of symbols. -/

namespace Downlevel

/-- A token made of symbols, named for the symbols it is made of. -/
inductive Punctuator
  | braceOpen
  | braceClose
  | bracketOpen
  | bracketClose
  | parenthesisOpen
  | parenthesisClose
  | semicolon
  | colon
  | comma
  | tilde
  | dot
  | dotDotDot
  | question
  | questionDot
  | questionDotBracketOpen
  | questionDotParenthesisOpen
  | questionQuestion
  | questionQuestionEquals
  | equals
  | equalsEquals
  | equalsEqualsEquals
  | equalsChevronRight
  | exclamation
  | exclamationEquals
  | exclamationEqualsEquals
  | plus
  | plusPlus
  | plusEquals
  | hyphen
  | hyphenHyphen
  | hyphenEquals
  | asterisk
  | asteriskEquals
  | asteriskAsterisk
  | asteriskAsteriskEquals
  | slash
  | slashEquals
  | percent
  | percentEquals
  | ampersand
  | ampersandEquals
  | ampersandAmpersand
  | ampersandAmpersandEquals
  | bar
  | barEquals
  | barBar
  | barBarEquals
  | caret
  | caretEquals
  | chevronLeft
  | chevronLeftEquals
  | chevronLeftChevronLeft
  | chevronLeftChevronLeftEquals
  | chevronRight
  | chevronRightEquals
  | chevronRightChevronRight
  | chevronRightChevronRightEquals
  | chevronRightChevronRightChevronRight
  | chevronRightChevronRightChevronRightEquals
deriving DecidableEq

namespace Punctuator

/-- Every punctuator, in the order of the constructors. -/
def all : List Punctuator :=
  [.braceOpen, .braceClose, .bracketOpen, .bracketClose, .parenthesisOpen, .parenthesisClose,
    .semicolon, .colon, .comma, .tilde, .dot, .dotDotDot, .question, .questionDot,
    .questionDotBracketOpen, .questionDotParenthesisOpen, .questionQuestion,
    .questionQuestionEquals, .equals, .equalsEquals, .equalsEqualsEquals, .equalsChevronRight,
    .exclamation, .exclamationEquals, .exclamationEqualsEquals, .plus, .plusPlus, .plusEquals,
    .hyphen, .hyphenHyphen, .hyphenEquals, .asterisk, .asteriskEquals, .asteriskAsterisk,
    .asteriskAsteriskEquals, .slash, .slashEquals, .percent, .percentEquals, .ampersand,
    .ampersandEquals, .ampersandAmpersand, .ampersandAmpersandEquals, .bar, .barEquals,
    .barBar, .barBarEquals, .caret, .caretEquals, .chevronLeft, .chevronLeftEquals,
    .chevronLeftChevronLeft, .chevronLeftChevronLeftEquals, .chevronRight, .chevronRightEquals,
    .chevronRightChevronRight, .chevronRightChevronRightEquals,
    .chevronRightChevronRightChevronRight, .chevronRightChevronRightChevronRightEquals]

/-- The symbols of a punctuator. -/
def text : Punctuator → String
  | .braceOpen => "\x7b"
  | .braceClose => "\x7d"
  | .bracketOpen => "["
  | .bracketClose => "]"
  | .parenthesisOpen => "("
  | .parenthesisClose => ")"
  | .semicolon => ";"
  | .colon => ":"
  | .comma => ","
  | .tilde => "~"
  | .dot => "."
  | .dotDotDot => "..."
  | .question => "?"
  | .questionDot => "?."
  | .questionDotBracketOpen => "?.["
  | .questionDotParenthesisOpen => "?.("
  | .questionQuestion => "??"
  | .questionQuestionEquals => "??="
  | .equals => "="
  | .equalsEquals => "=="
  | .equalsEqualsEquals => "==="
  | .equalsChevronRight => "=>"
  | .exclamation => "!"
  | .exclamationEquals => "!="
  | .exclamationEqualsEquals => "!=="
  | .plus => "+"
  | .plusPlus => "++"
  | .plusEquals => "+="
  | .hyphen => "-"
  | .hyphenHyphen => "--"
  | .hyphenEquals => "-="
  | .asterisk => "*"
  | .asteriskEquals => "*="
  | .asteriskAsterisk => "**"
  | .asteriskAsteriskEquals => "**="
  | .slash => "/"
  | .slashEquals => "/="
  | .percent => "%"
  | .percentEquals => "%="
  | .ampersand => "&"
  | .ampersandEquals => "&="
  | .ampersandAmpersand => "&&"
  | .ampersandAmpersandEquals => "&&="
  | .bar => "|"
  | .barEquals => "|="
  | .barBar => "||"
  | .barBarEquals => "||="
  | .caret => "^"
  | .caretEquals => "^="
  | .chevronLeft => "<"
  | .chevronLeftEquals => "<="
  | .chevronLeftChevronLeft => "<<"
  | .chevronLeftChevronLeftEquals => "<<="
  | .chevronRight => ">"
  | .chevronRightEquals => ">="
  | .chevronRightChevronRight => ">>"
  | .chevronRightChevronRightEquals => ">>="
  | .chevronRightChevronRightChevronRight => ">>>"
  | .chevronRightChevronRightChevronRightEquals => ">>>="

/-- The name a punctuator is reported under. -/
def name : Punctuator → String
  | .braceOpen => "BraceOpen"
  | .braceClose => "BraceClose"
  | .bracketOpen => "BracketOpen"
  | .bracketClose => "BracketClose"
  | .parenthesisOpen => "ParenthesisOpen"
  | .parenthesisClose => "ParenthesisClose"
  | .semicolon => "Semicolon"
  | .colon => "Colon"
  | .comma => "Comma"
  | .tilde => "Tilde"
  | .dot => "Dot"
  | .dotDotDot => "DotDotDot"
  | .question => "Question"
  | .questionDot => "QuestionDot"
  | .questionDotBracketOpen => "QuestionDotBracketOpen"
  | .questionDotParenthesisOpen => "QuestionDotParenthesisOpen"
  | .questionQuestion => "QuestionQuestion"
  | .questionQuestionEquals => "QuestionQuestionEquals"
  | .equals => "Equals"
  | .equalsEquals => "EqualsEquals"
  | .equalsEqualsEquals => "EqualsEqualsEquals"
  | .equalsChevronRight => "EqualsChevronRight"
  | .exclamation => "Exclamation"
  | .exclamationEquals => "ExclamationEquals"
  | .exclamationEqualsEquals => "ExclamationEqualsEquals"
  | .plus => "Plus"
  | .plusPlus => "PlusPlus"
  | .plusEquals => "PlusEquals"
  | .hyphen => "Hyphen"
  | .hyphenHyphen => "HyphenHyphen"
  | .hyphenEquals => "HyphenEquals"
  | .asterisk => "Asterisk"
  | .asteriskEquals => "AsteriskEquals"
  | .asteriskAsterisk => "AsteriskAsterisk"
  | .asteriskAsteriskEquals => "AsteriskAsteriskEquals"
  | .slash => "Slash"
  | .slashEquals => "SlashEquals"
  | .percent => "Percent"
  | .percentEquals => "PercentEquals"
  | .ampersand => "Ampersand"
  | .ampersandEquals => "AmpersandEquals"
  | .ampersandAmpersand => "AmpersandAmpersand"
  | .ampersandAmpersandEquals => "AmpersandAmpersandEquals"
  | .bar => "Bar"
  | .barEquals => "BarEquals"
  | .barBar => "BarBar"
  | .barBarEquals => "BarBarEquals"
  | .caret => "Caret"
  | .caretEquals => "CaretEquals"
  | .chevronLeft => "ChevronLeft"
  | .chevronLeftEquals => "ChevronLeftEquals"
  | .chevronLeftChevronLeft => "ChevronLeftChevronLeft"
  | .chevronLeftChevronLeftEquals => "ChevronLeftChevronLeftEquals"
  | .chevronRight => "ChevronRight"
  | .chevronRightEquals => "ChevronRightEquals"
  | .chevronRightChevronRight => "ChevronRightChevronRight"
  | .chevronRightChevronRightEquals => "ChevronRightChevronRightEquals"
  | .chevronRightChevronRightChevronRight => "ChevronRightChevronRightChevronRight"
  | .chevronRightChevronRightChevronRightEquals => "ChevronRightChevronRightChevronRightEquals"

/-- Of two candidates, the one with more symbols; the earlier one stays on a tie. -/
def longer (best : Option Punctuator) (next : Punctuator) : Option Punctuator :=
  match best with
  | none => some next
  | some found => if found.text.length < next.text.length then some next else some found

/-- The longest punctuator that starts the text. -/
def longest? (text : List Char) : Option Punctuator :=
  (all.filter fun candidate => candidate.text.toList.isPrefixOf text).foldl longer none

end Punctuator

end Downlevel
