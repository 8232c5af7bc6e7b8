import ShaderBridge.Constant.Basic
import ShaderBridge.Keyword
import ShaderBridge.Text.Span

namespace ShaderBridge

inductive Punct where
  | leftParen | rightParen | leftBracket | rightBracket | leftBrace | rightBrace
  | dot | comma | semicolon | colon | question
  | eq | plusEq | minusEq | starEq | slashEq | percentEq | shlEq | shrEq | ampEq | caretEq | pipeEq
  | plus | minus | star | slash | percent | shl | shr | amp | caret | pipe
  | ampAmp | caretCaret | pipePipe | bang | tilde | plusPlus | minusMinus
  | lt | gt | ltEq | gtEq | eqEq | bangEq
deriving DecidableEq, Repr

namespace Punct

def spelling : Punct → String
  | leftParen => "("
  | rightParen => ")"
  | leftBracket => "["
  | rightBracket => "]"
  | leftBrace => "\x7b"
  | rightBrace => "\x7d"
  | dot => "."
  | comma => ","
  | semicolon => ";"
  | colon => ":"
  | question => "?"
  | eq => "="
  | plusEq => "+="
  | minusEq => "-="
  | starEq => "*="
  | slashEq => "/="
  | percentEq => "%="
  | shlEq => "<<="
  | shrEq => ">>="
  | ampEq => "&="
  | caretEq => "^="
  | pipeEq => "|="
  | plus => "+"
  | minus => "-"
  | star => "*"
  | slash => "/"
  | percent => "%"
  | shl => "<<"
  | shr => ">>"
  | amp => "&"
  | caret => "^"
  | pipe => "|"
  | ampAmp => "&&"
  | caretCaret => "^^"
  | pipePipe => "||"
  | bang => "!"
  | tilde => "~"
  | plusPlus => "++"
  | minusMinus => "--"
  | lt => "<"
  | gt => ">"
  | ltEq => "<="
  | gtEq => ">="
  | eqEq => "=="
  | bangEq => "!="

/-- The name under which a mark is described to the user. -/
def name : Punct → String
  | leftParen => "LParen"
  | rightParen => "RParen"
  | leftBracket => "LBracket"
  | rightBracket => "RBracket"
  | leftBrace => "LBrace"
  | rightBrace => "RBrace"
  | dot => "Dot"
  | comma => "Comma"
  | semicolon => "Semicolon"
  | colon => "Colon"
  | question => "Question"
  | eq => "Eq"
  | plusEq => "PlusEq"
  | minusEq => "MinusEq"
  | starEq => "StarEq"
  | slashEq => "SlashEq"
  | percentEq => "PercentEq"
  | shlEq => "ShlEq"
  | shrEq => "ShrEq"
  | ampEq => "AmpEq"
  | caretEq => "CaretEq"
  | pipeEq => "PipeEq"
  | plus => "Plus"
  | minus => "Minus"
  | star => "Star"
  | slash => "Slash"
  | percent => "Percent"
  | shl => "Shl"
  | shr => "Shr"
  | amp => "Amp"
  | caret => "Caret"
  | pipe => "Pipe"
  | ampAmp => "AmpAmp"
  | caretCaret => "CaretCaret"
  | pipePipe => "PipePipe"
  | bang => "Bang"
  | tilde => "Tilde"
  | plusPlus => "PlusPlus"
  | minusMinus => "MinusMinus"
  | lt => "Lt"
  | gt => "Gt"
  | ltEq => "LtEq"
  | gtEq => "GtEq"
  | eqEq => "EqEq"
  | bangEq => "BangEq"

def longestFirst : List Punct :=
  [shlEq, shrEq,
    plusEq, minusEq, starEq, slashEq, percentEq, ampEq, caretEq, pipeEq, shl, shr, ampAmp,
    caretCaret, pipePipe, plusPlus, minusMinus, ltEq, gtEq, eqEq, bangEq,
    leftParen, rightParen, leftBracket, rightBracket, leftBrace, rightBrace, dot, comma,
    semicolon, colon, question, eq, plus, minus, star, slash, percent, amp, caret, pipe, bang,
    tilde, lt, gt]

theorem mem_longestFirst (p : Punct) : p ∈ longestFirst := by
  cases p <;> decide

end Punct

/-- A line that opens with `#` and is meant for the compiler. -/
inductive Directive where
  | version (number : Nat) (profile : Option String)
  | extension (name behavior : String)
  | line
  | pragma (text : String)
  | null
deriving DecidableEq, Repr

inductive TokenKind where
  | number (value : Constant)
  | ident (name : String)
  | keyword (k : Keyword)
  | punct (p : Punct)
  | directive (d : Directive)
  | endOfFile
deriving DecidableEq, Repr

/-- The short form of a token in a sentence. -/
def TokenKind.describe : TokenKind → String
  | number _ => "number"
  | ident name => "'" ++ name ++ "'"
  | keyword k => "'" ++ k.spelling ++ "'"
  | punct p => p.name
  | directive _ => "directive"
  | endOfFile => "end of file"

structure Token where
  kind : TokenKind
  span : Span
deriving DecidableEq, Repr

inductive LexError where
  | unexpectedCharacter (c : Char)
  | unterminatedComment
  | invalidNumber
  | exceeds32Bits
  | exceeds16Bits
  | invalidVersion
  | invalidExtension
  | errorDirective (text : String)
  | unsupportedDirective (name : String)
deriving DecidableEq, Repr

def LexError.message : LexError → String
  | unexpectedCharacter c => "Unexpected character: '" ++ String.singleton c ++ "'"
  | unterminatedComment => "Unterminated comment"
  | invalidNumber => "Invalid numeric literal"
  | exceeds32Bits => "Literal needs more than 32-bits"
  | exceeds16Bits => "Literal needs more than 16-bits"
  | invalidVersion => "Invalid version directive"
  | invalidExtension => "Invalid extension directive"
  | errorDirective text => "#error " ++ text
  | unsupportedDirective name => "Unsupported directive '" ++ name ++ "'"

end ShaderBridge
