import ShaderBridge.Token.Numeral

/-!
From text to tokens. `lexeme` classifies what stands at the front of a text: the longest token or
blank there. `tokensFrom` strings the lexemes together and keeps count of bytes.

A lexeme tells how many characters it takes beyond its first one, so every step makes progress.
-/

namespace ShaderBridge

/-- What stands at the front of a text, with the number of characters beyond the first. -/
inductive Lexeme where
  | blank (extra : Nat)
  | token (kind : TokenKind) (extra : Nat)
  | fault (error : LexError) (extra : Nat)
deriving Repr

namespace Directive

/-- A number of at most 32 bits, where a plus sign may lead. -/
def versionNumber? (word : List Char) : Option Nat :=
  let digits := (after? ['+'] word).getD word
  let n := digitsValue 10 digits
  if !digits.isEmpty && digits.all isDigit && n < wordCount 32 then some n else none

/-- Reads a directive line without its leading `#`. -/
def ofLine (line : List Char) : Except LexError Directive :=
  let body := trim line
  let name := body.takeWhile (!isBlank ·)
  let rest := trim (body.dropWhile (!isBlank ·))
  match String.ofList name with
  | "" => .ok .null
  | "version" =>
    match blankSeparated rest with
    | [] => .error .invalidVersion
    | word :: words =>
      match versionNumber? word with
      | some n => .ok (.version n (words.head?.map String.ofList))
      | none => .error .invalidVersion
  | "extension" =>
    match cutAt? [':'] rest with
    | some (name, behavior) =>
      .ok (.extension (String.ofList (trim name)) (String.ofList (trim behavior)))
    | none => .error .invalidExtension
  | "line" => .ok .line
  | "pragma" => .ok (.pragma (String.ofList rest))
  | "error" => .error (.errorDirective (String.ofList rest))
  | other => .error (.unsupportedDirective other)

end Directive

namespace Lexeme

def ofExcept (extra : Nat) : Except LexError TokenKind → Lexeme
  | .ok kind => .token kind extra
  | .error e => .fault e extra

/-- A word is a keyword if the vocabulary has it. -/
def ofWord (word : String) : TokenKind :=
  match Keyword.ofSpelling? word with
  | some k => .keyword k
  | none => .ident word

def isLexBlank (c : Char) : Bool :=
  c == ' ' || c == '\t' || c == '\r' || c == '\n' || c == '\x0c'

/-- The longest mark of punctuation at the front of a text. -/
def punct? (cs : List Char) : Option Punct :=
  Punct.longestFirst.find? fun p => (after? p.spelling.toList cs).isSome

/-- A comment up to its closing mark, after the opening one. -/
def blockComment (rest : List Char) : Lexeme :=
  match cutAt? ['*', '/'] rest with
  | some (body, _) => .blank (1 + body.length + 2)
  | none => .fault .unterminatedComment (1 + rest.length)

end Lexeme

open Lexeme in
def lexeme (c : Char) (cs : List Char) : Lexeme :=
  if isLexBlank c then .blank (cs.takeWhile isLexBlank).length
  else if isWordStart c then
    let word := cs.takeWhile isWordChar
    .token (ofWord (String.ofList (c :: word))) word.length
  else
    match Numeral.scan? (c :: cs) with
    | some (numeral, n) => ofExcept (n - 1) (numeral.value.map .number)
    | none =>
      match c, cs with
      | '\\', '\n' :: _ => .blank 1
      | '\\', '\r' :: '\n' :: _ => .blank 2
      | '/', '/' :: _ => .blank (cs.takeWhile (· != '\n')).length
      | '/', '*' :: rest => blockComment rest
      | '#', _ =>
        let line := cs.takeWhile (· != '\n')
        ofExcept line.length ((Directive.ofLine line).map .directive)
      | _, _ =>
        match punct? (c :: cs) with
        | some p => .token (.punct p) (p.spelling.length - 1)
        | none => .fault (.unexpectedCharacter c) 0

/-- The tokens of a text whose first byte has the given offset, closed by the end of file. -/
def tokensFrom (offset : Nat) : List Char → Except (LexError × Span) (List Token)
  | [] => .ok [⟨.endOfFile, ⟨offset, offset⟩⟩]
  | c :: cs =>
    let stop (extra : Nat) : Nat := offset + byteLength (c :: cs.take extra)
    match lexeme c cs with
    | .blank extra => tokensFrom (stop extra) (cs.drop extra)
    | .token kind extra =>
      (⟨kind, ⟨offset, stop extra⟩⟩ :: ·) <$> tokensFrom (stop extra) (cs.drop extra)
    | .fault e extra => .error (e, ⟨offset, stop extra⟩)
termination_by cs => cs.length

def tokenize (source : String) : Except (LexError × Span) (List Token) :=
  tokensFrom 0 source.toList

end ShaderBridge
