import FeatureStyle.Condition.Token
import FeatureStyle.Numeral.Scan
import FeatureStyle.Text.Placeholder

/-!
# Splitting conditions into tokens

The longest token at the head of the text is taken, blanks between tokens are skipped. Keywords end
where their last letter ends, whatever follows. What begins no token is an error of one character,
except that a string is wrong up to where it stops being one and a placeholder up to its closing
brace, or up to the end of the text if it has none.
-/

namespace FeatureStyle

def byteLength : List Char → Nat
  | [] => 0
  | c :: text => c.utf8Size + byteLength text

namespace Lexeme

def isSeparator (c : Char) : Bool := c = ' ' || c = '\t' || c = '\r' || c = '\n' || c = '\x0c'

/-- The longest beginning of a text that can stand inside a string with the given quote, and the
rest. A backslash takes the next character with it, unless that is a line feed. -/
def splitString (quote : Char) : List Char → List Char × List Char
  | [] => ([], [])
  | ['\\'] => ([], ['\\'])
  | '\\' :: c :: text =>
    if c = '\n' then ([], '\\' :: c :: text)
    else
      let (inner, rest) := splitString quote text
      ('\\' :: c :: inner, rest)
  | c :: text =>
    if c = quote then ([], c :: text)
    else
      let (inner, rest) := splitString quote text
      (c :: inner, rest)

theorem splitString_append (quote : Char) (text : List Char) :
    (splitString quote text).1 ++ (splitString quote text).2 = text := by
  fun_induction splitString quote text <;> simp_all

/-- The characters that the inside of a string stands for. A backslash before a character other than
`n`, `t` and `r` stands for that character. -/
def decodeEscapes : List Char → List Char
  | [] => []
  | ['\\'] => ['\\']
  | '\\' :: 'n' :: text => '\n' :: decodeEscapes text
  | '\\' :: 't' :: text => '\t' :: decodeEscapes text
  | '\\' :: 'r' :: text => '\r' :: decodeEscapes text
  | '\\' :: c :: text => c :: decodeEscapes text
  | c :: text => c :: decodeEscapes text

/-- What stands at the head of a text, a token or an error, and how many characters it takes. -/
structure Piece where
  token : Except SyntaxErrorCause Token
  length : Nat

def Piece.ofToken (token : Token) (length : Nat) : Piece := ⟨.ok token, length⟩

def Piece.unknown (length : Nat) : Piece := ⟨.error .unknownToken, length⟩

/-- The string that begins with a quote, given the text behind the quote. -/
def stringPiece (quote : Char) (text : List Char) : Piece :=
  let (inner, rest) := splitString quote text
  match rest with
  | c :: _ =>
    if c = quote then
      .ofToken (.constant (.string (String.ofList (decodeEscapes inner)))) (inner.length + 2)
    else .unknown (inner.length + 1)
  | [] => .unknown (inner.length + 1)

/-- The placeholder that begins with an opening, given the text behind the opening. -/
def placeholderPiece (text : List Char) : Piece :=
  match Text.splitClosing? text with
  | none => ⟨.error .badPlaceholder, text.length + 2⟩
  | some (inner, _) =>
    match Text.propertyName? inner with
    | some name => .ofToken (.property name) (inner.length + 3)
    | none => ⟨.error .badPlaceholder, inner.length + 3⟩

def numberPiece (text : List Char) : Piece :=
  match Numeral.scan? text with
  | some (decimal, rest) =>
    .ofToken (.constant (.number (decimal.toDouble false))) (text.length - rest.length)
  | none => .unknown 1

/-- The token or error at the head of a text that does not begin with a separator. -/
def piece : List Char → Piece
  | '\"' :: text => stringPiece '\"' text
  | '\'' :: text => stringPiece '\'' text
  | '$' :: '\x7b' :: text => placeholderPiece text
  | 't' :: 'r' :: 'u' :: 'e' :: _ => .ofToken (.constant (.bool true)) 4
  | 'f' :: 'a' :: 'l' :: 's' :: 'e' :: _ => .ofToken (.constant (.bool false)) 5
  | 'n' :: 'u' :: 'l' :: 'l' :: _ => .ofToken (.constant .null) 4
  | 'u' :: 'n' :: 'd' :: 'e' :: 'f' :: 'i' :: 'n' :: 'e' :: 'd' :: _ =>
    .ofToken (.constant .undefined) 9
  | '=' :: '=' :: '=' :: _ => .ofToken (.binary .eq) 3
  | '=' :: '=' :: _ => .ofToken (.binary .eq) 2
  | '!' :: '=' :: '=' :: _ => .ofToken (.binary .ne) 3
  | '!' :: '=' :: _ => .ofToken (.binary .ne) 2
  | '!' :: _ => .ofToken .not 1
  | '<' :: '=' :: _ => .ofToken (.binary .le) 2
  | '<' :: _ => .ofToken (.binary .lt) 1
  | '>' :: '=' :: _ => .ofToken (.binary .ge) 2
  | '>' :: _ => .ofToken (.binary .gt) 1
  | '&' :: '&' :: _ => .ofToken (.binary .and) 2
  | '|' :: '|' :: _ => .ofToken (.binary .or) 2
  | '-' :: _ => .ofToken .minus 1
  | '+' :: _ => .ofToken .plus 1
  | '(' :: _ => .ofToken .openParen 1
  | ')' :: _ => .ofToken .closeParen 1
  | text => numberPiece text

/-- The lexemes of a text that stands at a byte position. As every piece takes a character, as many
steps as the text has characters are enough. -/
def splitAt : Nat → Nat → List Char → Except SyntaxError (List Lexeme)
  | 0, _, _ => .ok []
  | _ + 1, _, [] => .ok []
  | fuel + 1, start, c :: text =>
    if isSeparator c then splitAt fuel (start + c.utf8Size) text
    else
      let found := piece (c :: text)
      let stop := start + byteLength ((c :: text).take found.length)
      match found.token with
      | .error cause => .error ⟨cause, ⟨start, stop⟩⟩
      | .ok token =>
        match splitAt fuel stop ((c :: text).drop found.length) with
        | .error e => .error e
        | .ok rest => .ok (⟨token, ⟨start, stop⟩⟩ :: rest)

def split (text : List Char) : Except SyntaxError (List Lexeme) := splitAt text.length 0 text

end Lexeme
end FeatureStyle
