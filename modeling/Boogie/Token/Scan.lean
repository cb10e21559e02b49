import Boogie.Source.LineTable
import Boogie.Token.Basic
import Boogie.Token.Lexeme

/-! From text to tokens. Lexeme after lexeme is cut off the text; layout is dropped, and everything else
is kept with its place. Of what is no token there is a list of its own. -/
namespace Boogie.Token

structure Found where
  tokens : List Token
  errors : List ScanError

def Found.add (f : Found) (kind : Kind) (text : List Char) (span : Span) (position : Position) : Found :=
  ⟨⟨kind, String.ofList text, span, position⟩ :: f.tokens,
    if kind = .invalid then ⟨span, position, .ofText text⟩ :: f.errors else f.errors⟩

/-- Cuts `text`, which stands at `offset`, into lexemes. A place is looked up where the span begins. -/
def scanFrom (lines : LineTable) (offset : Nat) (found : Found) : List Char → Found
  | [] => found
  | c :: rest =>
    let found' := lexeme c rest
    let more := found'.length - 1
    let piece := c :: rest.take more
    let next := offset + byteLength piece
    match found'.role with
    | .layout => scanFrom lines next found (rest.drop more)
    | .token kind =>
      let span := Span.ofRange offset next
      scanFrom lines next (found.add kind piece span (lines.position span.start)) (rest.drop more)
termination_by text => text.length
decreasing_by all_goals simp only [List.length_cons, List.length_drop]; omega

structure Scanned where
  tokens : TokenList
  errors : List ScanError

def scanAll (text : List Char) : Scanned :=
  let lines := LineTable.ofText text
  let found := scanFrom lines 0 ⟨[], []⟩ text
  let finish := Span.ofRange (byteLength text) (byteLength text)
  ⟨⟨found.tokens.reverse, ⟨.endOfText, "", finish, lines.position finish.start⟩⟩, found.errors.reverse⟩

def scan (text : List Char) : TokenList := (scanAll text).tokens

def scanErrors (text : List Char) : List ScanError := (scanAll text).errors

end Boogie.Token
