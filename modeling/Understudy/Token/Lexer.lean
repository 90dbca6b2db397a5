import Understudy.Diagnostic
import Understudy.Token.Piece

namespace Understudy

structure Lexed where
  tokens : List Token
  diagnostics : List Diagnostic
deriving DecidableEq

namespace Piece

/-- The tokens of the pieces that start at byte `pos` of a text of `size` bytes, where `last` is the
kind of the token before them. -/
def tokens (size : Nat) (last : Option TokenKind) (pos : Nat) : List Piece → List Token
  | [] =>
    let eof : Token := ⟨.eof, ⟨size, size⟩, ""⟩
    if last.any TokenKind.completesLine then [⟨.semicolon, ⟨size, size⟩, ""⟩, eof] else [eof]
  | p :: rest =>
    match p.shape with
    | .token kind =>
      ⟨kind, ⟨pos, pos + p.size⟩, String.ofList p.text⟩ :: tokens size (some kind)
        (pos + p.size) rest
    | _ =>
      if p.endsLine && last.any TokenKind.completesLine then
        ⟨.semicolon, ⟨pos, pos⟩, ""⟩ :: tokens size (some .semicolon) (pos + p.size) rest
      else tokens size last (pos + p.size) rest

/-- The reports on text that starts no token at byte `pos`: one for each byte, which is named by the
character that has it as its code. -/
def unknownBytes (pos : Nat) : List UInt8 → List Diagnostic
  | [] => []
  | b :: rest =>
    let shown := String.singleton (Char.ofNat b.toNat)
    .error ("unknown token `" ++ shown ++ "`") (some ⟨pos, pos + 1⟩) :: unknownBytes (pos + 1) rest

def problems (pos : Nat) (p : Piece) : List Diagnostic :=
  match p.shape with
  | .unknown => unknownBytes pos (p.text.flatMap String.utf8EncodeChar)
  | .openString => [.error "unterminated string literal" (some ⟨pos, pos + p.size⟩)]
  | .openComment => [.error "unterminated block comment" (some ⟨pos, pos + p.size⟩)]
  | _ => []

def diagnostics (pos : Nat) : List Piece → List Diagnostic
  | [] => []
  | p :: rest => p.problems pos ++ diagnostics (pos + p.size) rest

end Piece

def lex (source : String) : Lexed :=
  let pieces := Piece.pieces source.toList
  ⟨Piece.tokens source.utf8ByteSize none 0 pieces, Piece.diagnostics 0 pieces⟩

end Understudy
