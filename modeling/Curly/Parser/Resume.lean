import Curly.Parser.Basic

/-! Resuming after a declaration that is not ended. Tokens are skipped up to one with which a statement may begin or
    end, but not past the end of the input, and not more than a fixed number. -/

namespace Curly

/-- The most tokens that are skipped in search of a place to resume. -/
def resumeLimit : Nat := 10

/-- The number of tokens to skip when `limit` more may be skipped. A semicolon is skipped as well; the last token of
    all never is. -/
def skippable (limit : Nat) : List Token → Nat
  | [] => 0
  | [_] => 0
  | t :: next :: rest =>
    if t.kind = .eof then 0
    else if t.kind.isBoundary then if t.kind = .semicolon then 1 else 0
    else match limit with
      | 0 => 0
      | limit + 1 => 1 + skippable limit (next :: rest)

/-- The index at which parsing resumes, when it has come to the index `start`. -/
def resumeIndex (tokens : List Token) (start : Nat) : Nat :=
  start + skippable resumeLimit (tokens.drop start)

/-- Skips to the place where parsing resumes. -/
def Parser.resume : Parser Unit := fun _ c =>
  let skipped := skippable resumeLimit c.ahead
  .done () (c.skip skipped) [.resumed c.ahead.length skipped]

end Curly
