/-
Characters shown between single quotes.

Error texts quote an offending character so that it can be told apart even when it
does not print.  Only the first 256 code points are ever quoted, since what is quoted
is a byte; within them the characters that do not print are the control characters,
the no-break space and the soft hyphen.
-/

namespace AttestedLedger.Text

/-- Whether a character below 256 is shown as itself. -/
def printsAsItself (c : Char) : Bool :=
  let n := c.toNat
  32 ≤ n && n != 127 && !(128 ≤ n && n ≤ 160) && n != 173

/-- The escaped form of a character inside single quotes. -/
def escapeChar (c : Char) : String :=
  if c = '\x00' then "\\0"
  else if c = '\t' then "\\t"
  else if c = '\n' then "\\n"
  else if c = '\r' then "\\r"
  else if c = '\'' then "\\'"
  else if c = '\\' then "\\\\"
  else if printsAsItself c then c.toString
  else "\\u\x7b" ++ String.ofList (Nat.toDigits 16 c.toNat) ++ "\x7d"

/-- A character below 256 between single quotes. -/
def charLiteral (c : Char) : String := "'" ++ escapeChar c ++ "'"

end AttestedLedger.Text
