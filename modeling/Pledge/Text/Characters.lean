-- Characters in texts: the blanks at the ends of a text, characters as they
-- are shown in messages, and lines.

namespace Pledge.Text

/-! ## Blanks -/

/-- The blank characters: those with the Unicode property White_Space. -/
def isBlank (c : Char) : Bool :=
  let n := c.toNat
  (9 ≤ n && n ≤ 13) || n == 0x20 || n == 0x85 || n == 0xa0 || n == 0x1680 ||
    (0x2000 ≤ n && n ≤ 0x200a) || n == 0x2028 || n == 0x2029 || n == 0x202f ||
    n == 0x205f || n == 0x3000

/-- The characters without the blanks at the end. -/
def trimEnd (cs : List Char) : List Char :=
  (cs.reverse.dropWhile isBlank).reverse

/-- The characters without the blanks at either end. -/
def trim (cs : List Char) : List Char :=
  trimEnd (cs.dropWhile isBlank)

/-! ## Quoted characters -/

/-- A character as it stands between quotes. Control characters without a short escape of their own
are written by their number. -/
def escapedChar (c : Char) : String :=
  match c.toNat with
  | 0 => "\\0"
  | 9 => "\\t"
  | 10 => "\\n"
  | 13 => "\\r"
  | 39 => "\\'"
  | 92 => "\\\\"
  | n =>
    if n < 32 || n == 127 then
      "\\u\x7b" ++ String.ofList (Nat.toDigits 16 n) ++ "\x7d"
    else c.toString

def quotedChar (c : Char) : String := "'" ++ escapedChar c ++ "'"

/-! ## Lines -/

/-- The lines as one text. A newline ends each of them. -/
def unlines (lines : List String) : String := String.join (lines.map (· ++ "\n"))

end Pledge.Text
