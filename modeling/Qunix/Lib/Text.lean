/-
Texts as lists of characters, with the operations of Rust's `str` on them.
-/

import Mathlib.Data.List.DropRight

namespace Qunix.Lib

abbrev Text := List Char

namespace Text

/-- `char::is_whitespace`. -/
def isWhitespace (c : Char) : Bool :=
  c.val ∈ [0x20, 0x85, 0xa0, 0x1680, 0x2028, 0x2029, 0x202f, 0x205f, 0x3000] ||
    0x9 ≤ c.val && c.val ≤ 0xd || 0x2000 ≤ c.val && c.val ≤ 0x200a

def trimStart (s : Text) : Text := s.dropWhile isWhitespace

def trimEnd (s : Text) : Text := s.rdropWhile isWhitespace

def trim (s : Text) : Text := trimEnd (trimStart s)

/-- `trim_matches` of one character. -/
def trimMatches (c : Char) (s : Text) : Text := (s.dropWhile (· == c)).rdropWhile (· == c)

/-- `split_once` at one character. -/
def splitOnce (c : Char) : Text → Option (Text × Text)
  | [] => none
  | d :: s => if d = c then some ([], s) else (splitOnce c s).map fun (x, y) => (d :: x, y)

/-- A line ends at a line feed, with the carriage return before it if there is one. -/
def lines : Text → List Text
  | [] => []
  | '\n' :: s => [] :: lines s
  | '\r' :: '\n' :: s => [] :: lines s
  | c :: s =>
    match lines s with
    | [] => [[c]]
    | line :: rest => (c :: line) :: rest

end Text

end Qunix.Lib
