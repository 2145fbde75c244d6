/-
**Characters without a shape of their own.**

Controls, format characters, characters for private use, code points that are not assigned, and all
separators but the space, as Unicode 17 has them.
-/

namespace Dataflow

/-- Ranges of code points, each with its first and its last. -/
abbrev CodeRanges := List (Nat × Nat)

def CodeRanges.has (ranges : CodeRanges) (code : Nat) : Bool :=
  ranges.any fun (first, last) => first ≤ code && code ≤ last

/-- Ranges that are listed in a text, by hexadecimal numbers: how far the first code is from the
last one before and, behind a plus sign, how many codes follow it. -/
def CodeRanges.ofText (text : String) : CodeRanges :=
  let number (digits : String) := digits.foldl (fun n digit =>
    16 * n + (digit.toNat - (if digit.isDigit then '0' else '7').toNat)) 0
  let ranges := (text.splitOn " ").foldl (fun (ranges, before) range =>
    let numbers := (range.splitOn "+").map number
    let first := before + numbers.headD 0
    let last := first + numbers.tail.headD 0
    ((first, last) :: ranges, last)) (([] : CodeRanges), 0)
  ranges.1.reverse

namespace Text

def unseen : CodeRanges := .ofText <|
  "0+1F 60+21 D 2CB+1 7+3 8 2 15 18E 27+1 33+1 4 38+7 1C+3 7+10 17 C1 31+1 3C+1 66+D 3C+1 32+1 " ++
  "10 1D+1 2 C+4 21+6 4C A2 9+1 3+1 17 8 2+2 5+1 A+1 3+1 5+7 2+3 3 6+1 1A+1 4 7+3 3+1 17 8 3 3 " ++
  "3+1 2 6+3 3+1 4+2 2+6 5 2+6 12+9 4 A 4 17 8 3 6+1 B 4 4+1 2+E 5+1 D+6 8 4 9+1 3+1 17 8 3 6+1 " ++
  "A+1 3+1 4+6 4+3 3 6+1 13+9 3 7+2 4 5+2 3 2 3+2 3+2 4+2 D+3 6+2 4 5+1 2+5 2+D 16+4 E 4 18 " ++
  "11+1 A 4 5+6 3 4 3+1 5+1 B+6 17 4 18 B 6+1 A 4 5+6 3+4 4 5+1 B 4+B E 4 34 4 7+3 11+1 1B 4 " ++
  "13+2 19 A 2+1 8+2 2+3 7 2 9+5 B+1 4+B 3B+3 1E+24 3 2 6 19 2 18+1 6 2 8 B+1 5+1F 49 25+3 28 " ++
  "25 10 E+24 C7 2+4 2+1 17A 5+1 8 2 5+1 2A 5+1 22 5+1 8 2 5+1 10 3A 5+1 44+1 21+2 1B+5 57+1 " ++
  "7+1 281 1D+2 5A+6 17+8 19+8 15+B E 4 3+B 5F+1 B+5 B+5 F C+5 5A+6 2C+4 47+9 20 D+3 D+3 2+2 " ++
  "2B+1 6+A 2D+3 1B+5 C+2 3F+1 42 1E+1 C+5 B+5 F+1 2F+1 D+13 4E A7+7 3D+2 10+2 3F+4 2C+1 C+7 " ++
  "2C+4 217+1 7+1 27+1 7+1 9 2 2 2 20+1 36 10 F+1 7 14+1 4 A+10 19+7 30+10 3+1 1C E+2 23+D 22+E " ++
  "8D+3 29B+15 C+14 715+1 17F+4 2E 2+4 2+1 39+6 3+D 19+8 8 8 8 8 8 8 8 8 7F+21 1B 5A+B D7+19 11 " ++
  "40 57+1 68+4 2C 5F 57+8 31 726E+2 38+8 15D+13 B9+7 DE+13 3D+2 B+5 39+7 47+7 D+5 75+A 1F+2 4F " ++
  "C+3 22 38+8 F+1 B+1 68+17 1D+9 7+1 7+1 7+8 8 8 3D+3 7F+1 B+5 2BA5+B 18+3 32+2103 16F+1 6B+25 " ++
  "8+B 6+4 1B 6 2 3 3 28B+1F 2B+5 34 14 5+3 6 88+3 BF+2 7+1 7+1 7+1 4+2 8 8+C 3+1 D 1B 14 3 " ++
  "10+1 F+21 7C+4 4+3 2E+2 59 E+2 2+2E 2F+81 1E+2 32+E 1D+3 25+8 1F+4 2C+4 1F 26+3 F+29 9F+1 " ++
  "B+5 25+3 25+3 29+7 35+A D 10 8 3 C 10 8 3+2 35+B 138+8 17+9 9+17 7 2B A+44 7+1 2 2D 3+2 2+1 " ++
  "18 49+7 A+2F 14 3+4 22+2 1C+4 1C+25 39+3 15+1 33 3+4 9 4 1E+1 4+3 B+6 A+6 41+1F 28+3 D+8 " ++
  "37+2 1E+1 1C+4 1B+6 5+B 8+4F 4A+36 34+C 34+6 2F+7 B+5 27+2 1E+7 3+CF 20 2B 4+1 3+F 7+7 A+20 " ++
  "2F+7 2B+15 1B+25 1D+13 18+8 4F+3 25+8 3F 6+C 1A+6 B+5 36 13+7 28+8 61 15+A 13 30+3D 8 2 5 10 " ++
  "C+5 3C+4 B+5 5 9+1 3+1 17 8 3 6 B+1 3+1 4+1 2+5 2+4 8+1 8+2 6+A B 2+1 2 27 B 2+1 2 5 B 3+7 " ++
  "3+1C 5D 6+1D 49+7 B+A5 37+1 27+21 46+A B+5 E+12 3B+5 B+5 15+1B 1C+1 10+3 18+B8 3D+63 54+B " ++
  "9+1 2+1 9 3 1F 3+1 D+8 B+45 9+1 2F+1 C+1A 49+7 54+C 4A+6 B+55 9+57 23+D B+5 A 2E F+9 1E+2 " ++
  "21+1 17 F+48 8 3 2D+2 2 3 A+7 B+5 7 3 26 3 7+6 B+5 2D+3 B+F5 1A+6 12 2A+2 1E+54 2+E 33+C " ++
  "39C+65 70 6+A C5+A4B 64+C 431+F 17+9 F9C+4 248+1AB8 3B+6C5 23A+6 20 B+3 52 B+5 1F+1 7+9 47+9 " ++
  "B 8 16+4 14+1AF 3B+C5 5C+4 1A+1 1A+2B 4C+3 3A+6 12+3F 6+A 8+8 1CD7+28 21+60 74+21FC 5 8 3 " ++
  "124+E 2+1C 4+1 2+D 5+7 18D+903 6C+4 E+2 A+6 B+1 5+F5F FE+2 1B5+5 18+E 12+E 2F+1 18+8 75+3B " ++
  "F7+9 28+1 4B+7 71+14 47+79 15+B 15+B 58+8 1A+86 56 48 3+1 2+1 3+1 5 D 2 8 42 5+1 9 8 1D 5 6 " ++
  "2+2 8 155+1 125+1 2BF+E 6 10+44F 20+5 7+D4 8 12+1 8 3 6+4 3F+20 2+6F 2E+2 F+1 B+3 3+13F " ++
  "20+10 3B+4 2+1CF 2B+D5 2C+3 2+BF 20 17+7 3+DF 8 5 3 10 C6+1 11+28 4D+3 B+3 3+310 45+4B 3E+C1 " ++
  "5 1C 3 2+1 2 B 5 2 2+5 2+3 2 2 2 4 3 2+1 2 2 2 2 2 3 2+1 5 8 5 5 2 B 12+4 4 6 12+33 3+10D " ++
  "2D+3 65+B 10+1 10 10 26+9 AF+37 1E+C 2D+3 A+6 3+D 7+99 3DA+2 12+2 E+2 DB+5 D+3 2+E D+3 39+7 " ++
  "B+5 29+7 1F+1 D+3 3+D A+26 159+7 F+1 E+2 C+2 3A 2+3 11+1 D+3 B+6 94 68+404 A6E1+1F 111F+1 " ++
  "168F+1 1D32+E 26F+9A1 21F+5E1 134C+4 212B+ACC85 F1+2FE0F"

/-- Whether a character has no shape of its own.  Nearly all characters are ASCII characters, for
which the table is not needed. -/
def isUnseen (c : Char) : Bool :=
  if c.toNat < 0x7F then c.toNat < 0x20 else unseen.has c.toNat

end Text

end Dataflow
