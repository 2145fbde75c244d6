/-
**Characters that extend the one before them.**

Accents, vowel signs and other marks that are drawn together with the character before them, as
Unicode 17 has them.
-/

import Dataflow.Text.Unseen

namespace Dataflow.Text

def combining : CodeRanges := .ofText <|
  "300+6F 114+6 108+2C 2 2+1 2+1 2 49+A 31+14 11 66+6 3+5 3+1 2+3 24 1F+1A 5C+A 3B+8 A 19+3 2+8 " ++
  "2+2 2+4 2C+2 3C+8 2B+17 2+1F 38 2 5+7 5 4+6 B+1 1E 3B 2 3+3 9 A B+1 1B 3+1 3A 5+1 5+1 3+2 4 " ++
  "1F+1 4 C+1 3A 5+4 2+1 5 15+1 17+5 2 3B 2+1 2+3 9 8+2 B+1 1F 3C 2 D A 29 4 38 2+2 6+2 2+3 8+1 " ++
  "C+1 1E 3B 3+1 2 4+2 2+3 8+1 C+1 1D+1 3A+1 2 3+3 9 A B+1 1E 49 5 3+2 2 9 52 3+6 D+7 63 3+8 " ++
  "C+6 4A+1 1C 2 2 38+D 2+4 2+1 6+A 2+23 A 67+3 2+5 2+1 3+1 1A+1 5+2 11+3 E 3+1 7 10 2C0+2 " ++
  "3B3+3 1D+2 1E+1 1F+1 41+1 2+6 9 3+A A 2E+2 2 76+1 23 77+2 5+1 A 7+2 DC+1 3 3B 2+6 2 2 3+7 " ++
  "7+9 3 31+2D 3+B 15+3 31+9 5+2 27+8 D+1 21+3 3+5 39 2+1 4 2+4 39+7 3+1 99+2 2+C 2+6 5 7 4+1 " ++
  "C7+3F 20D C4+20 BFF+2 8E 61+1F 22B+5 6A+1 75D5+3 2+9 21+1 51+1 111 4 5 1A+1 6 98+1 1B+11 E " ++
  "27+7 1A+A 2 2D+2 31 3+3 3+1 3 25 44+5 3+1 3+1 D 9 30 34 2+2 3+1 6+1 2 2B+1 9 EF 3 5 4F31 " ++
  "2E2+F 11+F 16F+1 25E E3 96+4 687+2 2+1 6+3 29+2 5 A6+1 23E+3 42+4 13E+1 4E+5 47+A 32+3 7C " ++
  "37+E 2A 3+1 B+2 32+3 3+1 8 3E+2 25+4 2+7 3F D+1 35+8 2 9+3 3 60+2 3+3 7 3 9E 4+7 16+1 3A+1 2 " ++
  "2 D A F+6 4+4 44 3+5 2 3 2+2 5+2 2 F+1 56+7 3+2 2 18 52 3+5 2 3 2+1 2+1 EC 3+3 7+1 2+1 1C+1 " ++
  "56+7 3 2+1 6B 2 3+7 66 2 3+3 2+4 104+8 2+1 F6 B+3 5 91+3 3+1 5 21+9 29+5 3+3 9 A+5 3+2 2F+C " ++
  "2+1 C7 2+2 2 CA+6 2+5 2 53+15 3+6 2+1 2+1 7B+5 4 2+1 2+6 2 49+1 4 2 15C+1 C+1 35+4 6+2 18 " ++
  "14E6 7+E 2CC9+B 4+2 9C1+4 3C+6 419 40+3 52 C+1 4CAC+1 1262+2D 3+16 21F+4 4+5 9+7 3+6 1F+3 " ++
  "95+2 7BC+36 5+31 9 F 17+4 2+E 551+6 2+10 3+6 2+1 2+4 65 A1+6 178 3E+3 1FD+3 FF+1 F4 3 8+1 6 " ++
  "1DB+6 6E+6 C16D6+5F 81+EF"

/-- Whether a character extends the one before it.  There is none below U+0300. -/
def isCombining (c : Char) : Bool :=
  0x300 ≤ c.toNat && combining.has c.toNat

end Dataflow.Text
