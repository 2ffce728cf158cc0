/-!
Character classes of the Unicode standard, as tables of the code points in them.

A table has the lengths of stretches of code points: of one outside the class, of one inside it, and
so on in turn. The classes for identifiers are close to Alphabetic, and their tables say where they
differ from it. ASCII characters are decided without the tables, which are only consulted above
them.
-/

namespace Loom.Text.Property

/-- Whether a code point lies in one of the stretches inside the class. -/
def covers : List Nat → Nat → Bool
  | outside :: inside :: rest, n =>
    outside ≤ n && (n < outside + inside || covers rest (n - (outside + inside)))
  | _, _ => false

/-- The property White_Space. -/
def whiteSpaceTable : List Nat :=
  [9, 5, 18, 1, 100, 1, 26, 1, 5599, 1, 2431, 11, 29, 2, 5, 1, 47, 1, 4000, 1]

/-- The general category Zs. -/
def spaceSeparatorTable : List Nat :=
  [32, 1, 127, 1, 5599, 1, 2431, 11, 36, 1, 47, 1, 4000, 1]

/-- The property Alphabetic, above ASCII, the first half of the table. -/
def alphabeticTableLow : List Nat :=
  [170,1,10,1,4,1,5,23,1,31,1,458,4,12,14,5,7,1,1,1,86,1,29,18,1,2,2,4,1,1,6,1,1,3,1,1,1,20,1,83,1,
   139,8,166,1,38,2,1,6,41,39,14,1,1,1,2,1,2,1,1,8,27,4,4,29,11,5,56,1,7,14,102,1,8,4,8,4,3,10,3,2,
   1,16,48,13,101,24,33,9,2,4,1,5,24,2,19,19,25,7,11,5,24,1,7,7,1,8,42,10,12,3,7,6,76,1,16,1,3,4,15,
   13,19,1,8,2,2,2,22,1,7,1,1,3,4,3,8,2,2,2,2,1,1,8,1,4,2,1,5,12,2,10,1,4,3,1,6,4,2,2,22,1,7,1,2,1,
   2,1,2,4,5,4,2,2,2,4,1,7,4,1,1,17,6,11,3,1,9,1,3,1,22,1,7,1,2,1,5,3,9,1,3,1,2,3,1,15,4,21,4,4,3,1,
   8,2,2,2,22,1,7,1,2,1,5,3,8,2,2,2,2,9,2,4,2,1,5,13,1,16,2,1,6,3,3,1,4,3,2,1,1,1,2,3,2,3,3,3,12,4,
   5,3,3,1,3,3,1,6,1,40,13,1,3,1,23,1,16,3,8,1,3,1,3,8,2,1,3,1,2,2,4,28,4,1,8,1,3,1,23,1,10,1,5,3,8,
   1,3,1,3,8,2,5,3,1,4,13,3,12,13,1,3,1,41,2,8,1,3,1,3,1,1,5,4,7,5,22,6,1,3,1,18,3,24,1,9,1,1,2,7,8,
   6,1,1,1,8,18,2,13,58,5,7,6,1,51,2,1,1,1,5,1,24,1,1,1,19,1,3,2,5,1,1,6,1,14,4,32,1,63,8,1,36,4,19,
   4,16,1,36,67,55,1,1,2,5,16,64,10,4,2,38,1,1,5,1,2,43,1,333,1,4,2,7,1,1,1,4,2,41,1,4,2,33,1,4,2,7,
   1,1,1,4,2,15,1,57,1,4,2,67,37,16,16,86,2,6,3,620,2,17,1,26,5,75,3,11,7,20,11,21,12,20,12,13,1,3,
   1,2,12,52,2,19,14,1,4,1,67,89,7,43,5,70,10,31,1,12,4,9,23,30,2,5,11,44,4,26,54,28,4,63,2,20,50,1,
   23,2,11,3,49,52,1,15,1,8,51,42,2,4,10,44,1,11,14,55,22,3,10,36,2,11,5,43,2,3,41,4,1,6,1,2,3,1,5,
   192,19,34,11,278,2,6,2,38,2,6,2,8,1,1,1,1,1,1,1,31,2,53,1,7,1,1,3,3,1,7,3,4,2,6,4,13,5,3,1,7,116,
   1,13,1,16,13,101,1,4,1,2,10,1,1,3,5,6,1,1,1,1,1,1,4,1,11,2,4,5,5,4,1,17,41,813,52,1814,229,6,4,3,
   2,12,38,1,1,5,1,2,56,7,1,16,23,9,7,1,7,1,7,1,7,1,7,1,7,1,7,1,7,1,32,47,1,469,3,25,9,7,5,2,5,4,86,
   6,3,1,90,1,4,5,43,1,94,17,32,48,16,512,6592,64,22157,67,46,2,269,3,16,10,2,20,47,5,8,3,113,39,9,
   2,103,2,82,20,21,1,33,24,52,12,68,1,1,44,6,3,1,1,3,10,33,5,35,13,29,3,51,1,12,15,1,16,16,10,5,1,
   55,9,14,18,23,3,69,1,1,1,1,24,3,2,16]

/-- The property Alphabetic, above ASCII, the second half of the table. -/
def alphabeticTableHigh : List Nat :=
  [2,4,11,6,2,6,2,6,9,7,1,7,1,43,1,14,6,123,21,11172,12,23,4,49,8452,366,2,106,38,7,12,5,5,12,1,13,
   1,5,1,1,1,2,1,2,1,108,33,363,18,64,2,54,40,12,116,5,1,135,36,26,6,26,11,89,3,6,2,6,2,6,2,3,35,12,
   1,26,1,19,1,2,1,15,2,14,34,123,69,53,267,29,3,49,47,32,13,30,5,43,5,30,2,36,4,8,1,5,42,158,18,36,
   4,36,4,40,8,52,12,11,1,15,1,7,1,2,1,11,1,15,1,7,1,2,3,52,12,311,9,22,10,8,24,6,1,42,1,9,69,6,2,1,
   1,44,1,2,3,1,2,23,10,23,9,31,65,19,1,2,10,22,10,26,6,26,38,56,6,2,64,4,1,2,5,8,1,3,1,29,42,29,3,
   29,35,8,1,28,27,54,10,22,10,19,13,18,110,73,55,51,13,51,13,40,34,28,3,1,5,23,250,42,1,2,3,2,16,6,
   50,3,3,29,10,1,8,22,42,18,46,21,27,23,9,70,43,5,10,57,9,1,13,25,23,51,17,4,8,35,3,1,9,64,1,4,9,2,
   10,1,1,1,35,18,1,34,2,1,6,4,62,7,1,1,1,4,1,15,1,10,7,57,23,4,1,8,2,2,2,22,1,7,1,2,1,5,3,8,2,2,2,
   2,3,1,6,1,5,7,28,10,1,1,2,1,1,38,1,10,1,1,2,1,1,4,1,2,3,1,1,1,44,66,1,3,1,4,20,3,30,66,2,2,1,1,
   184,54,2,7,25,6,34,63,1,1,3,1,59,54,2,1,71,27,2,14,21,7,185,57,103,64,31,8,2,1,2,8,1,2,1,30,1,2,
   2,2,2,4,93,8,2,46,2,6,1,1,1,2,27,51,2,10,17,72,5,1,18,73,103,8,88,33,31,9,1,45,1,7,1,1,49,30,2,
   22,1,14,73,7,1,2,1,44,3,1,1,2,1,3,1,1,2,2,24,6,1,2,1,37,1,2,1,4,1,1,23,44,260,23,9,17,1,41,3,3,
   111,1,79,922,102,111,17,196,2636,97,15,1072,17,6,25,3995,5,583,6841,47,1745,569,7,31,17,79,17,30,
   18,48,16,4,31,21,5,19,432,45,211,64,32,25,2,25,44,75,4,57,7,17,64,2,1,1,12,7,9,7382,41,32,97,115,
   8701,4,1,7,1,2,1,291,15,1,29,3,2,1,14,4,8,396,2308,107,5,13,3,9,7,10,4,1,5985,85,1,71,1,2,2,1,2,
   2,2,4,1,12,1,1,1,7,1,65,1,4,2,8,1,7,1,28,1,4,1,5,1,1,3,7,1,340,2,25,1,25,1,31,1,25,1,31,1,25,1,
   31,1,25,1,31,1,25,1,8,1844,31,6,6,213,7,1,17,2,7,1,2,1,5,5,62,33,1,112,45,10,7,16,1,321,30,18,44,
   484,28,228,30,2,1,207,31,1,22,8,2,224,7,1,4,1,2,1,15,1,197,59,68,3,1,3,1,1204,4,1,27,1,2,1,1,2,1,
   1,10,1,4,1,1,1,1,6,1,4,1,1,1,1,1,1,3,1,2,1,1,2,1,1,1,1,1,1,1,1,1,1,2,1,1,2,4,1,7,1,4,1,4,1,1,1,
   10,1,17,5,3,1,5,1,17,628,26,6,26,6,26,3702,42720,32,4382,2,5774,2,7473,15,622,2466,542,1506,4939,
   5,8490]

def alphabeticTable : List Nat := alphabeticTableLow ++ alphabeticTableHigh

/-- The general categories Nd, Nl and No, above ASCII. -/
def numericTable : List Nat :=
  [178,2,5,1,2,3,1441,10,134,10,198,10,412,10,118,10,4,6,108,10,118,10,118,10,2,6,110,13,115,10,8,7,
   103,10,104,7,7,19,109,10,96,10,118,10,70,20,268,10,70,10,719,20,881,3,239,10,6,10,22,10,300,10,
   128,11,165,10,6,10,182,10,86,10,134,10,6,10,1046,1,3,6,6,10,198,51,2,5,726,60,78,22,630,30,1385,
   1,777,1,25,9,14,3,343,4,138,10,30,8,1,15,32,10,39,15,29536,10,188,10,320,6,154,10,38,10,198,10,
   22,10,86,10,406,10,21270,10,493,45,12,57,17,2,341,27,36,4,29,1,8,1,134,5,202,10,942,8,25,7,39,9,
   75,5,22,6,160,2,2,16,2,46,64,9,52,2,30,3,75,5,104,8,24,8,41,7,330,6,48,10,6,10,278,31,158,10,42,
   4,112,7,134,30,128,10,60,10,144,10,7,20,251,10,342,10,118,10,374,10,102,10,6,20,76,12,420,19,93,
   10,662,10,86,29,227,10,70,10,54,10,358,10,102,21,1067,111,15553,10,2342,10,86,10,134,10,1,7,526,
   10,262,23,349,3,23801,10,1478,20,12,20,108,25,1109,50,2368,10,422,10,502,10,247,10,716,9,128,10,
   791,59,1,3,1,4,76,45,1,15,962,13,2787,10]

/-- Where the property ID_Start differs from Alphabetic, above ASCII. -/
def idStartDifference : List Nat :=
  [837,1,29,13,488,1,50,2,35,14,1,1,1,2,1,2,1,1,72,11,48,13,1,7,16,1,101,7,4,4,2,2,4,1,35,1,30,16,
   102,11,101,2,3,9,1,3,1,4,106,1,60,12,3,7,6,20,54,2,2,15,1,2,5,3,10,2,29,3,58,7,2,2,2,2,10,1,10,2,
   29,3,58,5,4,2,2,2,4,1,30,2,3,1,11,3,58,8,1,3,1,2,21,2,22,3,4,3,58,7,2,2,2,2,9,2,10,2,30,1,59,5,3,
   3,1,3,10,1,40,5,57,7,1,3,1,3,8,2,11,2,29,3,58,7,1,3,1,3,8,2,11,2,15,1,12,4,58,7,1,3,1,3,10,1,10,
   2,29,3,75,6,1,1,1,8,18,2,61,1,2,7,18,1,99,1,2,6,1,2,16,1,163,19,9,11,1,36,110,12,1,1,2,4,23,4,4,
   3,1,3,2,7,3,4,13,12,1,1,10,4,1652,2,30,2,30,2,30,2,66,19,224,1,118,12,4,9,222,5,57,10,2,20,74,2,
   11,3,49,5,48,15,60,3,30,9,2,2,57,11,50,19,412,34,666,1,13,3,120,1,21,1,903,52,2294,32,47,1,619,2,
   30167,8,34,2,317,6,31,1,8,1,23,5,88,2,50,16,1,1,57,1,38,5,28,12,45,4,48,12,37,1,67,14,12,1,8,2,
   45,3,50,1,1,3,2,2,5,1,44,5,5,1,118,2,117,8,20275,1,2135,5,1088,5,577,3,1,2,5,4,788,4,65,1,321,2,
   27,4,13,22,11,3,259,3,53,14,45,2,11,3,45,9,9,1,61,3,36,12,18,2,57,3,48,13,14,2,92,9,2,1,6,1,2,1,
   157,10,23,4,58,7,2,2,2,2,10,1,10,2,84,9,1,1,2,1,1,4,1,2,103,13,1,3,106,18,237,7,2,7,29,2,82,15,1,
   1,106,11,103,14,257,13,247,6,1,2,2,2,3,1,1,1,142,7,2,6,4,1,28,10,42,5,1,4,18,11,46,14,114,1,85,8,
   199,8,1,7,83,22,1,14,122,6,3,1,1,2,1,3,1,1,3,1,66,5,1,2,1,4,89,2,257,4,9,2,1,1,48,7,3,3,1326,1,5,
   11,208,311,14999,17,3153,30,433,1,1,55,7,4,93,2,7396,5,68,2,223,979,8016,6,63,1,2869,1,6663,1,
   2168,6,6,87,1,20,1,54,1,56,1,17,2,7,1,2,1,5,100,1,1619,1,2,1,7,2,5,1,593,1,2024,26,6,26,6,26,
   50836,1,71649,11328]

/-- Where the property ID_Continue differs from Alphabetic, above ASCII. -/
def idContinueDifference : List Nat :=
  [183,1,584,69,1,29,36,1,251,5,208,1,50,2,4,31,24,2,142,1,7,10,117,2,9,3,3,10,70,11,117,10,33,9,9,
   1,26,2,19,1,43,3,60,8,42,10,12,2,8,6,76,1,16,1,3,4,17,10,76,1,16,1,24,10,14,1,61,1,16,1,24,10,76,
   1,16,1,24,10,13,3,60,1,16,1,5,3,16,10,93,1,24,10,76,1,16,1,24,10,76,1,16,1,24,10,75,2,16,1,24,10,
   90,1,27,10,87,6,1,1,1,10,96,1,13,5,1,1,1,10,62,2,6,10,11,1,1,1,1,1,4,2,68,1,1,2,62,1,112,1,1,2,5,
   10,70,10,707,3,9,9,930,2,30,1,127,2,19,11,9,1,2,10,33,3,1,11,287,3,10,10,128,11,133,1,20,8,2,11,
   6,10,22,14,3,11,3,15,2,13,71,1,15,1,11,10,17,9,54,2,4,10,44,1,11,2,67,1,8,10,6,10,118,3,1,21,4,1,
   6,1,2,3,198,19,34,11,524,2,49,2,19,1,58,1,13,3,48,13,4,1,3,12,39,1,21,1,903,52,2053,3,141,1,175,
   1,506,6,105,4,94,1,29988,10,69,1,12,2,114,2,235,6,35,1,37,1,151,1,11,10,6,18,14,10,33,3,37,1,95,
   1,12,1,15,10,22,10,86,10,101,1,1,1,52,1,117,2,126,2,2,10,20998,16,16,16,3,2,24,3,192,10,37,1,37,
   1,663,1,226,1,447,10,785,5,632,3,4,1,165,2,585,10,6,10,32,4,346,4,13,22,1,10,3,3,70,11,49,4,192,
   1,31,11,14,1,57,2,53,10,57,2,1,10,51,1,76,1,8,4,3,10,91,2,178,2,5,10,65,2,16,1,24,7,3,5,89,3,1,1,
   14,2,95,1,3,1,9,10,4,1,99,2,12,10,229,2,126,1,16,10,92,2,8,10,6,20,71,1,4,10,255,2,165,10,83,2,4,
   1,12,10,134,1,82,2,18,1,80,2,112,1,229,10,69,1,16,10,232,1,1,2,10,10,61,1,8,10,54,10,6,2,335,2,
   13,11,1300,1,5,11,208,311,3513,1,6,15,11481,11,2342,10,86,10,38,5,59,7,25,10,534,10,6,30,2,10,
   570,1,7409,5,68,2,223,979,8016,6,63,1,2868,1,4178,10,518,46,2,23,542,5,3,6,8,8,2,7,30,4,148,3,
   1121,1,295,50,512,55,4,50,8,1,14,1,22,5,1,15,1135,6,6,87,1,20,1,54,1,49,304,7,9,10,356,1,61,14,
   498,14,244,2,1,10,725,7,109,3,1,3,5,10,2006,26,6,26,6,26,2662,10,48164,1,71649,11328,656576,240]

def isBlank (c : Char) : Bool :=
  if c.toNat < 128 then c = ' ' || (9 ≤ c.toNat && c.toNat ≤ 13) else covers whiteSpaceTable c.toNat

def isSpaceSeparator (c : Char) : Bool := covers spaceSeparatorTable c.toNat

def isAlphabetic (c : Char) : Bool :=
  if c.toNat < 128 then c.isAlpha else covers alphabeticTable c.toNat

def isAlphanumeric (c : Char) : Bool :=
  if c.toNat < 128 then c.isAlphanum
  else covers alphabeticTable c.toNat || covers numericTable c.toNat

def isIdStart (c : Char) : Bool :=
  if c.toNat < 128 then c.isAlpha else covers alphabeticTable c.toNat != covers idStartDifference
    c.toNat

def isIdContinue (c : Char) : Bool :=
  if c.toNat < 128 then c.isAlphanum || c = '_'
  else covers alphabeticTable c.toNat != covers idContinueDifference c.toNat

end Loom.Text.Property
